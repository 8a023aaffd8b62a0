import OrbitPlot.Proofs.Picture.Axis
import OrbitPlot.Proofs.Picture.Canvas

/-!
# From pixels to points and back

A plane gives each of its pixels a point, and it finds for a point the pixel that it falls on. Were
there no rounding, the pixel found for the point of a pixel would be this pixel. But the point of a
pixel is the very corner in which the pixel begins, and what comes after the point is dropped when
its place is counted. So wherever anything is lost that makes the way to the corner too short, the
pixel before is found instead.

It is never another one, if the edges of the window are not too far from zero for the length of a
step, as on any plane that is not zoomed in too much. And it is the pixel itself if nothing is lost
at all, which is so if the edges and the steps are multiples of one power of two.

## Main statements

* `Axis.IsProper.place?_of_resolved`: what is found on an axis with rounding,
* `Axis.IsProper.place?_of_isEven`: and without.
* `Plane.pixel?_point_of_make`: the pixel that is found for the point of a pixel.
-/

namespace OrbitPlot

open Double

/-! ## Even rulers -/

namespace Ruler

/-- The ends and the steps of a ruler are whole multiples of a power of two, and not large ones. -/
structure IsEven (r : Ruler) (n : ℕ) (e i c : ℤ) : Prop where
  le_exponent : -1074 ≤ e
  near_eq : r.near = i * 2 ^ e
  far_eq : r.far = (i + n * c : ℤ) * 2 ^ e
  near_le : |i| ≤ 2 ^ 53
  far_le : |i + n * c| ≤ 2 ^ 53
  gap_le : |n * c| ≤ 2 ^ 53

namespace IsEven

variable {r : Ruler} {n k : ℕ} {e i c : ℤ} (h : r.IsEven n e i c)

theorem toNearest_eq {m : ℤ} (h : r.IsEven n e i c) (hm : |m| ≤ 2 ^ 53) :
    toNearest (m * 2 ^ e) = m * 2 ^ e :=
  Representable.toNearest_eq ⟨m, e, hm, h.le_exponent, rfl⟩

include h

theorem abs_mul_le (hk : k ≤ n) : |k * c| ≤ 2 ^ 53 := by
  refine le_trans ?_ h.gap_le
  rw [abs_mul, abs_mul, Nat.abs_cast, Nat.abs_cast]
  exact mul_le_mul_of_nonneg_right (by exact_mod_cast hk) (abs_nonneg c)

theorem abs_add_mul_le (hk : k ≤ n) : |i + k * c| ≤ 2 ^ 53 := by
  have hk : (k : ℤ) ≤ n := by exact_mod_cast hk
  have hnonneg : (0 : ℤ) ≤ k := Int.natCast_nonneg k
  have hnear := abs_le.1 h.near_le
  have hfar := abs_le.1 h.far_le
  rcases le_total 0 c with hc | hc
  · have hlow : 0 ≤ k * c := mul_nonneg hnonneg hc
    have hhigh : k * c ≤ n * c := mul_le_mul_of_nonneg_right hk hc
    exact abs_le.2 ⟨by linarith, by linarith⟩
  · have hhigh : k * c ≤ 0 := mul_nonpos_of_nonneg_of_nonpos hnonneg hc
    have hlow : n * c ≤ k * c := mul_le_mul_of_nonpos_right hk hc
    exact abs_le.2 ⟨by linarith, by linarith⟩

theorem step_eq (hcount : r.count = n) (hn : 0 < n) : r.step = c * 2 ^ e := by
  have hn' : (n : ℚ) ≠ 0 := by exact_mod_cast hn.ne'
  have hgap : r.far - r.near = (n * c : ℤ) * 2 ^ e := by
    rw [h.far_eq, h.near_eq]
    push_cast
    ring
  have hspan : r.span = n * (c * 2 ^ e) := by
    rw [span, hgap, h.toNearest_eq h.gap_le]
    push_cast
    ring
  have hone : |c| ≤ 2 ^ 53 := by simpa using h.abs_mul_le (k := 1) hn
  rw [step, hspan, hcount, mul_div_cancel_left₀ _ hn', h.toNearest_eq hone]

theorem offset_eq (hcount : r.count = n) (hn : 0 < n) (hk : k ≤ n) :
    r.offset k = k * r.step := by
  have hmul : k * r.step = (k * c : ℤ) * 2 ^ e := by
    rw [h.step_eq hcount hn]
    push_cast
    ring
  rw [offset, hmul, h.toNearest_eq (h.abs_mul_le hk)]

theorem mark_eq (hcount : r.count = n) (hn : 0 < n) (hk : k ≤ n) :
    r.mark k = r.near + k * r.step := by
  have hsum : r.near + k * r.step = (i + k * c : ℤ) * 2 ^ e := by
    rw [h.step_eq hcount hn, h.near_eq]
    push_cast
    ring
  rw [mark, h.offset_eq hcount hn hk, hsum, h.toNearest_eq (h.abs_add_mul_le hk)]

theorem count_le (hc : c ≠ 0) : n ≤ 2 ^ 53 := by
  have hle : (n : ℤ) * 1 ≤ n * |c| :=
    mul_le_mul_of_nonneg_left (Int.one_le_abs hc) (Int.natCast_nonneg n)
  have hgap := h.gap_le
  rw [abs_mul, Nat.abs_cast] at hgap
  exact_mod_cast (mul_one (n : ℤ)).symm.le.trans (hle.trans hgap)

end IsEven

end Ruler

/-! ## What is found on an axis -/

namespace Axis

/-- The pixel at which a coordinate is found. -/
def place? (a : Axis) (x : Float) : Option UInt64 :=
  Plane.place? a.count ((x - a.near) / a.step)

/-- The ends of an axis are not too far from zero for the length of its steps. -/
structure Resolved (a : Axis) : Prop where
  near_le : |value a.near| ≤ 2 ^ 48 * |value a.step|
  far_le : |value a.far| ≤ 2 ^ 48 * |value a.step|

/-- The ends and the steps of an axis are whole multiples of a power of two, and not large ones. -/
def IsEven (a : Axis) : Prop := ∃ e i c, a.ruler.IsEven a.count.toNat e i c

theorem place?_of_value (count : UInt64) {x : Float} (hx : x.isFinite) (h : 0 ≤ value x)
    (hlt : value x < value count.toFloat) :
    ∃ j, Plane.place? count x = some j ∧ j.toNat = ⌊value x⌋₊ := by
  have hlow : ¬x < 0 := by
    rw [lt_iff hx isFinite_zero, value_zero]
    exact h.not_gt
  have hhigh : ¬count.toFloat ≤ x := by
    rw [le_iff (isFinite_toFloat count) hx]
    exact hlt.not_ge
  refine ⟨x.toUInt64, ?_, toNat_toUInt64_of_nonneg hx h (hlt.trans_le (value_toFloat_le count))⟩
  rw [Plane.place?, if_neg (by simp [hlow, hhigh])]

namespace IsProper

variable {a : Axis} {k : UInt64} (h : a.IsProper)

include h

/-- The place of a coordinate is found by the way back from its mark. -/
theorem place?_coordinate (hfinite : (a.coordinate k).isFinite) (hstep : ¬a.step == 0)
    (hway : |a.ruler.mark (value k.toFloat) - a.ruler.near| < overflow)
    (hback : 0 ≤ a.ruler.back (value k.toFloat))
    (hlt : a.ruler.back (value k.toFloat) < a.ruler.count) :
    ∃ j, a.place? (a.coordinate k) = some j ∧ j.toNat = ⌊a.ruler.back (value k.toFloat)⌋₊ := by
  have hgap := h.gap_lt_of_isFinite hfinite
  have hvalue := h.value_step hgap
  have hne : value a.step ≠ 0 := by
    rw [hvalue]
    exact fun hzero ↦ hstep (h.step_beq_zero_iff.2 ⟨hgap, hzero⟩)
  have hdifference := isRounded_sub hfinite h.near
  rw [h.value_coordinate hfinite] at hdifference
  have hnumber := hdifference.isFinite_iff.2 hway
  have hquotient := isRounded_div hnumber (h.isFinite_step_iff.2 hgap) hne
  rw [hdifference.value_eq hnumber, hvalue] at hquotient
  have hfinite : ((a.coordinate k - a.near) / a.step).isFinite := by
    have hcount : a.ruler.count ≤ 2 ^ 64 := value_toFloat_le a.count
    have hunit := two_pow_le_greatestUnit
    rw [hquotient.isFinite_iff, ← abs_toNearest_lt_iff]
    change |a.ruler.back (value k.toFloat)| < _
    rw [abs_of_nonneg hback]
    linarith
  have hplace := hquotient.value_eq hfinite
  have hfound := place?_of_value a.count hfinite (hplace.symm ▸ hback) (hplace.symm ▸ hlt)
  rwa [hplace] at hfound

theorem place?_zero (hfinite : (a.coordinate 0).isFinite) (hstep : ¬a.step == 0) :
    a.place? (a.coordinate 0) = some 0 := by
  have hzero : value (0 : UInt64).toFloat = 0 := by
    rw [value_toFloat_of_le (Nat.zero_le _), UInt64.toNat_zero, Nat.cast_zero]
  obtain ⟨j, hj, hplace⟩ := h.place?_coordinate hfinite hstep
    (by rw [hzero, h.ruler.mark_zero, sub_self, abs_zero]; exact overflow_pos)
    (by rw [hzero, h.ruler.back_zero])
    (by rw [hzero, h.ruler.back_zero]; exact one_pos.trans_le h.ruler.one_le)
  rw [hzero, h.ruler.back_zero, Nat.floor_zero] at hplace
  rw [hj, UInt64.toNat_inj.1 (hplace.trans UInt64.toNat_zero.symm)]

theorem resolved (hr : a.Resolved) (hgap : a.gap < overflow) (hstep : ¬a.step == 0) :
    a.ruler.Resolved := by
  obtain ⟨hnear, hfar⟩ := hr
  rw [h.value_step hgap] at hnear hfar
  exact ⟨fun hzero ↦ hstep (h.step_beq_zero_iff.2 ⟨hgap, hzero⟩), hnear, hfar⟩

theorem count_le (hr : a.ruler.Resolved) : a.count.toNat ≤ 2 ^ 52 := by
  have hcount := h.ruler.count_le hr
  by_contra hlt
  have hmany : ((2 ^ 52 : ℕ) : ℚ) ≤ value a.count.toFloat := by
    rw [value_toFloat]
    refine (representable_natCast (by norm_num)).le_toNearest ?_
    exact_mod_cast (Nat.lt_of_not_le hlt).le
  have hle : ((2 ^ 52 : ℕ) : ℚ) ≤ 2 ^ 50 + 1 := hmany.trans hcount
  norm_num at hle

/-- On an axis that is resolved, the pixel or the one before it is found. -/
theorem place?_of_resolved (hr : a.Resolved) (hfinite : (a.coordinate k).isFinite)
    (hstep : ¬a.step == 0) (hk : k < a.count) :
    ∃ j, a.place? (a.coordinate k) = some j ∧ (j = k ∨ j.toNat + 1 = k.toNat) := by
  have hgap := h.gap_lt_of_isFinite hfinite
  have hr := h.resolved hr hgap hstep
  have hcount := h.count_le hr
  have hplace := add_one_le hcount hk
  have hvalue := value_toFloat_of_lt hcount hk
  have hway := h.ruler.abs_mark_sub_near_lt hgap (ruler_count_le hcount) hplace
  have hloss := abs_lt.1 (h.ruler.abs_back_sub_lt hr hplace)
  have hnonneg : 0 ≤ a.ruler.back k.toNat := by
    rcases k.toNat.eq_zero_or_pos with hzero | hpos
    · rw [hzero, Nat.cast_zero, h.ruler.back_zero]
    · have hone : (1 : ℚ) ≤ k.toNat := by exact_mod_cast hpos
      linarith
  obtain ⟨j, hj, hfloor⟩ := h.place?_coordinate hfinite hstep (by rwa [hvalue])
    (by rwa [hvalue]) (by rw [hvalue]; linarith)
  rw [hvalue] at hfloor
  have hhigh : ⌊a.ruler.back k.toNat⌋₊ < k.toNat + 1 := by
    rw [Nat.floor_lt hnonneg]
    push_cast
    linarith
  have hlow : k.toNat < ⌊a.ruler.back k.toNat⌋₊ + 2 := by
    have hlt := Nat.lt_floor_add_one (a.ruler.back k.toNat)
    have hcast : (k.toNat : ℚ) < ⌊a.ruler.back k.toNat⌋₊ + 2 := by linarith
    exact_mod_cast hcast
  refine ⟨j, hj, ?_⟩
  rw [← UInt64.toNat_inj]
  omega

theorem place?_of_isEven (he : a.IsEven) (hfinite : (a.coordinate k).isFinite)
    (hstep : ¬a.step == 0) (hk : k < a.count) : a.place? (a.coordinate k) = some k := by
  obtain ⟨e, i, c, he⟩ := he
  have hgap := h.gap_lt_of_isFinite hfinite
  have hlt := UInt64.lt_iff_toNat_lt.1 hk
  have hne : a.ruler.step ≠ 0 := fun hzero ↦ hstep (h.step_beq_zero_iff.2 ⟨hgap, hzero⟩)
  have hc : c ≠ 0 := by
    rintro rfl
    refine h.ruler.ne ?_
    rw [he.near_eq, he.far_eq, mul_zero, add_zero]
  have hmany : a.count.toNat ≤ 2 ^ 53 := he.count_le hc
  have hcount : a.ruler.count = a.count.toNat := value_toFloat_of_le hmany
  have hvalue : value k.toFloat = k.toNat := value_toFloat_of_le (hlt.le.trans hmany)
  have hmark := he.mark_eq hcount h.count_pos hlt.le
  have hoffset := he.offset_eq hcount h.count_pos hlt.le
  have hback := Ruler.back_eq hne (hlt.le.trans hmany) hoffset hmark
  obtain ⟨j, hj, hplace⟩ := h.place?_coordinate hfinite hstep
    (by
      rw [hvalue, hmark, add_sub_cancel_left, ← hvalue,
        ← (h.isRounded_product hgap k).isFinite_iff]
      exact isFinite_product hfinite)
    (by rw [hvalue, hback]; exact Nat.cast_nonneg _)
    (by rw [hvalue, hback, hcount]; exact_mod_cast hlt)
  rw [hvalue, hback, Nat.floor_natCast] at hplace
  rw [hj, UInt64.toNat_inj.1 hplace]

end IsProper

end Axis

/-! ## What is found on a plane -/

namespace Plane

variable {width height : UInt64} {window : Window} {plane : Plane}

/-- The axes of a plane are resolved: this is so unless the plane is zoomed in too much. -/
structure Resolved (p : Plane) : Prop where
  across : p.across.Resolved
  down : p.down.Resolved

/-- The axes of a plane are even: so nothing is rounded. -/
structure IsEven (p : Plane) : Prop where
  across : p.across.IsEven
  down : p.down.IsEven

theorem pixel?_eq_place? (h : Plane.make width height window = .ok plane) (z : Point) :
    plane.pixel? z =
      (plane.across.place? z.re).bind fun x ↦ (plane.down.place? z.im).map fun y ↦ ⟨x, y⟩ := by
  obtain ⟨-, -, -, rfl⟩ := make_eq_ok_iff.1 h
  exact pixel?_eq _ z

theorem pixel?_and_mark?_of_place? (h : Plane.make width height window = .ok plane)
    {re im : Float} {x y : UInt64} (hx : plane.across.place? re = some x)
    (hy : plane.down.place? im = some y) :
    plane.pixel? ⟨re, im⟩ = some ⟨x, y⟩ ∧ ∀ (image : Image) (color : Color),
      image.mark? plane ⟨re, im⟩ color = some (image.cross color ⟨x, y⟩) := by
  have hpixel : plane.pixel? ⟨re, im⟩ = some ⟨x, y⟩ := by
    rw [pixel?_eq_place? h, hx, hy, Option.bind_some, Option.map_some]
  refine ⟨hpixel, fun image color ↦ ?_⟩
  rw [Image.mark?, hpixel, Option.map_some]

/-- **What is found for the point of a pixel.** Take any plane that can be made, and a pixel on it
that has a point, where the steps are not zero. If the plane is resolved, what is found for the
point is the pixel itself, or the one before it in its row, or in its column, or in both. If the
plane is even, it is the pixel itself; and so it is on every plane for the first pixel of all. What
is found is what is marked. -/
theorem pixel?_point_of_make (h : Plane.make width height window = .ok plane)
    (hstepX : ¬plane.stepX == 0) (hstepY : ¬plane.stepY == 0) {q : Pixel} (hx : q.x < plane.width)
    (hy : q.y < plane.height) (hre : (plane.point q).re.isFinite)
    (him : (plane.point q).im.isFinite) :
    (plane.Resolved → ∃ q', plane.pixel? (plane.point q) = some q' ∧
        (q'.x = q.x ∨ q'.x.toNat + 1 = q.x.toNat) ∧ (q'.y = q.y ∨ q'.y.toNat + 1 = q.y.toNat) ∧
        ∀ (image : Image) (color : Color),
          image.mark? plane (plane.point q) color = some (image.cross color q')) ∧
      (plane.IsEven ∨ q = ⟨0, 0⟩ → plane.pixel? (plane.point q) = some q ∧
        ∀ (image : Image) (color : Color),
          image.mark? plane (plane.point q) color = some (image.cross color q)) := by
  obtain ⟨hacross, hdown⟩ := isProper_of_make h
  rw [(step_of_make h).1] at hstepX
  rw [(step_of_make h).2] at hstepY
  rw [point_of_make h] at hre him ⊢
  refine ⟨fun hr ↦ ?_, ?_⟩
  · obtain ⟨x, hplaceX, hnearX⟩ := hacross.place?_of_resolved hr.across hre hstepX hx
    obtain ⟨y, hplaceY, hnearY⟩ := hdown.place?_of_resolved hr.down him hstepY hy
    obtain ⟨hpixel, hmark⟩ := pixel?_and_mark?_of_place? h hplaceX hplaceY
    exact ⟨⟨x, y⟩, hpixel, hnearX, hnearY, hmark⟩
  · rintro (he | rfl)
    · have hplaceX := hacross.place?_of_isEven he.across hre hstepX hx
      have hplaceY := hdown.place?_of_isEven he.down him hstepY hy
      exact pixel?_and_mark?_of_place? h hplaceX hplaceY
    · have hplaceX := hacross.place?_zero hre hstepX
      have hplaceY := hdown.place?_zero him hstepY
      exact pixel?_and_mark?_of_place? h hplaceX hplaceY

/-- Over the usual window, which is resolved, and over the square around zero, which is even. -/
theorem pixel?_point_of_make_of_windows :
    (∃ plane, Plane.make 600 600 .usual = .ok plane ∧
      ∃ q', plane.pixel? (plane.point ⟨300, 200⟩) = some q' ∧
        (q'.x = 300 ∨ q'.x.toNat + 1 = 300) ∧ (q'.y = 200 ∨ q'.y.toNat + 1 = 200)) ∧
      ∃ plane, Plane.make 512 512 ⟨-2, 2, -2, 2⟩ = .ok plane ∧
        plane.pixel? (plane.point ⟨300, 200⟩) = some ⟨300, 200⟩ := by
  have husual : Plane.make 600 600 .usual =
      .ok ⟨600, 600, .usual, 0.006666666666666667, -0.005333333333333334⟩ := by
    decide +kernel
  have hsquare : Plane.make 512 512 ⟨-2, 2, -2, 2⟩ =
      .ok ⟨512, 512, ⟨-2, 2, -2, 2⟩, 0.0078125, -0.0078125⟩ := by
    decide +kernel
  refine ⟨⟨_, husual, ?_⟩, ⟨_, hsquare, ?_⟩⟩
  · obtain ⟨q', hpixel, hx, hy, -⟩ := (pixel?_point_of_make husual (q := ⟨300, 200⟩)
      (by decide +kernel) (by decide +kernel) (by decide) (by decide) (by decide +kernel)
      (by decide +kernel)).1
      ⟨⟨by decide +kernel, by decide +kernel⟩, ⟨by decide +kernel, by decide +kernel⟩⟩
    exact ⟨q', hpixel, hx, hy⟩
  · have heven : Plane.IsEven ⟨512, 512, ⟨-2, 2, -2, 2⟩, 0.0078125, -0.0078125⟩ := by
      refine ⟨⟨-7, -256, 1, ?_⟩, ⟨-7, 256, -1, ?_⟩⟩
      all_goals
        constructor
        all_goals decide +kernel
    exact ((pixel?_point_of_make hsquare (by decide +kernel) (by decide +kernel) (by decide)
      (by decide) (by decide +kernel) (by decide +kernel)).2 (.inl heven)).1

/-- On the usual plane every pixel has a point, and there are steps, but the pixel before is found
for the point of another. -/
theorem exists_pixel?_point_ne :
    ∃ plane, Plane.make 600 600 .usual = .ok plane ∧
      (∀ q : Pixel, q.x < 600 → q.y < 600 →
        (plane.point q).re.isFinite ∧ (plane.point q).im.isFinite) ∧
      ¬plane.stepX == 0 ∧ ¬plane.stepY == 0 ∧
      plane.pixel? (plane.point ⟨2, 0⟩) = some ⟨1, 0⟩ := by
  have hmake : Plane.make 600 600 .usual =
      .ok ⟨600, 600, .usual, 0.006666666666666667, -0.005333333333333334⟩ := by
    decide +kernel
  have hedges : ∀ x ∈ [Window.usual.left, Window.usual.right, Window.usual.bottom,
      Window.usual.top], |value x| ≤ 4 := by
    decide +kernel
  have hunit := two_pow_le_greatestUnit
  refine ⟨_, hmake, fun q hx hy ↦ isFinite_point_of_make hmake (fun x hmem ↦ ?_) hx hy, ?_, ?_, ?_⟩
  · exact (hedges x hmem).trans (by linarith)
  all_goals decide +kernel

end Plane

end OrbitPlot
