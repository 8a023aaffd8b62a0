import OrbitPlot.Proofs.Picture.Inverse

/-!
# Turning an axis round

To turn an axis round, its two ends are exchanged. A pixel stands for the point at which it begins,
seen from the first pixel: so the first pixel of the turned axis stands for the end of the axis
itself, which lies behind its last pixel, and what the others stand for is found on the axis itself
in the opposite order. The picture is mirrored, but it is not the mirror image: it shows one edge
of the window where the other was shown before.

All this is exact as long as the coordinates are.

## Main statements

* `Axis.IsProper.coordinate_reversed`: which coordinate a pixel of the turned axis has.
* `Axis.IsProper.isExact_of_isEven`: where coordinates are exact.
* `Plane.repeats_of_make`: what the picture shows when an axis is turned round.
-/

namespace OrbitPlot

open Double

/-! ## Axes -/

namespace Axis

/-- The axis the other way round. -/
def reversed (a : Axis) : Axis := ⟨a.far, a.near, a.count⟩

/-- Nothing is lost in the coordinates of the pixels. -/
def IsExact (a : Axis) : Prop :=
  ∀ k < a.count, (a.coordinate k).isFinite ∧ value (a.coordinate k) =
    value a.near + k.toNat * ((value a.far - value a.near) / a.count.toNat)

theorem gap_reversed (a : Axis) : a.reversed.gap = a.gap := abs_sub_comm _ _

theorem IsEven.reversed {a : Axis} (he : a.IsEven) : a.reversed.IsEven := by
  obtain ⟨e, i, c, he⟩ := he
  refine ⟨e, i + a.count.toNat * c, -c, he.le_exponent, he.far_eq, ?_, he.far_le, ?_, ?_⟩
  · rw [Axis.reversed, mul_neg, add_neg_cancel_right]
    exact he.near_eq
  · rw [Axis.reversed, mul_neg, add_neg_cancel_right]
    exact he.near_le
  · rw [mul_neg, abs_neg]
    exact he.gap_le

theorem sub_bounds {k n : UInt64} (hpos : 0 < k) (hlt : k < n) : 0 < n - k ∧ n - k < n := by
  have hplace := UInt64.toNat_sub_of_le _ _ (UInt64.le_of_lt hlt)
  rw [UInt64.lt_iff_toNat_lt] at hpos hlt
  rw [UInt64.lt_iff_toNat_lt, UInt64.lt_iff_toNat_lt, hplace]
  rw [UInt64.toNat_zero] at hpos ⊢
  omega

theorem abs_add_mul_sub_lt {x y t b : ℚ} (ht : 0 ≤ t) (hle : t ≤ 1) (hx : |x| < b) (hy : |y| < b) :
    |x + t * (y - x)| < b := by
  obtain ⟨hx, hx'⟩ := abs_lt.1 hx
  obtain ⟨hy, hy'⟩ := abs_lt.1 hy
  rw [abs_lt]
  rcases le_total x y with hxy | hxy
  · have hlow : 0 ≤ t * (y - x) := mul_nonneg ht (sub_nonneg.2 hxy)
    have hhigh : t * (y - x) ≤ y - x := mul_le_of_le_one_left (sub_nonneg.2 hxy) hle
    exact ⟨by linarith, by linarith⟩
  · have hhigh : t * (y - x) ≤ 0 := mul_nonpos_of_nonneg_of_nonpos ht (sub_nonpos.2 hxy)
    have hlow : y - x ≤ t * (y - x) := le_mul_of_le_one_left (sub_nonpos.2 hxy) hle
    exact ⟨by linarith, by linarith⟩

namespace IsProper

variable {a : Axis} {k : UInt64} (h : a.IsProper)

include h

theorem reversed : a.reversed.IsProper := by
  refine ⟨h.far, h.near, fun heq ↦ h.ne ?_, h.count_ne⟩
  rw [beq_iff h.far]
  exact ⟨h.near, ((beq_iff h.near).1 heq).2.symm⟩

theorem value_ne : value a.far - value a.near ≠ 0 :=
  sub_ne_zero.2 fun heq ↦ h.ne ((beq_iff h.far).2 ⟨h.near, heq.symm⟩)

theorem coordinate_zero_beq (hexact : a.IsExact) : a.coordinate 0 == a.near := by
  obtain ⟨hfinite, hvalue⟩ := hexact 0 (UInt64.pos_iff_ne_zero.2 h.count_ne)
  rw [UInt64.toNat_zero, Nat.cast_zero, zero_mul, add_zero] at hvalue
  exact (beq_iff h.near).2 ⟨hfinite, hvalue⟩

/-- On an exact axis, there is no negative zero behind the first pixel: it would be the coordinate
of the first pixel, too. -/
theorem coordinate_ne_negZero (hexact : a.IsExact) (hpos : 0 < k) (hlt : k < a.count) :
    a.coordinate k ≠ negZero := by
  intro hzero
  have hvalue := (hexact k hlt).2
  rw [hzero, (add_eq_negZero hzero).1] at hvalue
  have hk : (k.toNat : ℚ) ≠ 0 := by
    exact_mod_cast (UInt64.lt_iff_toNat_lt.1 hpos).ne'
  have hcount : (a.count.toNat : ℚ) ≠ 0 := by exact_mod_cast h.count_pos.ne'
  have hstep := div_ne_zero h.value_ne hcount
  rw [(add_eq_negZero hzero).1] at hstep
  exact mul_ne_zero hk hstep (left_eq_add.1 hvalue)

/-- Behind the first pixel, a turned axis has the coordinates of the axis in the opposite order. -/
theorem coordinate_reversed (hexact : a.IsExact) (hexact' : a.reversed.IsExact) (hpos : 0 < k)
    (hlt : k < a.count) : a.reversed.coordinate k = a.coordinate (a.count - k) := by
  have hplace := UInt64.toNat_sub_of_le _ _ (UInt64.le_of_lt hlt)
  have hle := (UInt64.lt_iff_toNat_lt.1 hlt).le
  obtain ⟨hpos', hlt'⟩ := sub_bounds hpos hlt
  obtain ⟨hfinite, hvalue⟩ := hexact _ hlt'
  obtain ⟨hfinite', hvalue'⟩ := hexact' k hlt
  have hcount : (a.count.toNat : ℚ) ≠ 0 := by exact_mod_cast h.count_pos.ne'
  refine eq_of_beq (h.reversed.coordinate_ne_negZero hexact' hpos hlt)
    (h.coordinate_ne_negZero hexact hpos' hlt') ((beq_iff hfinite).2 ⟨hfinite', ?_⟩)
  rw [hvalue, hvalue', hplace, Nat.cast_sub hle]
  change value a.far + k.toNat * ((value a.near - value a.far) / a.count.toNat) = _
  field_simp
  ring

theorem isExact_of_isEven (he : a.IsEven) (hgap : a.gap < overflow) : a.IsExact := by
  obtain ⟨e, i, c, he⟩ := he
  intro k hk
  have hlt := UInt64.lt_iff_toNat_lt.1 hk
  have hc : c ≠ 0 := by
    rintro rfl
    refine h.ruler.ne ?_
    rw [he.near_eq, he.far_eq, mul_zero, add_zero]
  have hmany : a.count.toNat ≤ 2 ^ 53 := he.count_le hc
  have hcount : a.ruler.count = a.count.toNat := value_toFloat_of_le hmany
  have hvalue : value k.toFloat = k.toNat := value_toFloat_of_le (hlt.le.trans hmany)
  have hn : (a.count.toNat : ℚ) ≠ 0 := by exact_mod_cast h.count_pos.ne'
  have hstep : a.ruler.step = (value a.far - value a.near) / a.count.toNat := by
    rw [he.step_eq hcount h.count_pos, eq_div_iff hn]
    change _ = a.ruler.far - a.ruler.near
    rw [he.far_eq, he.near_eq]
    push_cast
    ring
  have hproduct :
      k.toNat * a.ruler.step = k.toNat / a.count.toNat * (value a.far - value a.near) := by
    rw [hstep]
    ring
  have hle : (k.toNat / a.count.toNat : ℚ) ≤ 1 := by
    rw [div_le_one₀ (by exact_mod_cast h.count_pos)]
    exact_mod_cast hlt.le
  have hreaches : a.ruler.Reaches (value k.toFloat) := by
    rw [hvalue]
    refine ⟨?_, ?_⟩
    · rw [hproduct, abs_mul, abs_of_nonneg (by positivity)]
      exact (mul_le_of_le_one_left (abs_nonneg _) hle).trans_lt hgap
    · rw [he.offset_eq hcount h.count_pos hlt.le, hproduct]
      exact abs_add_mul_sub_lt (by positivity) hle (abs_value_lt_overflow _)
        (abs_value_lt_overflow _)
  have hfinite := h.isFinite_coordinate hgap hreaches
  refine ⟨hfinite, ?_⟩
  rw [h.value_coordinate hfinite, hvalue, he.mark_eq hcount h.count_pos hlt.le, hstep]
  rfl

theorem isExact_and_reversed (he : a.IsEven) (hgap : a.gap < overflow) :
    a.IsExact ∧ a.reversed.IsExact :=
  ⟨h.isExact_of_isEven he hgap,
    h.reversed.isExact_of_isEven he.reversed (a.gap_reversed.trans_lt hgap)⟩

theorem coordinate_ne_far (hexact : a.IsExact) (hlt : k < a.count) : ¬a.coordinate k == a.far := by
  intro hbeq
  have hvalue := ((beq_iff h.far).1 hbeq).2
  rw [(hexact k hlt).2] at hvalue
  have hcount : (a.count.toNat : ℚ) ≠ 0 := by exact_mod_cast h.count_pos.ne'
  have hk : (k.toNat : ℚ) < a.count.toNat := by exact_mod_cast UInt64.lt_iff_toNat_lt.1 hlt
  have hzero : ((k.toNat : ℚ) - a.count.toNat) * (value a.far - value a.near) = 0 := by
    field_simp at hvalue
    linarith
  exact mul_ne_zero (sub_ne_zero.2 hk.ne) h.value_ne hzero

end IsProper

end Axis

/-! ## Pictures -/

namespace Recurrence

variable (r : Recurrence) (s : Settings)

theorem get?_render_of_lt {p : Plane} {q : Pixel} (hx : q.x < p.width) (hy : q.y < p.height)
    (image : Image) : (r.render s p (fun _ ↦ false) image).1.get? q.x.toNat q.y.toNat =
      overlay (r.color s (p.point q) {}).1 (image.get? q.x.toNat q.y.toNat) := by
  have hcolor : r.pixelColor s p q.x.toNat q.y.toNat = (r.color s (p.point q) {}).1 := by
    rw [pixelColor, Nat.toUInt64_eq, Nat.toUInt64_eq, UInt64.ofNat_toNat, UInt64.ofNat_toNat]
  rw [get?_render_of_never_stopped, hcolor]
  by_cases himage : q.x.toNat < image.width ∧ q.y.toNat < image.height
  · rw [if_pos ⟨lt_min (UInt64.lt_iff_toNat_lt.1 hx) himage.1,
      lt_min (UInt64.lt_iff_toNat_lt.1 hy) himage.2⟩]
  · have hnone : image.get? q.x.toNat q.y.toNat = none := if_neg himage
    rw [hnone, overlay, Option.map_none, ite_self]

end Recurrence

namespace Plane

/-- Some pixels of a plane show what others show on another plane, whatever is drawn. -/
structure Repeats (p p' : Plane) (S : Pixel → Prop) (f : Pixel → Pixel) : Prop where
  point_eq : ∀ q, S q → p.point q = p'.point (f q)
  get?_render : ∀ (r : Recurrence) (s : Settings) (image image' : Image) (q : Pixel), S q →
    image.get? q.x.toNat q.y.toNat = image'.get? (f q).x.toNat (f q).y.toNat →
    (r.render s p (fun _ ↦ false) image).1.get? q.x.toNat q.y.toNat =
      (r.render s p' (fun _ ↦ false) image').1.get? (f q).x.toNat (f q).y.toNat

theorem repeats_of_point_eq {p p' : Plane} {S : Pixel → Prop} {f : Pixel → Pixel}
    (hS : ∀ q, S q → q.x < p.width ∧ q.y < p.height)
    (hf : ∀ q, S q → (f q).x < p'.width ∧ (f q).y < p'.height)
    (hpoint : ∀ q, S q → p.point q = p'.point (f q)) : p.Repeats p' S f := by
  refine ⟨hpoint, fun r s image image' q hq hold ↦ ?_⟩
  rw [r.get?_render_of_lt s (hS q hq).1 (hS q hq).2, r.get?_render_of_lt s (hf q hq).1 (hf q hq).2,
    hpoint q hq, hold]

end Plane

/-! ## Windows -/

namespace Window.IsProper

variable {w : Window} (h : w.IsProper)

include h

theorem mirrorReal : w.mirrorReal.IsProper := by
  obtain ⟨hleft, hright, hbottom, htop⟩ := h.finite
  refine ⟨⟨hright, hleft, hbottom, htop⟩, fun heq ↦ h.hasWidth ?_, h.hasHeight⟩
  exact (beq_iff hright).2 ⟨hleft, ((beq_iff hleft).1 heq).2.symm⟩

theorem mirrorImag : w.mirrorImag.IsProper := by
  obtain ⟨hleft, hright, hbottom, htop⟩ := h.finite
  refine ⟨⟨hleft, hright, htop, hbottom⟩, h.hasWidth, fun heq ↦ h.hasHeight ?_⟩
  exact (beq_iff htop).2 ⟨hbottom, ((beq_iff hbottom).1 heq).2.symm⟩

end Window.IsProper

namespace Plane

variable {width height : UInt64} {window : Window} {plane : Plane}

/-- **Turning an axis round.** Take any plane that can be made. With its real axis turned round,
there is a plane, too. Wherever both have exact coordinates, as they have on an even axis, a column
of the turned plane, if it is not the first, shows what the plane shows as many columns before its
end; but the first column shows the right edge of the window, which is no column of the plane. The
same is true of the imaginary axis and of rows: the first row of the turned plane shows the lower
edge of the window. -/
theorem repeats_of_make (h : Plane.make width height window = .ok plane) :
    (∃ mirrored, Plane.make width height window.mirrorReal = .ok mirrored ∧
      (plane.across.IsEven → plane.across.gap < overflow →
        plane.across.IsExact ∧ mirrored.across.IsExact) ∧
      (plane.across.IsExact → mirrored.across.IsExact →
        mirrored.Repeats plane (fun q ↦ 0 < q.x ∧ q.x < width ∧ q.y < height)
          (fun q ↦ ⟨width - q.x, q.y⟩) ∧
        ∀ y, (mirrored.point ⟨0, y⟩).re == window.right ∧
          ∀ q : Pixel, q.x < width → ¬(plane.point q).re == window.right)) ∧
    ∃ mirrored, Plane.make width height window.mirrorImag = .ok mirrored ∧
      (plane.down.IsEven → plane.down.gap < overflow →
        plane.down.IsExact ∧ mirrored.down.IsExact) ∧
      (plane.down.IsExact → mirrored.down.IsExact →
        mirrored.Repeats plane (fun q ↦ 0 < q.y ∧ q.x < width ∧ q.y < height)
          (fun q ↦ ⟨q.x, height - q.y⟩) ∧
        ∀ x, (mirrored.point ⟨x, 0⟩).im == window.bottom ∧
          ∀ q : Pixel, q.y < height → ¬(plane.point q).im == window.bottom) := by
  obtain ⟨hacross, hdown⟩ := isProper_of_make h
  obtain ⟨hproper, hwidth, hheight, rfl⟩ := make_eq_ok_iff.1 h
  have hreal := make_eq_ok_iff.2 ⟨hproper.mirrorReal, hwidth, hheight, rfl⟩
  have himag := make_eq_ok_iff.2 ⟨hproper.mirrorImag, hwidth, hheight, rfl⟩
  refine ⟨⟨_, hreal, fun he hgap ↦ ?_, fun hexact hexact' ↦ ⟨?_, fun y ↦ ⟨?_, fun q hx ↦ ?_⟩⟩⟩,
    ⟨_, himag, fun he hgap ↦ ?_, fun hexact hexact' ↦ ⟨?_, fun x ↦ ⟨?_, fun q hy ↦ ?_⟩⟩⟩⟩
  · exact hacross.isExact_and_reversed he hgap
  · refine repeats_of_point_eq (fun q hq ↦ hq.2) (fun q hq ↦ ?_) fun q hq ↦ ?_
    · exact ⟨(Axis.sub_bounds hq.1 hq.2.1).2, hq.2.2⟩
    · rw [point_of_make hreal, point_of_make h]
      exact congrArg (Point.mk · _) (hacross.coordinate_reversed hexact hexact' hq.1 hq.2.1)
  · rw [point_of_make hreal]
    exact hacross.reversed.coordinate_zero_beq hexact'
  · rw [point_of_make h]
    exact hacross.coordinate_ne_far hexact hx
  · exact hdown.isExact_and_reversed he hgap
  · refine repeats_of_point_eq (fun q hq ↦ hq.2) (fun q hq ↦ ?_) fun q hq ↦ ?_
    · exact ⟨hq.2.1, (Axis.sub_bounds hq.1 hq.2.2).2⟩
    · rw [point_of_make himag, point_of_make h]
      exact congrArg (Point.mk _ ·) (hdown.coordinate_reversed hexact hexact' hq.1 hq.2.2)
  · rw [point_of_make himag]
    exact hdown.reversed.coordinate_zero_beq hexact'
  · rw [point_of_make h]
    exact hdown.coordinate_ne_far hexact hy

theorem isEven_square : Axis.IsEven ⟨-2, 2, 4⟩ ∧ Axis.gap ⟨-2, 2, 4⟩ < overflow := by
  refine ⟨⟨0, -2, 1, ?_⟩, ?_⟩
  · constructor
    all_goals decide +kernel
  · have hgap : Axis.gap ⟨-2, 2, 4⟩ = 4 := by decide +kernel
    have hunit := two_pow_le_greatestUnit
    rw [hgap, overflow]
    linarith

/-- Over this square, the second column of the turned plane shows the last column of the plane. -/
theorem repeats_of_make_of_square : ∃ plane mirrored,
    Plane.make 4 4 ⟨-2, 2, -2, 2⟩ = .ok plane ∧ Plane.make 4 4 ⟨2, -2, -2, 2⟩ = .ok mirrored ∧
      plane.across.IsExact ∧ mirrored.across.IsExact ∧
      mirrored.point ⟨1, 2⟩ = plane.point ⟨3, 2⟩ ∧ (mirrored.point ⟨0, 2⟩).re == 2 := by
  have hmake : Plane.make 4 4 ⟨-2, 2, -2, 2⟩ = .ok ⟨4, 4, ⟨-2, 2, -2, 2⟩, 1, -1⟩ := by
    decide +kernel
  obtain ⟨⟨mirrored, hmirrored, hexact, hrepeats⟩, -⟩ := repeats_of_make hmake
  obtain ⟨hacross, hacross'⟩ := hexact isEven_square.1 isEven_square.2
  obtain ⟨hrepeats, hfirst⟩ := hrepeats hacross hacross'
  exact ⟨_, mirrored, hmake, hmirrored, hacross, hacross',
    hrepeats.point_eq ⟨1, 2⟩ ⟨by decide, by decide, by decide⟩, (hfirst 2).1⟩

/-- The turned plane does not show the mirror image, neither with its real axis turned round nor
with its imaginary axis, and though nothing is lost in the coordinates: in its first column, it does
not have the points of the last column of the plane, and another color is drawn there. -/
theorem exists_point_mirror_ne : ∃ plane across down,
    Plane.make 4 4 ⟨-2, 2, -2, 2⟩ = .ok plane ∧
      Plane.make 4 4 (Window.mirrorReal ⟨-2, 2, -2, 2⟩) = .ok across ∧
      Plane.make 4 4 (Window.mirrorImag ⟨-2, 2, -2, 2⟩) = .ok down ∧
      (∀ p ∈ [plane, across, down], p.across.IsExact ∧ p.down.IsExact) ∧
      across.point ⟨0, 0⟩ ≠ plane.point ⟨3, 0⟩ ∧ down.point ⟨0, 0⟩ ≠ plane.point ⟨0, 3⟩ ∧
      ∃ r, Recurrence.read "c;p*p+c".toList = .ok r ∧
        (r.render ⟨1, none, .escape⟩ across (fun _ ↦ false) (.filled 4 4 .black)).1.get? 0 2 =
          some .white ∧
        (r.render ⟨1, none, .escape⟩ plane (fun _ ↦ false) (.filled 4 4 .black)).1.get? 3 2 =
          some (.gray 64) := by
  have hmake : Plane.make 4 4 ⟨-2, 2, -2, 2⟩ = .ok ⟨4, 4, ⟨-2, 2, -2, 2⟩, 1, -1⟩ := by
    decide +kernel
  have hreal : Plane.make 4 4 ⟨2, -2, -2, 2⟩ = .ok ⟨4, 4, ⟨2, -2, -2, 2⟩, -1, -1⟩ := by
    decide +kernel
  have himag : Plane.make 4 4 ⟨-2, 2, 2, -2⟩ = .ok ⟨4, 4, ⟨-2, 2, 2, -2⟩, 1, 1⟩ := by
    decide +kernel
  have hcolors : (Recurrence.read "c;p*p+c".toList).toOption.map (fun r ↦
      ((r.render ⟨1, none, .escape⟩ ⟨4, 4, ⟨2, -2, -2, 2⟩, -1, -1⟩ (fun _ ↦ false)
        (.filled 4 4 .black)).1.get? 0 2,
      (r.render ⟨1, none, .escape⟩ ⟨4, 4, ⟨-2, 2, -2, 2⟩, 1, -1⟩ (fun _ ↦ false)
        (.filled 4 4 .black)).1.get? 3 2)) = some (some .white, some (.gray 64)) := by
    decide +kernel
  obtain ⟨r, hread, hr⟩ := Except.exists_of_map_toOption_eq_some hcolors
  obtain ⟨hwhite, hgray⟩ := Prod.mk.inj hr
  obtain ⟨hrising, hfalling⟩ :=
    (isProper_of_make hmake).1.isExact_and_reversed isEven_square.1 isEven_square.2
  refine ⟨_, _, _, hmake, hreal, himag, fun p hp ↦ ?_, by decide +kernel, by decide +kernel,
    r, hread, hwhite, hgray⟩
  simp only [List.mem_cons, List.not_mem_nil, or_false] at hp
  rcases hp with rfl | rfl | rfl
  · exact ⟨hrising, hfalling⟩
  · exact ⟨hfalling, hfalling⟩
  · exact ⟨hrising, hrising⟩

end Plane

end OrbitPlot
