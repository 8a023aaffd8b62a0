import OrbitPlot.Proofs.CommandLine.Session
import OrbitPlot.Proofs.Float.Value
import OrbitPlot.Proofs.Picture.Ruler

/-!
# Planes that can be used

A plane is made from any window that has a shape, and from any number of pixels. But the numbers
that it computes with are doubles. The distance between opposite edges may be too large for one, and
then there is a pixel for which there is no point; divided by the number of pixels it may be too
small for one, and then all pixels have the same point. And if the edges are next to each other, the
points of different pixels are not told apart, although there is a step from one to the next.

Each axis of a plane is a `Ruler` as far as its numbers are finite, so what is known about rulers
tells where these limits are.

## Main statements

* `Axis.IsProper.isFinite_coordinate_iff`: when a coordinate is a number.
* `Axis.IsProper.value_coordinate`: which number it is.
* `Plane.limits_of_make`: the limits within which a plane can be used.
-/

namespace OrbitPlot

open Double

/-! ## Axes -/

/-- One axis of a plane: the numbers at its two ends, and how many pixels lie between them. -/
structure Axis where
  /-- The number at the first pixel. -/
  near : Float
  /-- The number behind the last pixel. -/
  far : Float
  /-- How many pixels there are. -/
  count : UInt64

namespace Axis

/-- How much the coordinate grows from one pixel to the next. -/
def step (a : Axis) : Float := (a.far - a.near) / a.count.toFloat

/-- The coordinate of a pixel. -/
def coordinate (a : Axis) (k : UInt64) : Float := a.near + k.toFloat * a.step

/-- How far the ends are from each other, exactly. -/
def gap (a : Axis) : ℚ := |value a.far - value a.near|

/-- The axis as a ruler. -/
def ruler (a : Axis) : Ruler := ⟨value a.near, value a.far, value a.count.toFloat⟩

/-- The ends are different numbers, and there are pixels between them. -/
structure IsProper (a : Axis) : Prop where
  near : a.near.isFinite
  far : a.far.isFinite
  ne : ¬a.near == a.far
  count_ne : a.count ≠ 0

/-- The ends are not next to each other: another number lies between them. -/
def IsParted (a : Axis) : Prop :=
  ∃ x : Float, x.isFinite ∧ (a.near < x ∧ x < a.far ∨ a.far < x ∧ x < a.near)

/-! ## Words as numbers -/

theorem value_toFloat_le (n : UInt64) : value n.toFloat ≤ 2 ^ 64 := by
  have hlt : (n.toNat : ℚ) < 2 ^ 64 := by exact_mod_cast n.toNat_lt
  have hpow : Representable (2 ^ 64) := by exact_mod_cast representable_zpow (e := 64) (by decide)
  rw [value_toFloat]
  exact hpow.toNearest_le hlt.le

theorem one_le_value_toFloat {n : UInt64} (h : n ≠ 0) : 1 ≤ value n.toFloat := by
  have hpos : 0 < n.toNat := Nat.pos_of_ne_zero fun hzero ↦ h (UInt64.toNat_inj.1 hzero)
  have hone : Representable 1 := by exact_mod_cast representable_natCast (n := 1) (by norm_num)
  rw [value_toFloat]
  exact hone.le_toNearest (by exact_mod_cast hpos)

theorem value_toFloat_mono {m n : UInt64} (h : m ≤ n) : value m.toFloat ≤ value n.toFloat := by
  rw [value_toFloat, value_toFloat]
  exact toNearest_mono (by exact_mod_cast h)

theorem ruler_count {a : Axis} (hcount : a.count.toNat ≤ 2 ^ 52) :
    a.ruler.count = a.count.toNat :=
  value_toFloat_of_le (hcount.trans (by norm_num))

theorem value_toFloat_of_lt {m n : UInt64} (hn : n.toNat ≤ 2 ^ 52) (h : m < n) :
    value m.toFloat = m.toNat :=
  value_toFloat_of_le (by
    have hlt := UInt64.lt_iff_toNat_lt.1 h
    omega)

theorem ruler_count_le {a : Axis} (hcount : a.count.toNat ≤ 2 ^ 52) : a.ruler.count ≤ 2 ^ 52 := by
  rw [ruler_count hcount]
  exact_mod_cast hcount

theorem add_one_le {a : Axis} {k : UInt64} (hcount : a.count.toNat ≤ 2 ^ 52) (hk : k < a.count) :
    (k.toNat : ℚ) + 1 ≤ a.ruler.count := by
  rw [ruler_count hcount]
  exact_mod_cast UInt64.lt_iff_toNat_lt.1 hk

theorem isFinite_product {a : Axis} {k : UInt64} (h : (a.coordinate k).isFinite) :
    (k.toFloat * a.step).isFinite := by
  by_contra hproduct
  exact not_isFinite_add _ hproduct h

namespace IsProper

variable {a : Axis} {k : UInt64} (h : a.IsProper)

include h

/-! ## The ruler of an axis -/

theorem count_pos : 0 < a.count.toNat :=
  Nat.pos_of_ne_zero fun hzero ↦ h.count_ne (UInt64.toNat_inj.1 hzero)

theorem ruler : a.ruler.IsProper :=
  ⟨representable_value a.near, representable_value a.far,
    fun heq ↦ h.ne ((beq_iff h.far).2 ⟨h.near, heq⟩), one_le_value_toFloat h.count_ne⟩

theorem isRounded_span : IsRounded (a.far - a.near) (value a.far - value a.near) :=
  isRounded_sub h.far h.near

theorem isRounded_step (hgap : a.gap < overflow) :
    IsRounded a.step (a.ruler.span / a.ruler.count) := by
  have hspan := h.isRounded_span.isFinite_iff.2 hgap
  have hcount := isFinite_toFloat a.count
  have hpos := one_pos.trans_le (one_le_value_toFloat h.count_ne)
  have hstep := isRounded_div hspan hcount hpos.ne'
  rwa [h.isRounded_span.value_eq hspan] at hstep

theorem isFinite_step_iff : a.step.isFinite ↔ a.gap < overflow := by
  refine ⟨fun hfinite ↦ ?_, fun hgap ↦ ?_⟩
  · by_contra hgap
    have hspan : ¬(a.far - a.near).isFinite := mt h.isRounded_span.isFinite_iff.1 hgap
    exact not_isFinite_div hspan (isFinite_toFloat a.count) hfinite
  · have hspan := h.isRounded_span.isFinite_iff.2 hgap
    have hone := h.ruler.one_le
    rw [(h.isRounded_step hgap).isFinite_iff, abs_div, abs_of_pos (one_pos.trans_le hone)]
    refine (div_le_self (abs_nonneg _) hone).trans_lt ?_
    have hlt := abs_value_lt_overflow (a.far - a.near)
    rwa [h.isRounded_span.value_eq hspan] at hlt

theorem value_step (hgap : a.gap < overflow) : value a.step = a.ruler.step :=
  (h.isRounded_step hgap).value_eq (h.isFinite_step_iff.2 hgap)

/-- A step that is no number is not zero either. -/
theorem step_beq_zero_iff : a.step == 0 ↔ a.gap < overflow ∧ a.ruler.step = 0 := by
  rw [beq_iff isFinite_zero, value_zero, h.isFinite_step_iff]
  exact and_congr_right fun hgap ↦ by rw [h.value_step hgap]

/-! ## Coordinates -/

theorem isRounded_product (hgap : a.gap < overflow) (k : UInt64) :
    IsRounded (k.toFloat * a.step) (value k.toFloat * a.ruler.step) := by
  rw [← h.value_step hgap]
  exact isRounded_mul (isFinite_toFloat k) (h.isFinite_step_iff.2 hgap)

theorem isFinite_coordinate (hgap : a.gap < overflow)
    (hreaches : a.ruler.Reaches (value k.toFloat)) : (a.coordinate k).isFinite := by
  have hproduct := h.isRounded_product hgap k
  have hfinite := hproduct.isFinite_iff.2 hreaches.product
  rw [coordinate, (isRounded_add h.near hfinite).isFinite_iff, hproduct.value_eq hfinite]
  exact hreaches.sum

theorem gap_lt_of_isFinite (hfinite : (a.coordinate k).isFinite) : a.gap < overflow := by
  rw [← h.isFinite_step_iff]
  by_contra hstep
  exact not_isFinite_mul _ hstep (isFinite_product hfinite)

/-- A coordinate that is a number lies on its mark. -/
theorem value_coordinate (hfinite : (a.coordinate k).isFinite) :
    value (a.coordinate k) = a.ruler.mark (value k.toFloat) := by
  have hproduct := h.isRounded_product (h.gap_lt_of_isFinite hfinite) k
  have hnumber := isFinite_product hfinite
  rw [coordinate, (isRounded_add h.near hnumber).value_eq hfinite, hproduct.value_eq hnumber]
  rfl

section

variable (hcount : a.count.toNat ≤ 2 ^ 52)

include hcount

/-- On an axis with not too many pixels, every coordinate is a number if the distance between the
ends is one. -/
theorem isFinite_coordinate_iff (hk : k < a.count) :
    (a.coordinate k).isFinite ↔ a.gap < overflow := by
  refine ⟨h.gap_lt_of_isFinite, fun hgap ↦ h.isFinite_coordinate hgap ?_⟩
  rw [value_toFloat_of_lt hcount hk]
  exact h.ruler.reaches (abs_value_le _) (abs_value_le _) hgap (ruler_count_le hcount)
    (add_one_le hcount hk)

theorem step_ne_zero_iff : ¬a.step == 0 ↔ a.count.toNat * (leastUnit / 2) < a.gap := by
  have hcount' := ruler_count_le hcount
  rw [← not_le, not_iff_not, h.step_beq_zero_iff, h.ruler.step_eq_zero_iff hcount',
    ← ruler_count hcount]
  refine and_iff_right_of_imp fun hle ↦ hle.trans_lt ?_
  have hunit := leastUnit_pos
  have hunits := two_pow_mul_leastUnit_le
  have hsmall : a.ruler.count * (leastUnit / 2) ≤ 2 ^ 52 * (leastUnit / 2) :=
    mul_le_mul_of_nonneg_right hcount' (half_pos hunit).le
  rw [overflow]
  linarith

/-- The first and the last pixel do not have the same coordinate, unless there are few of them and
the ends are next to each other. -/
theorem coordinate_zero_ne (hgap : a.gap < overflow) (hstep : ¬a.step == 0)
    (hfew : 4 ≤ a.count.toNat ∨ 3 ≤ a.count.toNat ∧ 2 * leastUnit ≤ |value a.step| ∨
      2 ≤ a.count.toNat ∧ a.IsParted) :
    ¬a.coordinate 0 == a.coordinate (a.count - 1) := by
  have hcount' := ruler_count hcount
  have hpos := h.count_pos
  have hlast : (a.count - 1).toNat = a.count.toNat - 1 :=
    UInt64.toNat_sub_of_le _ _ (UInt64.le_iff_toNat_le.2 hpos)
  have hlt : a.count - 1 < a.count := UInt64.lt_iff_toNat_lt.2 (by omega)
  have hfinite {k : UInt64} (hk : k < a.count) : (a.coordinate k).isFinite :=
    (h.isFinite_coordinate_iff hcount hk).2 hgap
  have hplace : ((a.count - 1).toNat : ℚ) + 1 = a.ruler.count := by
    rw [hcount', hlast]
    exact_mod_cast Nat.sub_add_cancel hpos
  rw [h.value_step hgap] at hfew
  rw [h.step_beq_zero_iff] at hstep
  rw [beq_iff (hfinite hlt)]
  rintro ⟨hzero, heq⟩
  rw [h.value_coordinate hzero, h.value_coordinate (hfinite hlt), value_toFloat_of_lt hcount hlt,
    value_toFloat_of_le (Nat.zero_le _), UInt64.toNat_zero, Nat.cast_zero, h.ruler.mark_zero] at heq
  refine h.ruler.mark_ne_near (ruler_count_le hcount) hplace (fun hzero ↦ hstep ⟨hgap, hzero⟩) ?_
    heq.symm
  rw [hcount']
  refine hfew.imp (fun hfour ↦ by exact_mod_cast hfour) (Or.imp ?_ ?_)
  · intro hthree
    exact_mod_cast hthree
  · rintro ⟨htwo, x, hx, hbetween⟩
    refine ⟨by exact_mod_cast htwo, value x, representable_value x, ?_⟩
    rwa [lt_iff h.near hx, lt_iff hx h.far, lt_iff h.far hx, lt_iff hx h.near] at hbetween

end

theorem isFinite_coordinate_of_le (hnear : |value a.near| ≤ 2 ^ 51 * greatestUnit)
    (hfar : |value a.far| ≤ 2 ^ 51 * greatestUnit) (hk : k < a.count) :
    (a.coordinate k).isFinite := by
  have hgap : a.gap < overflow := by
    have hunit := greatestUnit_pos
    rw [gap, overflow]
    exact (abs_sub _ _).trans_lt (by linarith)
  refine h.isFinite_coordinate hgap (h.ruler.reaches_of_le hnear hfar (value_toFloat_le _) ?_ ?_)
  · rw [value_toFloat]
    exact toNearest_nonneg (Nat.cast_nonneg _)
  · exact value_toFloat_mono (UInt64.le_of_lt hk)

theorem step_ne_zero (hgap : 2 ^ 64 * leastUnit ≤ a.gap) : ¬a.step == 0 := by
  rw [h.step_beq_zero_iff]
  exact fun hzero ↦ h.ruler.step_ne_zero (value_toFloat_le _) hgap hzero.2

end IsProper

/-- How far the pixels of an axis have coordinates of their own. -/
structure Separates (a : Axis) : Prop where
  /-- With not too many pixels there is a step if the ends are farther from each other than half of
  the least unit for each. -/
  step_ne_zero_iff : a.count.toNat ≤ 2 ^ 52 →
    (¬a.step == 0 ↔ a.count.toNat * (leastUnit / 2) < a.gap)
  /-- With any number of pixels there is a step if the ends are not too near to each other. -/
  step_ne_zero : 2 ^ 64 * leastUnit ≤ a.gap → ¬a.step == 0
  /-- If there is a step, the first and the last of four pixels or more do not have the same
  coordinate. Neither do those of three, unless the step is the least there is, nor those of two or
  three, unless the ends are next to each other. -/
  ends_ne : a.count.toNat ≤ 2 ^ 52 → a.gap < overflow → ¬a.step == 0 →
    (4 ≤ a.count.toNat ∨ 3 ≤ a.count.toNat ∧ 2 * leastUnit ≤ |value a.step| ∨
      2 ≤ a.count.toNat ∧ a.IsParted) →
    ¬a.coordinate 0 == a.coordinate (a.count - 1)

theorem IsProper.separates {a : Axis} (h : a.IsProper) : a.Separates :=
  ⟨h.step_ne_zero_iff, h.step_ne_zero, h.coordinate_zero_ne⟩

end Axis

/-! ## Planes -/

namespace Plane

/-- The axis that the columns lie on, from the left. -/
def across (p : Plane) : Axis := ⟨p.window.left, p.window.right, p.width⟩

/-- The axis that the rows lie on, from the top. -/
def down (p : Plane) : Axis := ⟨p.window.top, p.window.bottom, p.height⟩

variable {width height : UInt64} {window : Window} {plane : Plane}

theorem isProper_of_make (h : Plane.make width height window = .ok plane) :
    plane.across.IsProper ∧ plane.down.IsProper := by
  obtain ⟨⟨⟨hleft, hright, hbottom, htop⟩, hx, hy⟩, hwidth, hheight, rfl⟩ := make_eq_ok_iff.1 h
  refine ⟨⟨hleft, hright, hx, hwidth⟩, ⟨htop, hbottom, fun heq ↦ hy ?_, hheight⟩⟩
  rw [beq_iff htop]
  exact ⟨hbottom, (((beq_iff hbottom).1 heq).2).symm⟩

theorem point_of_make (h : Plane.make width height window = .ok plane) (q : Pixel) :
    plane.point q = ⟨plane.across.coordinate q.x, plane.down.coordinate q.y⟩ := by
  obtain ⟨-, -, -, rfl⟩ := make_eq_ok_iff.1 h
  rfl

theorem step_of_make (h : Plane.make width height window = .ok plane) :
    plane.stepX = plane.across.step ∧ plane.stepY = plane.down.step := by
  obtain ⟨-, -, -, rfl⟩ := make_eq_ok_iff.1 h
  exact ⟨rfl, rfl⟩

theorem isFinite_point_of_make (h : Plane.make width height window = .ok plane)
    (hedges : ∀ x ∈ [plane.window.left, plane.window.right, plane.window.bottom, plane.window.top],
      |value x| ≤ 2 ^ 51 * greatestUnit)
    {q : Pixel} (hx : q.x < plane.width) (hy : q.y < plane.height) :
    (plane.point q).re.isFinite ∧ (plane.point q).im.isFinite := by
  obtain ⟨hacross, hdown⟩ := isProper_of_make h
  have hleft := hedges plane.window.left (by simp)
  have hright := hedges plane.window.right (by simp)
  have hbottom := hedges plane.window.bottom (by simp)
  have htop := hedges plane.window.top (by simp)
  rw [point_of_make h]
  exact ⟨hacross.isFinite_coordinate_of_le hleft hright hx,
    hdown.isFinite_coordinate_of_le htop hbottom hy⟩

/-- The limits within which a plane can be used. -/
structure Limits (p : Plane) : Prop where
  point_eq : ∀ q, p.point q = ⟨p.across.coordinate q.x, p.down.coordinate q.y⟩
  step_eq : p.stepX = p.across.step ∧ p.stepY = p.down.step
  /-- With not too many pixels, there is a point for each if opposite edges are not too far from
  each other. -/
  isFinite_iff : p.width.toNat ≤ 2 ^ 52 → p.height.toNat ≤ 2 ^ 52 →
    ((∀ q : Pixel, q.x < p.width → q.y < p.height →
        (p.point q).re.isFinite ∧ (p.point q).im.isFinite) ↔
      p.across.gap < overflow ∧ p.down.gap < overflow)
  /-- With any number of pixels, there is a point for each if no edge is too far from zero. -/
  isFinite_of_le : (∀ x ∈ [p.window.left, p.window.right, p.window.bottom, p.window.top],
      |value x| ≤ 2 ^ 51 * greatestUnit) →
    ∀ q : Pixel, q.x < p.width → q.y < p.height →
      (p.point q).re.isFinite ∧ (p.point q).im.isFinite
  /-- The points of different columns are not all the same, -/
  across : p.across.Separates
  /-- nor are those of different rows. -/
  down : p.down.Separates

/-- **The limits of a plane.** Whichever window with a shape a plane is made from, and however many
pixels it has, how far its opposite edges are from each other decides whether its pixels have points
and whether there is a step from each of them to the next. -/
theorem limits_of_make (h : Plane.make width height window = .ok plane) : plane.Limits := by
  obtain ⟨hacross, hdown⟩ := isProper_of_make h
  have hpoint := point_of_make h
  refine ⟨hpoint, step_of_make h, fun hwidth hheight ↦ ⟨fun hfinite ↦ ?_, fun hgaps q hx hy ↦ ?_⟩,
    fun hedges q hx hy ↦ isFinite_point_of_make h hedges hx hy, hacross.separates, hdown.separates⟩
  · have hfirst := hfinite ⟨0, 0⟩ (UInt64.pos_iff_ne_zero.2 hacross.count_ne)
      (UInt64.pos_iff_ne_zero.2 hdown.count_ne)
    rw [hpoint] at hfirst
    exact ⟨hacross.gap_lt_of_isFinite hfirst.1, hdown.gap_lt_of_isFinite hfirst.2⟩
  · rw [hpoint]
    exact ⟨(hacross.isFinite_coordinate_iff hwidth hx).2 hgaps.1,
      (hdown.isFinite_coordinate_iff hheight hy).2 hgaps.2⟩

/-- Over the square around zero. -/
theorem limits_of_make_of_square :
    ∃ plane, Plane.make 10 10 ⟨-2, 2, -2, 2⟩ = .ok plane ∧
      (∀ q : Pixel, q.x < 10 → q.y < 10 →
        (plane.point q).re.isFinite ∧ (plane.point q).im.isFinite) ∧
      ¬plane.stepX == 0 ∧ ¬plane.stepY == 0 ∧
      ¬(plane.point ⟨0, 0⟩).re == (plane.point ⟨9, 0⟩).re := by
  have hmake : Plane.make 10 10 ⟨-2, 2, -2, 2⟩ =
      .ok ⟨10, 10, ⟨-2, 2, -2, 2⟩, 0.4, -0.4⟩ := by
    decide +kernel
  have hgap : |value 2 - value (-2)| = 4 ∧ |value (-2) - value 2| = 4 := by
    decide +kernel
  have hfits : 4 < overflow := by
    have hunit := two_pow_le_greatestUnit
    rw [overflow]
    linarith
  have hlong : 2 ^ 64 * leastUnit ≤ 4 := by
    rw [two_pow_mul_leastUnit]
    exact (zpow_le_one_of_nonpos₀ one_le_two (by decide)).trans (by norm_num)
  have hlimits := limits_of_make hmake
  have hstepX := hlimits.across.step_ne_zero (hlong.trans_eq hgap.1.symm)
  have hstepY := hlimits.down.step_ne_zero (hlong.trans_eq hgap.2.symm)
  refine ⟨_, hmake, (hlimits.isFinite_iff (by decide) (by decide)).2 ⟨?_, ?_⟩, ?_, ?_, ?_⟩
  · exact hgap.1.trans_lt hfits
  · exact hgap.2.trans_lt hfits
  · rwa [hlimits.step_eq.1]
  · rwa [hlimits.step_eq.2]
  · rw [hlimits.point_eq, hlimits.point_eq]
    exact hlimits.across.ends_ne (by decide) (hgap.1.trans_lt hfits) hstepX (.inl (by decide))

/-- Planes that cannot be used, though they are made. If the edges are too far from each other, the
first pixel has no point; if they are too near to each other, there is no step; and even if there is
one, all columns may have one point, though not if there are four or more. With very many columns
the last of them has no point, though there is a step. -/
theorem exists_make_useless :
    (∃ plane, Plane.make 4 4 ⟨-1.7e308, 1.7e308, -2, 2⟩ = .ok plane ∧
      ¬(plane.point ⟨0, 0⟩).re.isFinite) ∧
    (∃ plane, Plane.make 2 2 ⟨0, 5e-324, -2, 2⟩ = .ok plane ∧ plane.stepX == 0 ∧
      plane.point ⟨0, 0⟩ = plane.point ⟨1, 0⟩) ∧
    (∃ plane, Plane.make 2 2 ⟨1, 1.0000000000000002, -2, 2⟩ = .ok plane ∧ ¬plane.stepX == 0 ∧
      plane.point ⟨0, 0⟩ = plane.point ⟨1, 0⟩) ∧
    (∃ plane, Plane.make 3 3 ⟨8.900295434028806e-308, 8.900295434028808e-308, -3, 3⟩ = .ok plane ∧
      ¬plane.stepX == 0 ∧ plane.point ⟨0, 0⟩ = plane.point ⟨1, 0⟩ ∧
      plane.point ⟨1, 0⟩ = plane.point ⟨2, 0⟩) ∧
    ∃ plane, Plane.make 4503599761588226 2
        ⟨8.988465372949779e307, 1.7976931348623157e308, -2, 2⟩ = .ok plane ∧
      plane.stepX.isFinite ∧ ¬(plane.point ⟨4503599761588225, 0⟩).re.isFinite := by
  refine ⟨⟨⟨4, 4, ⟨-1.7e308, 1.7e308, -2, 2⟩, 1 / 0, -1⟩, ?_, ?_⟩,
    ⟨⟨2, 2, ⟨0, 5e-324, -2, 2⟩, 0, -2⟩, ?_, ?_, ?_⟩,
    ⟨⟨2, 2, ⟨1, 1.0000000000000002, -2, 2⟩, 1.1102230246251565e-16, -2⟩, ?_, ?_, ?_⟩,
    ⟨⟨3, 3, ⟨8.900295434028806e-308, 8.900295434028808e-308, -3, 3⟩, 5e-324, -2⟩, ?_, ?_, ?_, ?_⟩,
    ⟨4503599761588226, 2, ⟨8.988465372949779e307, 1.7976931348623157e308, -2, 2⟩,
      1.9958403169698044e292, -2⟩, ?_, ?_, ?_⟩
  all_goals decide +kernel

end Plane

end OrbitPlot
