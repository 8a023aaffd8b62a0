import OrbitPlot.Proofs.Float.Rounding

/-!
# Rulers

An axis of a plane computes with doubles: how far it spans, how long one of its steps is, and where
each of its marks lies. Here the same is done with rational numbers, each result being rounded to
the nearest double as if there were no largest one, so that what is lost can be added up.

A step that is not small is wrong by one part in `2 ^ 53` at most, and so is everything that is
computed from it. A step that is small may be wrong by half its length. But then the whole ruler is
small, unless it has very many marks.

## Main statements

* `Ruler.Rises.offset_le`: marks lie within the ruler, but for small steps.
* `Ruler.Rises.step_eq_zero_iff`: when there is no step at all.
* `Ruler.Rises.mark_ne_near`: not all marks lie on the first.
* `Ruler.Rises.abs_back_sub_lt`: what is lost on the way to a mark and back.
-/

namespace OrbitPlot

open Double

/-- A ruler between two numbers, divided into some number of steps. -/
structure Ruler where
  /-- Where it begins. -/
  near : ℚ
  /-- Where it ends. -/
  far : ℚ
  /-- How many steps there are. -/
  count : ℚ

namespace Ruler

/-- The way from the beginning to the end. -/
def span (r : Ruler) : ℚ := toNearest (r.far - r.near)

/-- The length of a step. -/
def step (r : Ruler) : ℚ := toNearest (r.span / r.count)

/-- The way from the beginning to a mark. -/
def offset (r : Ruler) (k : ℚ) : ℚ := toNearest (k * r.step)

/-- Where a mark lies. -/
def mark (r : Ruler) (k : ℚ) : ℚ := toNearest (r.near + r.offset k)

/-- The way from the beginning to a mark, by where the mark lies. -/
def way (r : Ruler) (k : ℚ) : ℚ := toNearest (r.mark k - r.near)

/-- How many steps this way has. -/
def back (r : Ruler) (k : ℚ) : ℚ := toNearest (r.way k / r.step)

/-- The ruler on the other side of zero. -/
def mirror (r : Ruler) : Ruler := ⟨-r.near, -r.far, r.count⟩

section

variable (r : Ruler) (k : ℚ)

theorem span_mirror : r.mirror.span = -r.span := by
  rw [span, span, ← toNearest_neg, mirror]
  congr 1
  ring

theorem step_mirror : r.mirror.step = -r.step := by
  rw [step, step, span_mirror, neg_div, toNearest_neg, mirror]

theorem offset_mirror : r.mirror.offset k = -r.offset k := by
  rw [offset, offset, step_mirror, mul_neg, toNearest_neg]

theorem mark_mirror : r.mirror.mark k = -r.mark k := by
  rw [mark, mark, offset_mirror, ← toNearest_neg, neg_add, mirror]

theorem way_mirror : r.mirror.way k = -r.way k := by
  rw [way, way, mark_mirror, ← toNearest_neg, mirror]
  congr 1
  ring

theorem back_mirror : r.mirror.back k = r.back k := by
  rw [back, back, way_mirror, step_mirror, neg_div_neg_eq]

end

/-- What is lost in one step is lost in all of them. -/
theorem abs_count_mul_step_sub_le {r : Ruler} {e : ℚ} (hcount : 0 < r.count)
    (h : |r.step - r.span / r.count| ≤ r.span / r.count / 2 ^ 53 + e) :
    |r.count * r.step - r.span| ≤ r.span / 2 ^ 53 + r.count * e := by
  calc |r.count * r.step - r.span|
    _ = r.count * |r.step - r.span / r.count| := by
      rw [← abs_of_pos hcount, ← abs_mul, abs_of_pos hcount, mul_sub, mul_div_cancel₀ _ hcount.ne']
    _ ≤ r.count * (r.span / r.count / 2 ^ 53 + e) := mul_le_mul_of_nonneg_left h hcount.le
    _ = r.span / 2 ^ 53 + r.count * e := by
      rw [mul_add, ← mul_div_assoc, mul_div_cancel₀ _ hcount.ne']

theorem isGrid_mul_step (r : Ruler) (k : ℕ) : IsGrid (k * r.step) :=
  (representable_toNearest _).isGrid.natCast_mul k

/-- The ends of a ruler are doubles, and it leads upwards. -/
structure Rises (r : Ruler) : Prop where
  near : Representable r.near
  far : Representable r.far
  lt : r.near < r.far
  one_le : 1 ≤ r.count

/-- Neither the place of a mark nor the way to it is too large for a double. -/
structure Reaches (r : Ruler) (k : ℚ) : Prop where
  product : |k * r.step| < overflow
  sum : |r.near + r.offset k| < overflow

/-- The ends of a ruler are not too far from zero for the length of its steps. -/
structure Resolved (r : Ruler) : Prop where
  step_ne : r.step ≠ 0
  near_le : |r.near| ≤ 2 ^ 48 * |r.step|
  far_le : |r.far| ≤ 2 ^ 48 * |r.step|

theorem back_eq {r : Ruler} {k : ℕ} (hstep : r.step ≠ 0) (hk : k ≤ 2 ^ 53)
    (hoffset : r.offset k = k * r.step) (hmark : r.mark k = r.near + k * r.step) :
    r.back k = k := by
  have hway : r.way k = k * r.step := by
    rw [way, hmark, add_sub_cancel_left, ← offset, hoffset]
  rw [back, hway, mul_div_cancel_right₀ _ hstep, (representable_natCast hk).toNearest_eq]

namespace Rises

variable {r : Ruler} {k : ℕ} (h : r.Rises)

include h

/-! ## Steps -/

theorem count_pos : 0 < r.count := one_pos.trans_le h.one_le

theorem isGrid_gap : IsGrid (r.far - r.near) := h.far.isGrid.sub h.near.isGrid

theorem abs_span_sub_le : |r.span - (r.far - r.near)| ≤ (r.far - r.near) / 2 ^ 53 := by
  have hloss := h.isGrid_gap.abs_toNearest_sub_le
  rwa [abs_of_pos (sub_pos.2 h.lt)] at hloss

theorem span_nonneg : 0 ≤ r.span := toNearest_nonneg (sub_nonneg.2 h.lt.le)

theorem ratio_nonneg : 0 ≤ r.span / r.count := div_nonneg h.span_nonneg h.count_pos.le

theorem step_nonneg : 0 ≤ r.step := toNearest_nonneg h.ratio_nonneg

theorem abs_step_sub_le :
    |r.step - r.span / r.count| ≤ r.span / r.count / 2 ^ 53 + leastUnit / 2 := by
  have hloss := abs_toNearest_sub_le (r.span / r.count)
  rwa [abs_of_nonneg h.ratio_nonneg] at hloss

theorem step_eq_zero_iff (hcount : r.count ≤ 2 ^ 52) :
    r.step = 0 ↔ r.far - r.near ≤ r.count * (leastUnit / 2) := by
  have hpos := h.count_pos
  have hgap := sub_pos.2 h.lt
  rw [step, toNearest_eq_zero_iff, abs_of_nonneg h.ratio_nonneg, div_le_iff₀ hpos, mul_comm]
  rcases le_total (r.far - r.near) (2 ^ 53 * leastUnit) with hle | hle
  -- nothing is lost of a short way
  · have hspan : r.span = r.far - r.near := by
      refine (h.isGrid_gap.representable ?_).toNearest_eq
      rwa [abs_of_pos hgap]
    rw [hspan]
  -- and a long way is long enough
  · have hlong : 2 ^ 53 * leastUnit ≤ r.span := (representable_two_pow_mul 53).le_toNearest hle
    have hshort : r.count * (leastUnit / 2) ≤ 2 ^ 52 * (leastUnit / 2) :=
      mul_le_mul_of_nonneg_right hcount (half_pos leastUnit_pos).le
    have hunit := leastUnit_pos
    exact iff_of_false (by linarith) (by linarith)

theorem step_ne_zero (hcount : r.count ≤ 2 ^ 64) (hgap : 2 ^ 64 * leastUnit ≤ r.far - r.near) :
    r.step ≠ 0 := by
  have hlong : 2 ^ 64 * leastUnit ≤ r.span := (representable_two_pow_mul 64).le_toNearest hgap
  have hunit := leastUnit_pos
  rw [step, Ne, toNearest_eq_zero_iff, abs_of_nonneg h.ratio_nonneg, div_le_iff₀ h.count_pos]
  have hshort : leastUnit / 2 * r.count ≤ leastUnit / 2 * 2 ^ 64 :=
    mul_le_mul_of_nonneg_left hcount (half_pos hunit).le
  linarith

/-! ## Marks -/

theorem mul_step_nonneg : 0 ≤ k * r.step := mul_nonneg k.cast_nonneg h.step_nonneg

theorem offset_nonneg : 0 ≤ r.offset k := toNearest_nonneg h.mul_step_nonneg

theorem abs_offset_sub_le : |r.offset k - k * r.step| ≤ k * r.step / 2 ^ 53 := by
  have hloss := (r.isGrid_mul_step k).abs_toNearest_sub_le
  rwa [abs_of_nonneg h.mul_step_nonneg] at hloss

/-- A mark lies within the ruler, unless the steps are so small that the ruler is small. -/
theorem offset_le (hcount : r.count ≤ 2 ^ 52) (hk : k + 1 ≤ r.count) :
    r.offset k ≤ r.far - r.near ∨ r.offset k ≤ 2 ^ 104 * leastUnit := by
  have hstep := h.step_nonneg
  rcases le_or_gt (2 ^ 52 * leastUnit) (r.span / r.count) with hnormal | hsmall
  · left
    have hratio : |r.step - r.span / r.count| ≤ r.span / r.count / 2 ^ 53 + 0 := by
      have hloss := abs_toNearest_sub_le_of_le (hnormal.trans (le_abs_self _))
      rwa [abs_of_nonneg h.ratio_nonneg, ← add_zero (_ / 2 ^ 53)] at hloss
    have hspan := abs_le.1 h.abs_span_sub_le
    have hall := abs_le.1 (abs_count_mul_step_sub_le h.count_pos hratio)
    have hoffset := abs_le.1 (h.abs_offset_sub_le (k := k))
    have hmul : (k + 1) * r.step ≤ r.count * r.step := mul_le_mul_of_nonneg_right hk hstep
    -- leaving out the last step makes up for what is lost in the others
    have hlast : r.count * r.step ≤ 2 ^ 52 * r.step := mul_le_mul_of_nonneg_right hcount hstep
    have hwithin : k * r.step ≤ r.far - r.near := by linarith
    have hmono : r.offset k ≤ r.span := toNearest_mono hwithin
    by_contra hlt
    have hlt := lt_of_not_ge hlt
    -- beyond the end, the way to the mark could only be the way to the end, but it is shorter
    have hnearest : |r.span - (r.far - r.near)| ≤ |r.offset k - (r.far - r.near)| :=
      abs_toNearest_sub_le_of_representable _ (representable_toNearest _)
    rw [abs_of_nonneg (by linarith), abs_of_nonneg (by linarith)] at hnearest
    have hgap := h.lt
    linarith
  · right
    have hshort : r.step ≤ 2 ^ 52 * leastUnit :=
      (representable_two_pow_mul 52).toNearest_le hsmall.le
    refine (representable_two_pow_mul 104).toNearest_le ?_
    calc (k : ℚ) * r.step
      _ ≤ 2 ^ 52 * (2 ^ 52 * leastUnit) :=
        mul_le_mul (by linarith) hshort hstep (by norm_num)
      _ = 2 ^ 104 * leastUnit := by ring

theorem near_le_mark : r.near ≤ r.mark k :=
  h.near.le_toNearest (le_add_of_nonneg_right h.offset_nonneg)

theorem reaches (hnear : |r.near| ≤ greatest) (hfar : |r.far| ≤ greatest)
    (hgap : r.far - r.near < overflow) (hcount : r.count ≤ 2 ^ 52) (hk : k + 1 ≤ r.count) :
    r.Reaches k := by
  have hunit := leastUnit_pos
  have hunits := two_pow_mul_leastUnit_le
  have hnear := abs_le.1 hnear
  have hfar := abs_le.1 hfar
  have hnonneg : 0 ≤ r.offset k := h.offset_nonneg
  rw [greatest] at hnear hfar
  rw [overflow] at hgap
  refine ⟨?_, ?_⟩
  · rw [← abs_toNearest_lt_iff, ← offset, abs_of_nonneg hnonneg]
    rcases h.offset_le hcount hk with hle | hle <;> linarith
  · rw [overflow]
    rcases h.offset_le hcount hk with hle | hle <;>
      exact abs_lt.2 ⟨by linarith, by linarith⟩

theorem mark_sub_near_lt (hgap : r.far - r.near < overflow) (hcount : r.count ≤ 2 ^ 52)
    (hk : k + 1 ≤ r.count) : r.mark k - r.near < overflow := by
  rcases h.offset_le hcount hk with hle | hle
  · have hmark : r.mark k ≤ r.far := h.far.toNearest_le (by linarith)
    linarith
  -- the beginning is not nearer to where the mark should lie than the mark itself
  · have hnearest := abs_toNearest_sub_le_of_representable (r.near + r.offset k) h.near
    have hunit := leastUnit_pos
    have hunits := two_pow_mul_leastUnit_le
    rw [sub_add_cancel_left, abs_neg, abs_of_nonneg h.offset_nonneg, ← mark] at hnearest
    have hmark := (abs_le.1 hnearest).2
    rw [overflow]
    linarith

theorem reaches_of_le {q : ℚ} (hnear : |r.near| ≤ 2 ^ 51 * greatestUnit)
    (hfar : |r.far| ≤ 2 ^ 51 * greatestUnit) (hcount : r.count ≤ 2 ^ 64) (hq : 0 ≤ q)
    (hle : q ≤ r.count) : r.Reaches q := by
  have hunit := leastUnit_pos
  have hunits := two_pow_mul_leastUnit_le
  have hnear := abs_le.1 hnear
  have hfar := abs_le.1 hfar
  have hspan := abs_le.1 h.abs_span_sub_le
  have hall := abs_le.1 (abs_count_mul_step_sub_le h.count_pos h.abs_step_sub_le)
  have hsmall : r.count * (leastUnit / 2) ≤ 2 ^ 64 * (leastUnit / 2) :=
    mul_le_mul_of_nonneg_right hcount (half_pos hunit).le
  have hnonneg : 0 ≤ q * r.step := mul_nonneg hq h.step_nonneg
  have hmul : q * r.step ≤ r.count * r.step := mul_le_mul_of_nonneg_right hle h.step_nonneg
  have hoffset : |r.offset q - q * r.step| ≤ |q * r.step| / 2 ^ 53 + leastUnit / 2 :=
    abs_toNearest_sub_le _
  rw [abs_of_nonneg hnonneg] at hoffset
  have hoffset := abs_le.1 hoffset
  refine ⟨?_, ?_⟩ <;> rw [overflow] <;> exact abs_lt.2 ⟨by linarith, by linarith⟩

/-! ## Marks that are told apart -/

/-- If a mark lies at the beginning, no double is nearer to the beginning than twice the way to where
the mark should lie. -/
theorem two_mul_offset_le {w : ℚ} (hmark : r.mark k = r.near) (hw : Representable w)
    (hlt : r.near < w) : 2 * r.offset k ≤ w - r.near := by
  have hnearest := abs_toNearest_sub_le_of_representable (r.near + r.offset k) hw
  rw [← mark, hmark, sub_add_cancel_left, abs_neg, abs_of_nonneg h.offset_nonneg] at hnearest
  rcases abs_cases (w - (r.near + r.offset k)) with ⟨habs, -⟩ | ⟨habs, -⟩ <;> linarith

theorem leastUnit_le_step (hstep : r.step ≠ 0) : leastUnit ≤ r.step :=
  (representable_toNearest _).isGrid.le_of_pos (lt_of_le_of_ne h.step_nonneg hstep.symm)

theorem gap_lt_of_step_lt (hcount : r.count ≤ 2 ^ 52) (hstep : r.step < 2 * leastUnit) :
    r.far - r.near < r.count * (3 / 2 * leastUnit) := by
  have hunit := leastUnit_pos
  have hratio : r.span / r.count < 3 / 2 * leastUnit := by
    by_contra hle
    rw [← toNearest_three_halves_leastUnit] at hstep
    exact hstep.not_ge (toNearest_mono (le_of_not_gt hle))
  rw [div_lt_iff₀ h.count_pos, mul_comm] at hratio
  have hmost : r.count * (3 / 2 * leastUnit) ≤ 2 ^ 52 * (3 / 2 * leastUnit) :=
    mul_le_mul_of_nonneg_right hcount (by linarith)
  -- so short a way is known exactly
  have hshort : r.far - r.near ≤ 2 ^ 53 * leastUnit := by
    by_contra hlong
    have hspan : 2 ^ 53 * leastUnit ≤ r.span :=
      (representable_two_pow_mul 53).le_toNearest (le_of_not_ge hlong)
    linarith
  have hspan : r.span = r.far - r.near := by
    refine (h.isGrid_gap.representable ?_).toNearest_eq
    rwa [abs_of_pos (sub_pos.2 h.lt)]
  rwa [hspan] at hratio

theorem mul_leastUnit_le_offset (hcount : r.count ≤ 2 ^ 52) (hk : k + 1 = r.count)
    (hstep : r.step ≠ 0) : k * leastUnit ≤ r.offset k := by
  have hplace : k ≤ 2 ^ 53 := by
    have hle : (k : ℚ) ≤ 2 ^ 53 := by linarith
    exact_mod_cast hle
  refine (representable_natCast_mul hplace le_rfl).le_toNearest ?_
  exact mul_le_mul_of_nonneg_left (h.leastUnit_le_step hstep) k.cast_nonneg

theorem mark_one_ne_near {w : ℚ} (hk : 2 = r.count) (hstep : 2 * leastUnit ≤ r.step)
    (hw : Representable w) (hnear : r.near < w) (hfar : w < r.far) :
    r.mark (1 : ℕ) ≠ r.near := by
  intro hmark
  have hunit := leastUnit_pos
  have hlow := h.two_mul_offset_le hmark hw hnear
  have hnonneg : 0 ≤ r.offset (1 : ℕ) := h.offset_nonneg
  have hspan := abs_le.1 h.abs_span_sub_le
  have hall := abs_le.1 (abs_count_mul_step_sub_le h.count_pos h.abs_step_sub_le)
  have hoffset := abs_le.1 (h.abs_offset_sub_le (k := 1))
  -- the beginning is far from zero, as otherwise the mark would not lie there,
  have hloss : |r.mark (1 : ℕ) - (r.near + r.offset (1 : ℕ))| ≤
      |r.near + r.offset (1 : ℕ)| / 2 ^ 53 :=
    (h.near.isGrid.add (representable_toNearest _).isGrid).abs_toNearest_sub_le
  rw [hmark, sub_add_cancel_left, abs_neg, abs_of_nonneg hnonneg] at hloss
  -- but doubles that are far from zero are not near to each other
  have hrest := hw.abs_le_mul_abs_sub h.far hfar.ne
  rw [abs_sub_comm, abs_of_pos (sub_pos.2 hfar)] at hrest
  have hway := abs_sub_abs_le_abs_sub (r.near + r.offset (1 : ℕ)) w
  have hdistance : |r.near + r.offset (1 : ℕ) - w| = w - (r.near + r.offset (1 : ℕ)) := by
    rw [abs_sub_comm, abs_of_nonneg (by linarith)]
  rw [← hk] at hall
  rw [Nat.cast_one, one_mul] at hoffset
  rw [hdistance] at hway
  rw [Nat.cast_one] at hlow hloss hway
  linarith

theorem mark_ne_near_of_step_lt {w : ℚ} (hcount : r.count ≤ 2 ^ 52) (hk : k + 1 = r.count)
    (hone : 1 ≤ k) (hstep : r.step ≠ 0) (hsmall : r.step < 2 * leastUnit) (hw : Representable w)
    (hnear : r.near < w) (hfar : w < r.far) : r.mark k ≠ r.near := by
  intro hmark
  have hunit := leastUnit_pos
  have hone : (1 : ℚ) ≤ k := by exact_mod_cast hone
  have hlow := h.two_mul_offset_le hmark hw hnear
  have hgap := h.gap_lt_of_step_lt hcount hsmall
  have hoffset := h.mul_leastUnit_le_offset hcount hk hstep
  have hrest : leastUnit ≤ r.far - w := (h.far.isGrid.sub hw.isGrid).le_of_pos (sub_pos.2 hfar)
  have hmul : leastUnit ≤ k * leastUnit := le_mul_of_one_le_left hunit.le hone
  rw [← hk] at hgap
  linarith

theorem gap_lt_two_mul_offset (hcount : r.count ≤ 2 ^ 52) (hk : k + 1 = r.count)
    (hstep : r.step ≠ 0) (hfew : 4 ≤ r.count ∨ 3 ≤ r.count ∧ 2 * leastUnit ≤ r.step) :
    r.far - r.near < 2 * r.offset k := by
  have hunit := leastUnit_pos
  have hpos := h.count_pos
  have hthree : 3 ≤ r.count := by
    rcases hfew with hfew | ⟨hfew, -⟩ <;> linarith
  rcases lt_or_ge r.step (2 * leastUnit) with hshort | hlong
  · have hfour : 4 ≤ r.count := hfew.resolve_right fun hnormal ↦ hshort.not_ge hnormal.2
    have hgap := h.gap_lt_of_step_lt hcount hshort
    have hoffset := h.mul_leastUnit_le_offset hcount hk hstep
    have hmul : (k + 1) * leastUnit = r.count * leastUnit := by rw [hk]
    have hall : 4 * leastUnit ≤ r.count * leastUnit := mul_le_mul_of_nonneg_right hfour hunit.le
    linarith
  · have hspan := abs_le.1 h.abs_span_sub_le
    have hall := abs_le.1 (abs_count_mul_step_sub_le hpos h.abs_step_sub_le)
    have hoffset := abs_le.1 (h.abs_offset_sub_le (k := k))
    have hmul : (k + 1) * r.step = r.count * r.step := by rw [hk]
    have hsmall : r.count * (leastUnit / 2) ≤ r.count * (r.step / 4) :=
      mul_le_mul_of_nonneg_left (by linarith) hpos.le
    have hsteps : 3 * r.step ≤ r.count * r.step := mul_le_mul_of_nonneg_right hthree h.step_nonneg
    have hgap := h.lt
    linarith

/-- The last mark does not lie on the first, unless there are few steps and they are small, or there
are hardly any and no double lies between the ends. -/
theorem mark_ne_near (hcount : r.count ≤ 2 ^ 52) (hk : k + 1 = r.count) (hstep : r.step ≠ 0)
    (hfew : 4 ≤ r.count ∨ 3 ≤ r.count ∧ 2 * leastUnit ≤ r.step ∨
      2 ≤ r.count ∧ ∃ w, Representable w ∧ r.near < w ∧ w < r.far) : r.mark k ≠ r.near := by
  have hmany (hfew : 4 ≤ r.count ∨ 3 ≤ r.count ∧ 2 * leastUnit ≤ r.step) : r.mark k ≠ r.near := by
    intro hmark
    have hfar := h.two_mul_offset_le hmark h.far h.lt
    exact hfar.not_gt (h.gap_lt_two_mul_offset hcount hk hstep hfew)
  rcases hfew with hfew | hfew | ⟨htwo, w, hw, hnear, hfar⟩
  · exact hmany (.inl hfew)
  · exact hmany (.inr hfew)
  · have hone : 1 ≤ k := by
      have hle : (1 : ℚ) ≤ k := by linarith
      exact_mod_cast hle
    by_cases hsmall : r.step < 2 * leastUnit
    · exact h.mark_ne_near_of_step_lt hcount hk hone hstep hsmall hw hnear hfar
    · have hlong := le_of_not_gt hsmall
      rcases hone.eq_or_lt with rfl | hmore
      · rw [Nat.cast_one, one_add_one_eq_two] at hk
        exact h.mark_one_ne_near hk hlong hw hnear hfar
      · have hle : (2 : ℚ) ≤ k := by exact_mod_cast hmore
        exact hmany (.inr ⟨by linarith, hlong⟩)

/-! ## The way back -/

section

variable (hr : r.Resolved)

include hr

theorem step_pos : 0 < r.step := lt_of_le_of_ne h.step_nonneg hr.step_ne.symm

theorem abs_near_le : |r.near| ≤ 2 ^ 48 * r.step := by
  have hnear := hr.near_le
  rwa [abs_of_nonneg h.step_nonneg] at hnear

theorem count_le : r.count ≤ 2 ^ 50 + 1 := by
  have hpos := h.count_pos
  have hstep := h.step_pos hr
  have hunit : leastUnit ≤ r.step := (representable_toNearest _).isGrid.le_of_pos hstep
  have hsmall : r.count * (leastUnit / 2) ≤ r.count * (r.step / 2) :=
    mul_le_mul_of_nonneg_left (by linarith) hpos.le
  have hnear := abs_le.1 (h.abs_near_le hr)
  have hfar := abs_le.1 hr.far_le
  rw [abs_of_pos hstep] at hfar
  have hspan := abs_le.1 h.abs_span_sub_le
  have hall := abs_le.1 (abs_count_mul_step_sub_le hpos h.abs_step_sub_le)
  refine le_of_mul_le_mul_right ?_ hstep
  linarith

theorem le_two_pow (hk : k + 1 ≤ r.count) : (k : ℚ) ≤ 2 ^ 50 := by
  linarith [h.count_le hr]

theorem abs_way_sub_le (hk : k + 1 ≤ r.count) : |r.way k - k * r.step| ≤ r.step / 2 := by
  have hmul : k * r.step ≤ 2 ^ 50 * r.step :=
    mul_le_mul_of_nonneg_right (h.le_two_pow hr hk) h.step_nonneg
  have hnonneg : 0 ≤ k * r.step := h.mul_step_nonneg
  have hnear := abs_le.1 (h.abs_near_le hr)
  -- a part of a step is lost on the way to the mark,
  have hoffset := abs_le.1 (h.abs_offset_sub_le (k := k))
  -- another at the mark,
  have hlies : |r.near + r.offset k| ≤ (2 ^ 50 + 2 ^ 49) * r.step :=
    abs_le.2 ⟨by linarith, by linarith⟩
  have hmark : |r.mark k - (r.near + r.offset k)| ≤ |r.near + r.offset k| / 2 ^ 53 :=
    (h.near.isGrid.add (representable_toNearest _).isGrid).abs_toNearest_sub_le
  have hmark := abs_le.1 hmark
  -- and another on the way back
  have hlong : |r.mark k - r.near| ≤ (2 ^ 50 + 1) * r.step :=
    abs_le.2 ⟨by linarith, by linarith⟩
  have hway : |r.way k - (r.mark k - r.near)| ≤ |r.mark k - r.near| / 2 ^ 53 :=
    ((representable_toNearest _).isGrid.sub h.near.isGrid).abs_toNearest_sub_le
  have hway := abs_le.1 hway
  exact abs_le.2 ⟨by linarith, by linarith⟩

theorem abs_back_sub_lt (hk : k + 1 ≤ r.count) : |r.back k - k| < 1 := by
  have hstep := h.step_pos hr
  have hplace := h.le_two_pow hr hk
  have hnonneg : (0 : ℚ) ≤ k := k.cast_nonneg
  have hratio : |r.way k / r.step - k| ≤ 1 / 2 := by
    rw [div_sub' hstep.ne', abs_div, abs_of_pos hstep, div_le_iff₀ hstep, mul_comm r.step,
      one_div_mul_eq_div]
    exact h.abs_way_sub_le hr hk
  have hratio := abs_le.1 hratio
  have hsteps : |r.way k / r.step| ≤ 2 ^ 50 + 1 := abs_le.2 ⟨by linarith, by linarith⟩
  have hback : |r.back k - r.way k / r.step| ≤ |r.way k / r.step| / 2 ^ 53 + leastUnit / 2 :=
    abs_toNearest_sub_le _
  have hback := abs_le.1 hback
  have hunit : leastUnit ≤ 1 / 4 :=
    (zpow_le_zpow_right₀ one_le_two (by decide : (-1074 : ℤ) ≤ -2)).trans (by norm_num)
  exact abs_lt.2 ⟨by linarith, by linarith⟩

end

end Rises

/-! ## Rulers that lead either way -/

/-- The ends of a ruler are different doubles. -/
structure IsProper (r : Ruler) : Prop where
  near : Representable r.near
  far : Representable r.far
  ne : r.near ≠ r.far
  one_le : 1 ≤ r.count

theorem abs_gap_mirror (r : Ruler) : |r.mirror.far - r.mirror.near| = |r.far - r.near| := by
  rw [mirror, ← abs_neg]
  congr 1
  ring

theorem abs_mark_sub_near_mirror (r : Ruler) (k : ℚ) :
    |r.mirror.mark k - r.mirror.near| = |r.mark k - r.near| := by
  rw [mark_mirror, mirror, ← abs_neg]
  congr 1
  ring

theorem Resolved.mirror {r : Ruler} (hr : r.Resolved) : r.mirror.Resolved := by
  refine ⟨?_, ?_, ?_⟩ <;> rw [step_mirror]
  · exact neg_ne_zero.2 hr.step_ne
  · rw [abs_neg, Ruler.mirror, abs_neg]
    exact hr.near_le
  · rw [abs_neg, Ruler.mirror, abs_neg]
    exact hr.far_le

theorem Reaches.of_mirror {r : Ruler} {k : ℚ} (h : r.mirror.Reaches k) : r.Reaches k := by
  obtain ⟨hproduct, hsum⟩ := h
  rw [step_mirror, mul_neg, abs_neg] at hproduct
  rw [offset_mirror, Ruler.mirror, ← neg_add, abs_neg] at hsum
  exact ⟨hproduct, hsum⟩

namespace IsProper

variable {r : Ruler} {k : ℕ} (h : r.IsProper)

include h

theorem rises_or : r.Rises ∨ r.mirror.Rises := by
  rcases h.ne.lt_or_gt with hlt | hlt
  · exact .inl ⟨h.near, h.far, hlt, h.one_le⟩
  · exact .inr ⟨h.near.neg, h.far.neg, neg_lt_neg hlt, h.one_le⟩

theorem step_eq_zero_iff (hcount : r.count ≤ 2 ^ 52) :
    r.step = 0 ↔ |r.far - r.near| ≤ r.count * (leastUnit / 2) := by
  rcases h.rises_or with h | h
  · rw [abs_of_pos (sub_pos.2 h.lt), h.step_eq_zero_iff hcount]
  · rw [← abs_gap_mirror, abs_of_pos (sub_pos.2 h.lt), ← neg_eq_zero, ← step_mirror]
    exact h.step_eq_zero_iff hcount

theorem step_ne_zero (hcount : r.count ≤ 2 ^ 64) (hgap : 2 ^ 64 * leastUnit ≤ |r.far - r.near|) :
    r.step ≠ 0 := by
  rcases h.rises_or with h | h
  · rw [abs_of_pos (sub_pos.2 h.lt)] at hgap
    exact h.step_ne_zero hcount hgap
  · rw [← abs_gap_mirror, abs_of_pos (sub_pos.2 h.lt)] at hgap
    rw [← neg_ne_zero, ← step_mirror]
    exact h.step_ne_zero hcount hgap

theorem reaches (hnear : |r.near| ≤ greatest) (hfar : |r.far| ≤ greatest)
    (hgap : |r.far - r.near| < overflow) (hcount : r.count ≤ 2 ^ 52) (hk : k + 1 ≤ r.count) :
    r.Reaches k := by
  rcases h.rises_or with h | h
  · exact h.reaches hnear hfar ((le_abs_self _).trans_lt hgap) hcount hk
  · rw [← abs_gap_mirror] at hgap
    rw [← abs_neg] at hnear hfar
    exact (h.reaches hnear hfar ((le_abs_self _).trans_lt hgap) hcount hk).of_mirror

theorem reaches_of_le {q : ℚ} (hnear : |r.near| ≤ 2 ^ 51 * greatestUnit)
    (hfar : |r.far| ≤ 2 ^ 51 * greatestUnit) (hcount : r.count ≤ 2 ^ 64) (hq : 0 ≤ q)
    (hle : q ≤ r.count) : r.Reaches q := by
  rcases h.rises_or with h | h
  · exact h.reaches_of_le hnear hfar hcount hq hle
  · rw [← abs_neg] at hnear hfar
    exact (h.reaches_of_le hnear hfar hcount hq hle).of_mirror

theorem abs_mark_sub_near_lt (hgap : |r.far - r.near| < overflow) (hcount : r.count ≤ 2 ^ 52)
    (hk : k + 1 ≤ r.count) : |r.mark k - r.near| < overflow := by
  rcases h.rises_or with h | h
  · rw [abs_of_nonneg (sub_nonneg.2 h.near_le_mark)]
    exact h.mark_sub_near_lt ((le_abs_self _).trans_lt hgap) hcount hk
  · rw [← abs_gap_mirror] at hgap
    rw [← abs_mark_sub_near_mirror, abs_of_nonneg (sub_nonneg.2 h.near_le_mark)]
    exact h.mark_sub_near_lt ((le_abs_self _).trans_lt hgap) hcount hk

theorem mark_ne_near (hcount : r.count ≤ 2 ^ 52) (hk : k + 1 = r.count) (hstep : r.step ≠ 0)
    (hfew : 4 ≤ r.count ∨ 3 ≤ r.count ∧ 2 * leastUnit ≤ |r.step| ∨
      2 ≤ r.count ∧ ∃ w, Representable w ∧ (r.near < w ∧ w < r.far ∨ r.far < w ∧ w < r.near)) :
    r.mark k ≠ r.near := by
  rcases h.rises_or with h | h
  · rw [abs_of_nonneg h.step_nonneg] at hfew
    refine h.mark_ne_near hcount hk hstep (hfew.imp_right (Or.imp_right ?_))
    rintro ⟨htwo, w, hw, hbetween⟩
    exact ⟨htwo, w, hw, hbetween.resolve_right fun hfalls ↦ h.lt.not_gt (hfalls.1.trans hfalls.2)⟩
  · rw [← abs_neg, ← step_mirror, abs_of_nonneg h.step_nonneg] at hfew
    rw [← neg_ne_zero, ← step_mirror] at hstep
    have hne := h.mark_ne_near hcount hk hstep (hfew.imp_right (Or.imp_right ?_))
    · rwa [mark_mirror, mirror, Ne, neg_inj] at hne
    · rintro ⟨htwo, w, hw, hbetween⟩
      have hlt : r.far < r.near := neg_lt_neg_iff.1 h.lt
      obtain ⟨hfar, hnear⟩ := hbetween.resolve_left fun hrises ↦ hlt.not_gt (hrises.1.trans hrises.2)
      exact ⟨htwo, -w, hw.neg, neg_lt_neg hnear, neg_lt_neg hfar⟩

theorem mark_zero : r.mark 0 = r.near := by
  have hoffset : r.offset 0 = 0 := by rw [offset, zero_mul, toNearest_zero]
  rw [mark, hoffset, add_zero, h.near.toNearest_eq]

theorem back_zero : r.back 0 = 0 := by
  rw [back, way, h.mark_zero, sub_self, toNearest_zero, zero_div, toNearest_zero]

theorem count_le (hr : r.Resolved) : r.count ≤ 2 ^ 50 + 1 := by
  rcases h.rises_or with h | h
  · exact h.count_le hr
  · exact h.count_le hr.mirror

theorem abs_back_sub_lt (hr : r.Resolved) (hk : k + 1 ≤ r.count) : |r.back k - k| < 1 := by
  rcases h.rises_or with h | h
  · exact h.abs_back_sub_lt hr hk
  · rw [← back_mirror]
    exact h.abs_back_sub_lt hr.mirror hk

end IsProper

end Ruler

end OrbitPlot
