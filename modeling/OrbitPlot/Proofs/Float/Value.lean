import OrbitPlot.Proofs.Float.Rounding
import OrbitPlot.Proofs.Float.Word

/-!
# Doubles as numbers

A finite double has a value, and an operation on finite doubles rounds the number that the same
operation gives for their values: the result is finite unless that number is too large, and then its
value is `toNearest` of the number. So a computation with doubles can be followed in the rational
numbers, one rounding at a time.

## Main statements

* `isRounded_add`, `isRounded_sub`, `isRounded_mul`, `isRounded_div`: what the operations compute.
* `not_isFinite_add`, `not_isFinite_mul`, `not_isFinite_div`: what is not finite stays so.
* `lt_iff`, `le_iff`, `beq_iff`: finite doubles are ordered as their values are.
* `toNat_toUInt64_of_nonneg`: the word of a double is the whole part of its value.
-/

namespace OrbitPlot

namespace Double

open Float.Model Float.Model.UnpackedFloat

variable {x y : Float} {u v : UnpackedFloat} {s : Sign} {q : ℚ}

/-! ## Values -/

/-- A sign as a number. -/
def signOf : Sign → ℚ
  | .positive => 1
  | .negative => -1

/-- The number that a form stands for, if it stands for one. -/
def formValue : UnpackedFloat → ℚ
  | .finite s m e _ => signOf s * (m * 2 ^ e)
  | _ => 0

theorem formValue_zero (s : Sign) : formValue (.zero s) = 0 := rfl

theorem formValue_finite {m : ℕ} {e : ℤ} {hm : 0 < m} :
    formValue (.finite s m e hm) = signOf s * (m * 2 ^ e) := rfl

/-- The number that a finite double is. -/
def value (x : Float) : ℚ := formValue (unpacked x)

theorem isFinite_eq (x : Float) : x.isFinite = (unpacked x).isFinite := rfl

theorem signOf_mul (s t : Sign) : signOf (s * t) = signOf s * signOf t := by
  cases s
  · cases t
    · exact ((neg_mul_neg (1 : ℚ) 1).trans (mul_one 1)).symm
    · exact (mul_one _).symm
  · cases t <;> exact (one_mul _).symm

theorem signOf_div (s t : Sign) : signOf (s / t) = signOf s / signOf t := by
  cases s
  · cases t
    · exact ((neg_div_neg_eq (1 : ℚ) 1).trans (div_one 1)).symm
    · exact (div_one _).symm
  · cases t
    · exact ((div_neg (1 : ℚ)).trans (congrArg _ (div_one 1))).symm
    · exact (div_one _).symm

theorem signOf_neg (s : Sign) : signOf (-s) = -signOf s := by
  cases s
  · exact (neg_neg 1).symm
  · rfl

theorem abs_signOf_mul (s : Sign) (hq : 0 ≤ q) : |signOf s * q| = q := by
  cases s
  · rw [signOf, neg_one_mul, abs_neg, abs_of_nonneg hq]
  · rw [signOf, one_mul, abs_of_nonneg hq]

theorem toNearest_signOf_mul (s : Sign) (q : ℚ) :
    toNearest (signOf s * q) = signOf s * toNearest q := by
  cases s
  · rw [signOf, neg_one_mul, neg_one_mul, toNearest_neg]
  · rw [signOf, one_mul, one_mul]

theorem representable_formValue (hu : Canonical u) : Representable (formValue u) := by
  cases u with
  | finite s m e hm =>
    have hpos := representable_natCast_mul hu.1.le hu.le_exponent
    cases s
    · rw [formValue, signOf, neg_one_mul]
      exact hpos.neg
    · rw [formValue, signOf, one_mul]
      exact hpos
  | _ => exact representable_zero

theorem representable_value (x : Float) : Representable (value x) :=
  representable_formValue (canonical_unpacked x).1

theorem le_greatest {m : ℕ} {e : ℤ} (hm : m < 2 ^ 53) (he : e ≤ 971) :
    (m * 2 ^ e : ℚ) ≤ greatest := by
  have hm : (m : ℚ) ≤ 2 ^ 53 - 1 := by
    have hle : (m + 1 : ℚ) ≤ 2 ^ 53 := by exact_mod_cast hm
    linarith
  exact mul_le_mul hm (zpow_le_zpow_right₀ one_le_two he) (zpow_nonneg zero_le_two e) (by norm_num)

theorem le_mul_of_lt_exponent {m : ℕ} {e : ℤ} (hm : 2 ^ 52 ≤ m) (he : 971 < e) :
    (2 ^ 53 * greatestUnit : ℚ) ≤ m * 2 ^ e := by
  have hm : (2 ^ 52 : ℚ) ≤ m := by exact_mod_cast hm
  have hunit : (2 : ℚ) ^ (972 : ℤ) = 2 ^ 1 * greatestUnit := (two_pow_mul_greatestUnit 1).symm
  calc 2 ^ 53 * greatestUnit
    _ = 2 ^ 52 * 2 ^ (972 : ℤ) := by
      rw [hunit]
      ring
    _ ≤ m * 2 ^ e :=
      mul_le_mul hm (zpow_le_zpow_right₀ one_le_two he) (zpow_nonneg zero_le_two _)
        (Nat.cast_nonneg m)

theorem abs_value_le (x : Float) : |value x| ≤ greatest := by
  have hc := (canonical_unpacked x).1
  rw [value]
  cases hx : unpacked x with
  | finite s m e hm =>
    rw [hx] at hc
    rw [formValue_finite, abs_signOf_mul s (natCast_mul_zpow_pos hm e).le]
    exact le_greatest hc.1 (le_of_unpacked_eq hx)
  | _ => exact abs_zero.trans_le greatest_pos.le

theorem abs_value_lt_overflow (x : Float) : |value x| < overflow :=
  (abs_value_le x).trans_lt greatest_lt_overflow

/-! ## Rounded numbers -/

/-- A double is what a number is rounded to. If that is too large, it is not finite. -/
structure IsRounded (x : Float) (q : ℚ) : Prop where
  isFinite_iff : x.isFinite ↔ |q| < overflow
  value_eq : x.isFinite → value x = toNearest q

theorem isRounded_ofUnpacked (hc : Canonical u) (hu : u.isFinite) (h : formValue u = toNearest q) :
    IsRounded (ofUnpacked u) q := by
  suffices h : ((saturate u).isFinite ↔ |toNearest q| < 2 ^ 53 * greatestUnit) ∧
      ((saturate u).isFinite → formValue (saturate u) = toNearest q) by
    rw [← unpacked_ofUnpacked hc, abs_toNearest_lt_iff] at h
    exact ⟨h.1, h.2⟩
  cases u with
  | notANumber => cases hu
  | infinity s => cases hu
  | zero s =>
    refine ⟨iff_of_true rfl ?_, fun _ ↦ h⟩
    rw [← h, formValue_zero, abs_zero]
    exact mul_pos (by norm_num) greatestUnit_pos
  | finite s m e hm =>
    rw [← h, formValue_finite, abs_signOf_mul s (natCast_mul_zpow_pos hm e).le, saturate]
    obtain ⟨hlt, hexp⟩ := hc
    split
    · next he => exact ⟨iff_of_true rfl ((le_greatest hlt he).trans_lt greatest_lt), fun _ ↦ rfl⟩
    · next he =>
      have hle := le_mul_of_lt_exponent (m := m) (e := e) (by omega) (by omega)
      exact ⟨iff_of_false Bool.false_ne_true hle.not_gt, fun h ↦ absurd h Bool.false_ne_true⟩

theorem isRounded_zero (s : Sign) : IsRounded (ofUnpacked (.zero s)) 0 :=
  isRounded_ofUnpacked trivial rfl toNearest_zero.symm

theorem isRounded_formValue (hc : Canonical u) (hu : u.isFinite) :
    IsRounded (ofUnpacked u) (formValue u) :=
  isRounded_ofUnpacked hc hu (representable_formValue hc).toNearest_eq.symm

theorem isRounded_nearest (s : Sign) (hq : 0 < q) :
    IsRounded (ofUnpacked (nearest s q)) (signOf s * q) := by
  have hmantissa (n : ℕ) (e : ℤ) : (ofMantissa s n e).isFinite ∧
      formValue (ofMantissa s n e) = signOf s * (n * 2 ^ e) := by
    rw [ofMantissa]
    split
    · next hn =>
      rw [hn, Nat.cast_zero, zero_mul, mul_zero]
      exact ⟨rfl, rfl⟩
    · exact ⟨rfl, rfl⟩
  have hform : (nearest s q).isFinite ∧ formValue (nearest s q) = signOf s * rounded q := by
    rw [nearest]
    split
    · next h =>
      obtain ⟨hfinite, hvalue⟩ := hmantissa (2 ^ 52) (lastPlace q + 1)
      refine ⟨hfinite, hvalue.trans ?_⟩
      rw [rounded, h, zpow_add_one₀ two_ne_zero]
      push_cast
      ring
    · exact hmantissa _ _
  refine isRounded_ofUnpacked (canonical_nearest s hq) hform.1 ?_
  rw [hform.2, toNearest_signOf_mul, toNearest_of_nonneg hq.le]

theorem isFinite_zero : (0 : Float).isFinite := by decide +kernel

theorem value_zero : value 0 = 0 := by
  have hpacked : (0 : Float) = ofUnpacked (.zero .positive) := by decide +kernel
  rw [hpacked, (isRounded_zero .positive).value_eq (hpacked ▸ isFinite_zero), toNearest_zero]

/-! ## Operations -/

theorem isFinite_cases (hu : u.isFinite) :
    (∃ s, u = .zero s) ∨ ∃ s m e h, u = .finite s m e h := by
  cases u with
  | notANumber => cases hu
  | infinity s => cases hu
  | zero s => exact .inl ⟨s, rfl⟩
  | finite s m e h => exact .inr ⟨s, m, e, h, rfl⟩

theorem unpacked_cases (hx : x.isFinite) :
    (∃ s, unpacked x = .zero s) ∨ ∃ s m e h, unpacked x = .finite s m e h :=
  isFinite_cases hx

theorem isRounded_mul (hx : x.isFinite) (hy : y.isFinite) :
    IsRounded (x * y) (value x * value y) := by
  have hmul : x * y = ofUnpacked (UnpackedFloat.mul .binary64 (unpacked x) (unpacked y)) := rfl
  rw [value, value]
  rcases unpacked_cases hx with ⟨s₁, hx⟩ | ⟨s₁, m₁, e₁, h₁, hx⟩ <;>
    rcases unpacked_cases hy with ⟨s₂, hy⟩ | ⟨s₂, m₂, e₂, h₂, hy⟩
  case inr.inr =>
    have hvalue : signOf s₁ * (m₁ * 2 ^ e₁) * (signOf s₂ * (m₂ * 2 ^ e₂)) =
        signOf (s₁ * s₂) * (m₁ * 2 ^ e₁ * (m₂ * 2 ^ e₂)) := by
      rw [signOf_mul]
      ring
    rw [mul_eq_nearest hx hy, hx, hy, formValue_finite, formValue_finite, hvalue]
    exact isRounded_nearest _ (mul_pos (natCast_mul_zpow_pos h₁ e₁) (natCast_mul_zpow_pos h₂ e₂))
  all_goals
    rw [hmul, hx, hy]
    simp only [formValue_zero, zero_mul, mul_zero]
    exact isRounded_zero _

theorem isRounded_div (hx : x.isFinite) (hy : y.isFinite) (hzero : value y ≠ 0) :
    IsRounded (x / y) (value x / value y) := by
  have hdiv : x / y = ofUnpacked (UnpackedFloat.div .binary64 (unpacked x) (unpacked y)) := rfl
  rw [value] at hzero
  rw [value, value]
  rcases unpacked_cases hy with ⟨s₂, hy⟩ | ⟨s₂, m₂, e₂, h₂, hy⟩
  · rw [hy] at hzero
    exact absurd rfl hzero
  rcases unpacked_cases hx with ⟨s₁, hx⟩ | ⟨s₁, m₁, e₁, h₁, hx⟩
  · rw [hdiv, hx, hy, formValue_zero, zero_div]
    exact isRounded_zero _
  · have hvalue : signOf s₁ * (m₁ * 2 ^ e₁) / (signOf s₂ * (m₂ * 2 ^ e₂)) =
        signOf (s₁ / s₂) * (m₁ * 2 ^ e₁ / (m₂ * 2 ^ e₂)) := by
      rw [signOf_div, div_mul_div_comm]
    rw [div_eq_nearest hx hy, hx, hy, formValue_finite, formValue_finite, hvalue]
    exact isRounded_nearest _ (div_pos (natCast_mul_zpow_pos h₁ e₁) (natCast_mul_zpow_pos h₂ e₂))

theorem isRounded_normalize (n e : ℤ) (z : Sign) :
    IsRounded (ofUnpacked (normalize .binary64 n e z)) (n * 2 ^ e) := by
  rcases eq_or_ne n 0 with rfl | hn
  · rw [Int.cast_zero, zero_mul]
    exact isRounded_zero z
  obtain ⟨m, rfl | rfl⟩ := n.eq_nat_or_neg
  · have hm : 0 < m := by omega
    have h := isRounded_nearest .positive (natCast_mul_zpow_pos hm e)
    rwa [← normalize_natCast (z := z) hm, signOf, one_mul] at h
  · have hm : 0 < m := by omega
    have h := isRounded_nearest .negative (natCast_mul_zpow_pos hm e)
    rw [← normalize_neg_natCast (z := z) hm, signOf, neg_one_mul, ← neg_mul] at h
    exact_mod_cast h

theorem apply_decreaseExponent (s : Sign) (m : ℕ) {e t : ℤ} (h : t ≤ e) :
    ((s.apply (decreaseExponent m e t).1 : ℤ) : ℚ) * 2 ^ t = signOf s * (m * 2 ^ e) := by
  have hunits : (((m <<< (e - t).toNat : ℕ) : ℤ) : ℚ) * 2 ^ t = m * 2 ^ e := by
    rw [Nat.shiftLeft_eq, Int.cast_natCast, Nat.cast_mul, Nat.cast_pow, Nat.cast_ofNat, mul_assoc,
      ← zpow_natCast, ← zpow_add₀ two_ne_zero]
    congr 2
    omega
  rw [← hunits]
  cases s
  · change ((-(m <<< (e - t).toNat : ℕ) : ℤ) : ℚ) * 2 ^ t = _
    rw [signOf, Int.cast_neg]
    ring
  · rw [signOf, one_mul]
    rfl

theorem isRounded_add_form (hcu : Canonical u) (hcv : Canonical v) (hu : u.isFinite)
    (hv : v.isFinite) :
    IsRounded (ofUnpacked (UnpackedFloat.add .binary64 u v)) (formValue u + formValue v) := by
  rcases isFinite_cases hu with ⟨s₁, rfl⟩ | ⟨s₁, m₁, e₁, h₁, rfl⟩
  · rw [formValue_zero, zero_add]
    rcases isFinite_cases hv with ⟨s₂, rfl⟩ | ⟨s₂, m₂, e₂, h₂, rfl⟩
    · cases s₁ <;> cases s₂ <;> exact isRounded_zero _
    · exact isRounded_formValue hcv hv
  · rcases isFinite_cases hv with ⟨s₂, rfl⟩ | ⟨s₂, m₂, e₂, h₂, rfl⟩
    · rw [formValue_zero, add_zero]
      exact isRounded_formValue hcu hu
    · rw [formValue_finite, formValue_finite, ← apply_decreaseExponent s₁ m₁ (min_le_left e₁ e₂),
        ← apply_decreaseExponent s₂ m₂ (min_le_right e₁ e₂), ← add_mul, ← Int.cast_add]
      exact isRounded_normalize _ _ _

theorem isRounded_add (hx : x.isFinite) (hy : y.isFinite) :
    IsRounded (x + y) (value x + value y) :=
  isRounded_add_form (canonical_unpacked x).1 (canonical_unpacked y).1 hx hy

/-- A difference of forms is the sum with the other sign. -/
theorem sub_eq_add_neg_form (hu : u.isFinite) (hv : v.isFinite) :
    UnpackedFloat.sub .binary64 u v = UnpackedFloat.add .binary64 u v.neg := by
  rcases isFinite_cases hu with ⟨s₁, rfl⟩ | ⟨s₁, m₁, e₁, h₁, rfl⟩ <;>
    rcases isFinite_cases hv with ⟨s₂, rfl⟩ | ⟨s₂, m₂, e₂, h₂, rfl⟩
  case inr.inr =>
    have hneg (n : ℤ) : (-s₂).apply n = -s₂.apply n := by
      cases s₂
      · exact (neg_neg n).symm
      · rfl
    simp only [UnpackedFloat.sub, UnpackedFloat.add, UnpackedFloat.neg, hneg, sub_eq_add_neg]
  all_goals rfl

theorem isRounded_sub (hx : x.isFinite) (hy : y.isFinite) :
    IsRounded (x - y) (value x - value y) := by
  have hsub : x - y = ofUnpacked (UnpackedFloat.sub .binary64 (unpacked x) (unpacked y)) := rfl
  have hneg : Canonical (unpacked y).neg ∧ (unpacked y).neg.isFinite ∧
      formValue (unpacked y).neg = -value y := by
    have hc := (canonical_unpacked y).1
    rw [value]
    rcases unpacked_cases hy with ⟨s, hy⟩ | ⟨s, m, e, h, hy⟩
    · rw [hy, formValue_zero, neg_zero]
      exact ⟨trivial, rfl, rfl⟩
    · rw [hy] at hc ⊢
      refine ⟨hc, rfl, ?_⟩
      rw [UnpackedFloat.neg, formValue_finite, formValue_finite, signOf_neg, neg_mul]
  rw [isFinite_eq] at hx hy
  rw [hsub, sub_eq_add_neg_form hx hy, sub_eq_add_neg, ← hneg.2.2]
  exact isRounded_add_form (canonical_unpacked x).1 hneg.1 hx hneg.2.1

/-! ## What is not finite -/

theorem isFinite_ofUnpacked (hu : ¬u.isFinite) : ¬(ofUnpacked u).isFinite := by
  cases u with
  | notANumber => exact hu
  | infinity s =>
    rw [isFinite_eq, unpacked_ofUnpacked (u := .infinity s) trivial]
    exact hu
  | zero s => exact absurd rfl hu
  | finite s m e h => exact absurd rfl hu

theorem not_isFinite_add (x : Float) (hy : ¬y.isFinite) : ¬(x + y).isFinite := by
  refine isFinite_ofUnpacked (u := UnpackedFloat.add .binary64 (unpacked x) (unpacked y)) ?_
  rw [isFinite_eq] at hy
  cases hv : unpacked y with
  | notANumber => cases unpacked x <;> nofun
  | infinity t =>
    cases unpacked x with
    | infinity s => cases s <;> cases t <;> nofun
    | _ => nofun
  | _ =>
    rw [hv] at hy
    exact absurd rfl hy

theorem not_isFinite_mul (x : Float) (hy : ¬y.isFinite) : ¬(x * y).isFinite := by
  refine isFinite_ofUnpacked (u := UnpackedFloat.mul .binary64 (unpacked x) (unpacked y)) ?_
  rw [isFinite_eq] at hy
  cases hv : unpacked y with
  | notANumber => cases unpacked x <;> nofun
  | infinity t => cases unpacked x <;> nofun
  | _ =>
    rw [hv] at hy
    exact absurd rfl hy

theorem not_isFinite_div (hx : ¬x.isFinite) (hy : y.isFinite) : ¬(x / y).isFinite := by
  refine isFinite_ofUnpacked (u := UnpackedFloat.div .binary64 (unpacked x) (unpacked y)) ?_
  rw [isFinite_eq] at hx
  cases hu : unpacked x with
  | notANumber => cases unpacked y <;> nofun
  | infinity s => rcases unpacked_cases hy with ⟨t, hy⟩ | ⟨t, m, e, h, hy⟩ <;> rw [hy] <;> nofun
  | _ =>
    rw [hu] at hx
    exact absurd rfl hx

/-! ## Order -/

theorem compare_neg_neg (p q : ℚ) : compare (-p) (-q) = (compare p q).swap := by
  rcases lt_trichotomy p q with h | rfl | h
  · rw [compare_lt_iff_lt.2 h, compare_gt_iff_gt.2 (neg_lt_neg h)]
    rfl
  · rw [compare_eq_iff_eq.2 rfl, compare_eq_iff_eq.2 rfl]
    rfl
  · rw [compare_gt_iff_gt.2 h, compare_lt_iff_lt.2 (neg_lt_neg h)]
    rfl

/-- Forms are compared as what they stand for. -/
theorem compare_eq (hcu : Canonical u) (hcv : Canonical v) (hu : u.isFinite) (hv : v.isFinite) :
    u.compare v = some (compare (formValue u) (formValue v)) := by
  have hpos {m : ℕ} {e : ℤ} (hm : 0 < m) : 0 < formValue (.finite .positive m e hm) := by
    rw [formValue_finite, signOf, one_mul]
    exact natCast_mul_zpow_pos hm e
  have hneg {m : ℕ} {e : ℤ} (hm : 0 < m) : formValue (.finite .negative m e hm) < 0 := by
    rw [formValue_finite, signOf, neg_one_mul, neg_lt_zero]
    exact natCast_mul_zpow_pos hm e
  rcases isFinite_cases hu with ⟨s₁, rfl⟩ | ⟨s₁, m₁, e₁, h₁, rfl⟩ <;>
    rcases isFinite_cases hv with ⟨s₂, rfl⟩ | ⟨s₂, m₂, e₂, h₂, rfl⟩
  · rw [formValue_zero, formValue_zero, compare_eq_iff_eq.2 rfl]
    rfl
  · rw [formValue_zero]
    cases s₂
    · rw [compare_gt_iff_gt.2 (hneg h₂)]
      rfl
    · rw [compare_lt_iff_lt.2 (hpos h₂)]
      rfl
  · rw [formValue_zero]
    cases s₁
    · rw [compare_lt_iff_lt.2 (hneg h₁)]
      rfl
    · rw [compare_gt_iff_gt.2 (hpos h₁)]
      rfl
  · cases s₁ <;> cases s₂
    · rw [UnpackedFloat.compare, compare_mantissa hcu hcv, ← compare_neg_neg, formValue_finite,
        formValue_finite, signOf, neg_one_mul, neg_one_mul]
    · rw [compare_lt_iff_lt.2 ((hneg h₁).trans (hpos h₂))]
      rfl
    · rw [compare_gt_iff_gt.2 ((hneg h₂).trans (hpos h₁))]
      rfl
    · rw [UnpackedFloat.compare, compare_mantissa hcu hcv, formValue_finite, formValue_finite,
        signOf, one_mul, one_mul]

theorem compare_unpacked (hx : x.isFinite) (hy : y.isFinite) :
    (unpacked x).compare (unpacked y) = some (compare (value x) (value y)) :=
  compare_eq (canonical_unpacked x).1 (canonical_unpacked y).1 hx hy

theorem lt_iff (hx : x.isFinite) (hy : y.isFinite) : x < y ↔ value x < value y := by
  change decide (UnpackedFloat.lt (unpacked x) (unpacked y)) = true ↔ _
  rw [decide_eq_true_iff, UnpackedFloat.lt, compare_unpacked hx hy, ← compare_lt_iff_lt]
  simp

theorem le_iff (hx : x.isFinite) (hy : y.isFinite) : x ≤ y ↔ value x ≤ value y := by
  change decide (UnpackedFloat.le (unpacked x) (unpacked y)) = true ↔ _
  rw [decide_eq_true_iff, UnpackedFloat.le, compare_unpacked hx hy]
  exact Std.LawfulBCmp.isLE_iff_le

theorem beq_iff (hy : y.isFinite) : x == y ↔ x.isFinite ∧ value x = value y := by
  have hbeq : (x == y) = UnpackedFloat.beq (unpacked x) (unpacked y) := rfl
  by_cases hx : x.isFinite
  · rw [hbeq, UnpackedFloat.beq, compare_unpacked hx hy]
    simp [hx]
  · refine iff_of_false ?_ fun h ↦ hx h.1
    rw [hbeq, UnpackedFloat.beq]
    rw [isFinite_eq] at hx
    cases hu : unpacked x with
    | notANumber => rcases unpacked_cases hy with ⟨t, hy⟩ | ⟨t, m, e, h, hy⟩ <;> rw [hy] <;> nofun
    | infinity s =>
      rcases unpacked_cases hy with ⟨t, hy⟩ | ⟨t, m, e, h, hy⟩ <;> rw [hy] <;> cases s <;> nofun
    | _ =>
      rw [hu] at hx
      exact absurd rfl hx

/-! ## Words -/

theorem isRounded_toFloat (n : UInt64) : IsRounded n.toFloat n.toNat := by
  have hexact : (n.toNat : ℚ) = (n.toNat : ℤ) * 2 ^ (0 : ℤ) := by
    rw [zpow_zero, mul_one, Int.cast_natCast]
  rw [hexact]
  exact isRounded_normalize n.toNat 0 .positive

theorem isFinite_toFloat (n : UInt64) : n.toFloat.isFinite := by
  have hlt : (n.toNat : ℚ) < 2 ^ 64 := by exact_mod_cast n.toNat_lt
  have hunit := two_pow_le_greatestUnit
  rw [(isRounded_toFloat n).isFinite_iff, Nat.abs_cast, overflow]
  linarith

theorem value_toFloat (n : UInt64) : value n.toFloat = toNearest n.toNat :=
  (isRounded_toFloat n).value_eq (isFinite_toFloat n)

theorem value_toFloat_of_le {n : UInt64} (h : n.toNat ≤ 2 ^ 53) : value n.toFloat = n.toNat := by
  rw [value_toFloat, (representable_natCast h).toNearest_eq]

/-- The word of a double is the whole part of its value. -/
theorem toNat_toUInt64_of_nonneg (hx : x.isFinite) (h : 0 ≤ value x) (hlt : value x < 2 ^ 64) :
    x.toUInt64.toNat = ⌊value x⌋₊ := by
  have hint : (toInt 0 (UInt64.size - 1) (unpacked x)).toNat = ⌊value x⌋₊ := by
    rw [value] at h ⊢
    rcases unpacked_cases hx with ⟨s, hx⟩ | ⟨s, m, e, hm, hx⟩
    · rw [hx, formValue_zero, Nat.floor_zero]
      rfl
    · rw [hx] at h ⊢
      rw [toInt, roundToInt_eq, formValue_finite]
      cases s
      · rw [formValue_finite, signOf, neg_one_mul, neg_nonneg] at h
        exact absurd h (natCast_mul_zpow_pos hm e).not_ge
      · rw [signOf, one_mul]
        rfl
  have hfloor : ⌊value x⌋₊ ≤ UInt64.size - 1 :=
    Nat.le_pred_of_lt ((Nat.floor_lt h).2 (by exact_mod_cast hlt))
  rw [toNat_toUInt64, hint, Nat.min_eq_left hfloor]

end Double

end OrbitPlot
