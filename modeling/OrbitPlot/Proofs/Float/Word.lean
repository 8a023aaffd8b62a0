import OrbitPlot.Proofs.Float.Decimal

/-!
# Doubles as words

A double becomes a machine word by dropping what comes after the point. What is negative or not a
number becomes zero, and what is too large the largest word. So a double that is not as large as a
word becomes a smaller word, and this is so of not-a-number as well, which is not as large as
anything. It does not matter that a word of more than 53 bits has to be rounded before it can be
compared with a double: what it is rounded to is the nearest double, so no other double lies
between the two.

## Main statements

* `Double.roundToInt_eq`: what is dropped.
* `Double.Exactly.le_iff`, `Double.Exactly.mono`: the order of positive doubles, and that rounding
  keeps it.
* `Double.toUInt64_lt`, `Double.toUInt64_add_le`: a bound for a double that is kept for its word,
  and that the word is not one of the largest.
* `Double.toUInt64_of_isNaN`: the word of not-a-number.
-/

namespace OrbitPlot

open Float.Model Float.Model.UnpackedFloat

namespace Double

/-! ## The part before the point -/

theorem roundToInt_eq (s : Sign) (m : Nat) (e : Int) :
    roundToInt s m e = s.apply (⌊(m * 2 ^ e : ℚ)⌋₊ : Int) := by
  unfold roundToInt
  dsimp only [decreaseExponent, shiftToExponent]
  rw [Int.sub_zero]
  generalize hk : (0 - (e - (e.toNat : Int))).toNat = k
  have hlocates := (locates_exact (m <<< e.toNat)).shiftRight k
  have hvalue : ((m <<< e.toNat : Nat) : ℚ) / 2 ^ k = m * 2 ^ e := by
    have he : e = e.toNat - k := by omega
    conv_rhs => rw [he]
    rw [Nat.shiftLeft_eq, Nat.cast_mul, Nat.cast_pow, Nat.cast_ofNat, zpow_sub₀ two_ne_zero,
      zpow_natCast, zpow_natCast, mul_div_assoc]
  rw [hvalue] at hlocates
  rw [hlocates.floor_eq]

theorem toNat_toUInt64 (x : Float) :
    x.toUInt64.toNat = min (toInt 0 (UInt64.size - 1) (unpacked x)).toNat (UInt64.size - 1) := by
  change (UInt64.ofNatClamp (toInt 0 (UInt64.size - 1) (unpacked x)).toNat).toNat = _
  unfold UInt64.ofNatClamp
  split
  · next h =>
    rw [UInt64.toNat_ofNatLT, Nat.min_eq_left (Nat.le_sub_one_of_lt h)]
  · next h =>
    rw [UInt64.toNat_ofNatLT, Nat.min_eq_right]
    exact (Nat.sub_le _ 1).trans (Nat.le_of_not_lt h)

/-! ## The order of positive doubles -/

/-- Of two forms, the one with the larger exponent is larger. -/
theorem lt_of_exponent_lt {s₁ s₂ : Sign} {m₁ m₂ : Nat} {e₁ e₂ : Int} {h₁ : 0 < m₁} {h₂ : 0 < m₂}
    (hc₁ : Canonical (.finite s₁ m₁ e₁ h₁)) (hc₂ : Canonical (.finite s₂ m₂ e₂ h₂)) (h : e₁ < e₂) :
    (m₁ * 2 ^ e₁ : ℚ) < m₂ * 2 ^ e₂ := by
  obtain ⟨hlt, hexp₁⟩ := hc₁
  obtain ⟨-, hexp₂⟩ := hc₂
  have hle : 2 ^ 52 ≤ m₂ := by omega
  calc (m₁ * 2 ^ e₁ : ℚ)
    _ < 2 ^ 53 * 2 ^ e₁ := by
      have hcast : (m₁ : ℚ) < 2 ^ 53 := by exact_mod_cast hlt
      exact mul_lt_mul_of_pos_right hcast (zpow_pos two_pos e₁)
    _ = 2 ^ 52 * 2 ^ (e₁ + 1) := by
      rw [zpow_add_one₀ two_ne_zero]
      ring
    _ ≤ 2 ^ 52 * 2 ^ e₂ :=
      mul_le_mul_of_nonneg_left (zpow_le_zpow_right₀ one_le_two h) (pow_nonneg zero_le_two _)
    _ ≤ m₂ * 2 ^ e₂ := by
      have hcast : (2 ^ 52 : ℚ) ≤ m₂ := by exact_mod_cast hle
      exact mul_le_mul_of_nonneg_right hcast (zpow_nonneg zero_le_two e₂)

theorem compare_mantissa {m₁ m₂ : ℕ} {e₁ e₂ : ℤ} {s₁ s₂ : Sign} {h₁ : 0 < m₁} {h₂ : 0 < m₂}
    (hc₁ : Canonical (.finite s₁ m₁ e₁ h₁)) (hc₂ : Canonical (.finite s₂ m₂ e₂ h₂)) :
    (compare e₁ e₂).then (compare m₁ m₂) = compare (m₁ * 2 ^ e₁ : ℚ) (m₂ * 2 ^ e₂) := by
  rcases lt_trichotomy e₁ e₂ with h | rfl | h
  · rw [compare_lt_iff_lt.2 h, compare_lt_iff_lt.2 (lt_of_exponent_lt hc₁ hc₂ h)]
    rfl
  · have hpow : (0 : ℚ) < 2 ^ e₁ := zpow_pos two_pos e₁
    rw [compare_eq_iff_eq.2 rfl, Ordering.then]
    rcases lt_trichotomy m₁ m₂ with h | rfl | h
    · have hcast : (m₁ : ℚ) < m₂ := by exact_mod_cast h
      rw [compare_lt_iff_lt.2 h, compare_lt_iff_lt.2 (mul_lt_mul_of_pos_right hcast hpow)]
    · rw [compare_eq_iff_eq.2 rfl, compare_eq_iff_eq.2 rfl]
    · have hcast : (m₂ : ℚ) < m₁ := by exact_mod_cast h
      rw [compare_gt_iff_gt.2 h, compare_gt_iff_gt.2 (mul_lt_mul_of_pos_right hcast hpow)]
  · rw [compare_gt_iff_gt.2 h, compare_gt_iff_gt.2 (lt_of_exponent_lt hc₂ hc₁ h)]
    rfl

theorem Exactly.le_iff {x y : Float} {p q : ℚ} (hx : Exactly x p) (hy : Exactly y q) :
    x ≤ y ↔ p ≤ q := by
  obtain ⟨m₁, e₁, h₁, hx, rfl⟩ := hx
  obtain ⟨m₂, e₂, h₂, hy, rfl⟩ := hy
  have hc₁ := hx ▸ (canonical_unpacked x).1
  have hc₂ := hy ▸ (canonical_unpacked y).1
  change decide (UnpackedFloat.le (unpacked x) (unpacked y)) = true ↔ _
  rw [decide_eq_true_iff, hx, hy, UnpackedFloat.le, UnpackedFloat.compare,
    compare_mantissa hc₁ hc₂]
  exact Std.LawfulBCmp.isLE_iff_le

theorem Exactly.eq_rounded {q r : ℚ} (hq : 0 < q) (h : Exactly (ofRat q) r) : r = rounded q := by
  obtain ⟨m, e, hm, hunpacked, rfl⟩ := h
  rw [ofRat_of_pos hq, unpacked_ofUnpacked (canonical_nearest _ hq)] at hunpacked
  have hnearest : nearest .positive q = .finite .positive m e hm := by
    cases hn : nearest .positive q with
    | finite s m' e' h' =>
      rw [hn, saturate] at hunpacked
      split at hunpacked
      · exact hunpacked
      · cases hunpacked
    | _ => rw [hn] at hunpacked; cases hunpacked
  rw [nearest] at hnearest
  rw [rounded]
  split at hnearest
  · next htop =>
    cases hnearest
    rw [htop, zpow_add_one₀ two_ne_zero]
    push_cast
    ring
  · rw [ofMantissa] at hnearest
    split at hnearest <;> cases hnearest
    rfl

theorem Exactly.mono {p q r s : ℚ} (hp : 0 < p) (h : p ≤ q) (hr : Exactly (ofRat p) r)
    (hs : Exactly (ofRat q) s) : r ≤ s := by
  rw [hr.eq_rounded hp, hs.eq_rounded (hp.trans_le h)]
  exact rounded_mono hp h

/-! ## Bounds -/

theorem exists_exactly_toFloat {n : UInt64} (hn : 0 < n.toNat) : ∃ r, Exactly n.toFloat r := by
  have hone : (1 : ℚ) ≤ n.toNat := by exact_mod_cast hn
  have hq : (0 : ℚ) < n.toNat := one_pos.trans_le hone
  have hhigh : (n.toNat : ℚ) < 2 ^ (64 : Int) := by exact_mod_cast n.toNat_lt
  have hlast : lastPlace n.toNat ≤ 12 := by
    have hlog : Int.log 2 (n.toNat : ℚ) < 64 :=
      (Int.lt_zpow_iff_log_lt one_lt_two hq).1 (by exact_mod_cast hhigh)
    rw [lastPlace]
    omega
  have hlow : (2 : ℚ) ^ (-1074 : Int) ≤ n.toNat :=
    (zpow_le_one_of_nonpos₀ one_le_two (by decide)).trans hone
  obtain ⟨m, e, hm, he, hnearest⟩ :
      ∃ m e hm, e ≤ 13 ∧ nearest .positive n.toNat = .finite .positive m e hm := by
    cases hnearest : nearest .positive n.toNat with
    | zero s => exact absurd hnearest (nearest_ne_zero hlow)
    | _ =>
      rw [nearest, ofMantissa, ofMantissa] at hnearest
      split at hnearest <;> split at hnearest <;> cases hnearest
      all_goals exact ⟨_, _, _, by omega, rfl⟩
  refine ⟨m * 2 ^ e, m, e, hm, ?_, rfl⟩
  rw [toFloat_eq_ofRat hn, ofRat_of_pos hq, unpacked_ofUnpacked (canonical_nearest _ hq), hnearest,
    saturate, if_pos (by omega)]

theorem toFloat_cases (n : UInt64) :
    unpacked n.toFloat = .zero .positive ∨ 0 < n.toNat ∧ ∃ r, Exactly n.toFloat r := by
  obtain hn | hn := n.toNat.eq_zero_or_pos
  · obtain rfl : n = 0 := UInt64.toNat_inj.1 hn
    exact .inl (unpacked_ofUnpacked (u := .zero .positive) trivial)
  · exact .inr ⟨hn, exists_exactly_toFloat hn⟩

/-- A positive number that is not as large as a rounded word is below the word itself. -/
theorem Exactly.lt_of_not_le {n : UInt64} {x : Float} {q : ℚ} (hx : Exactly x q)
    (h : ¬n.toFloat ≤ x) : q < n.toNat := by
  by_contra hle
  refine h ?_
  obtain hzero | ⟨hn, r, hr⟩ := toFloat_cases n
  · obtain ⟨m, e, hm, hunpacked, -⟩ := hx
    change decide (UnpackedFloat.le (unpacked n.toFloat) (unpacked x)) = true
    rw [hzero, hunpacked]
    rfl
  -- being a double, the number is as large as what the word is rounded to
  · have hpos : (0 : ℚ) < n.toNat := by exact_mod_cast hn
    refine (hr.le_iff hx).2 (Exactly.mono hpos (le_of_not_gt hle) ?_ ?_)
    · rwa [← toFloat_eq_ofRat hn]
    · rwa [hx.ofRat_eq]

/-- Below the number of words, doubles are multiples of `2 ^ 11` or smaller than such. -/
theorem Exactly.le_of_lt_size {x : Float} {q : ℚ} (hx : Exactly x q) (h : q < 2 ^ (64 : Int)) :
    q ≤ (UInt64.size - 2 ^ 11 : Nat) := by
  obtain ⟨m, e, hm, hx, rfl⟩ := hx
  obtain ⟨hmantissa, hexponent⟩ := hx ▸ (canonical_unpacked x).1
  have he : e ≤ 11 := by
    by_contra he
    have hle : 2 ^ 52 ≤ m := by omega
    refine h.not_ge ?_
    calc (2 : ℚ) ^ (64 : Int)
      _ = (2 ^ 52 : Nat) * 2 ^ (12 : Int) := by norm_num
      _ ≤ m * 2 ^ e := by
        refine mul_le_mul (by exact_mod_cast hle) ?_ (by norm_num) (by positivity)
        exact zpow_le_zpow_right₀ one_le_two (by omega)
  calc (m * 2 ^ e : ℚ)
    _ ≤ (2 ^ 53 - 1 : Nat) * 2 ^ (11 : Int) := by
      refine mul_le_mul ?_ (zpow_le_zpow_right₀ one_le_two he) (by positivity) (by positivity)
      exact_mod_cast Nat.le_sub_one_of_lt hmantissa
    _ = (UInt64.size - 2 ^ 11 : Nat) := by norm_num [UInt64.size]

theorem toNat_toUInt64_le {x : Float} {k : Nat} (hinf : unpacked x ≠ .infinity .positive)
    (h : ∀ q, Exactly x q → ⌊q⌋₊ ≤ k) : x.toUInt64.toNat ≤ k := by
  have hint : (toInt 0 (UInt64.size - 1) (unpacked x)).toNat ≤ k := by
    match hx : unpacked x with
    | .notANumber | .zero _ | .infinity .negative => exact Nat.zero_le k
    | .infinity .positive => exact absurd hx hinf
    | .finite .negative m e hm =>
      rw [toInt, roundToInt_eq]
      exact (Int.toNat_of_nonpos (Int.neg_nonpos_of_nonneg (Int.natCast_nonneg _))).trans_le
        (Nat.zero_le k)
    | .finite .positive m e hm =>
      rw [toInt, roundToInt_eq]
      exact h _ ⟨m, e, hm, hx, rfl⟩
  rw [toNat_toUInt64]
  exact (Nat.min_le_left _ _).trans hint

theorem unpacked_ne_infinity {n : UInt64} {x : Float} (h : ¬n.toFloat ≤ x) :
    unpacked x ≠ .infinity .positive := by
  intro hx
  refine h ?_
  change decide (UnpackedFloat.le (unpacked n.toFloat) (unpacked x)) = true
  rw [hx]
  obtain hzero | ⟨-, _, m, e, hm, hunpacked, -⟩ := toFloat_cases n
  · rw [hzero]
    rfl
  · rw [hunpacked]
    rfl

/-- A double that is not as large as a word becomes a smaller word, and so does what is not a
number. -/
theorem toUInt64_lt {n : UInt64} (hn : 0 < n.toNat) {x : Float} (h : ¬n.toFloat ≤ x) :
    x.toUInt64.toNat < n.toNat := by
  refine Nat.lt_of_le_pred hn (toNat_toUInt64_le (unpacked_ne_infinity h) fun q hq ↦ ?_)
  exact Nat.le_pred_of_lt ((Nat.floor_lt hq.pos.le).2 (hq.lt_of_not_le h))

/-- Whichever word it is compared with, it does not become one of the largest words. -/
theorem toUInt64_add_le {n : UInt64} {x : Float} (h : ¬n.toFloat ≤ x) :
    x.toUInt64.toNat + 2 ^ 11 ≤ UInt64.size := by
  have hle : x.toUInt64.toNat ≤ UInt64.size - 2 ^ 11 := by
    refine toNat_toUInt64_le (unpacked_ne_infinity h) fun q hq ↦ Nat.floor_le_of_le ?_
    refine hq.le_of_lt_size ((hq.lt_of_not_le h).trans ?_)
    exact_mod_cast n.toNat_lt
  exact Nat.add_le_of_le_sub (by decide) hle

/-! ## Not-a-number -/

section

variable {x : Float}

theorem isNaN_iff : x.isNaN ↔ unpacked x = .notANumber :=
  UnpackedFloat.isNaN_iff

theorem isNaN_sub (hx : x.isNaN) (y : Float) : (x - y).isNaN := by
  have hsub : x - y = ofUnpacked (UnpackedFloat.sub .binary64 (unpacked x) (unpacked y)) := rfl
  rw [isNaN_iff] at hx ⊢
  rw [hsub, hx]
  exact unpacked_ofUnpacked (u := .notANumber) trivial

theorem isNaN_div (hx : x.isNaN) (y : Float) : (x / y).isNaN := by
  have hdiv : x / y = ofUnpacked (UnpackedFloat.div .binary64 (unpacked x) (unpacked y)) := rfl
  rw [isNaN_iff] at hx ⊢
  rw [hdiv, hx]
  exact unpacked_ofUnpacked (u := .notANumber) trivial

theorem not_lt_of_isNaN (hx : x.isNaN) (y : Float) : ¬x < y := by
  change ¬decide (UnpackedFloat.lt (unpacked x) (unpacked y)) = true
  rw [isNaN_iff.1 hx]
  simp [UnpackedFloat.lt, UnpackedFloat.compare]

theorem not_le_of_isNaN (hx : x.isNaN) (y : Float) : ¬y ≤ x := by
  change ¬decide (UnpackedFloat.le (unpacked y) (unpacked x)) = true
  rw [isNaN_iff.1 hx]
  cases unpacked y <;> simp [UnpackedFloat.le, UnpackedFloat.compare]

theorem toUInt64_of_isNaN (hx : x.isNaN) : x.toUInt64 = 0 := by
  rw [← UInt64.toNat_inj, toNat_toUInt64, isNaN_iff.1 hx]
  rfl

end

end Double

end OrbitPlot
