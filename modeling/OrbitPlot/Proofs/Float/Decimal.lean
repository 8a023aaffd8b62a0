import OrbitPlot.Numeral.Writing
import OrbitPlot.Proofs.Float.Arithmetic

/-!
# Doubles and decimals

A decimal becomes the double nearest to its value. So decimals of the same value become the same
double, and a decimal that is equal to a double becomes that double. In particular, whatever the
search for a short decimal finds, or if it finds nothing, it gives a decimal that reads back.

## Main statements

* `Decimal.toFloat_eq`: a decimal becomes the nearest double.
* `Decimal.toFloat_shortest`: the shortest decimal reads back.
-/

namespace OrbitPlot

open Double Float.Model Float.Model.UnpackedFloat

/-- The value of a decimal. -/
def Decimal.value (d : Decimal) : ℚ := d.digits * 10 ^ d.exponent

namespace Double

/-- The double nearest to a number that is not negative. -/
def ofRat (q : ℚ) : Float :=
  if q = 0 then ofUnpacked (.zero .positive) else ofUnpacked (nearest .positive q)

theorem ofRat_of_pos {q : ℚ} (hq : 0 < q) : ofRat q = ofUnpacked (nearest .positive q) :=
  if_neg hq.ne'

/-! ## Exact numbers -/

/-- A double is a positive number exactly. -/
def Exactly (x : Float) (q : ℚ) : Prop :=
  ∃ m e h, unpacked x = .finite .positive m e h ∧ (m * 2 ^ e : ℚ) = q

namespace Exactly

variable {x y : Float} {q r : ℚ}

theorem pos (hx : Exactly x q) : 0 < q := by
  obtain ⟨m, e, hm, -, rfl⟩ := hx
  exact natCast_mul_zpow_pos hm e

theorem mul (hx : Exactly x q) (hy : Exactly y r) : x * y = ofRat (q * r) := by
  rw [ofRat_of_pos (mul_pos hx.pos hy.pos)]
  obtain ⟨m₁, e₁, h₁, hx, rfl⟩ := hx
  obtain ⟨m₂, e₂, h₂, hy, rfl⟩ := hy
  exact mul_eq_nearest hx hy

theorem div (hx : Exactly x q) (hy : Exactly y r) : x / y = ofRat (q / r) := by
  rw [ofRat_of_pos (div_pos hx.pos hy.pos)]
  obtain ⟨m₁, e₁, h₁, hx, rfl⟩ := hx
  obtain ⟨m₂, e₂, h₂, hy, rfl⟩ := hy
  exact div_eq_nearest hx hy

theorem ofRat_eq (hx : Exactly x q) : ofRat q = x := by
  have hcanonical := (canonical_unpacked x).1
  rw [ofRat_of_pos hx.pos]
  obtain ⟨m, e, hm, hx, rfl⟩ := hx
  rw [hx] at hcanonical
  rw [nearest_of_canonical hcanonical, ← hx, ofUnpacked_unpacked]

end Exactly

/-! ## Whole numbers and powers of ten -/

section

variable {n : Nat} {e : Int} (hn : 0 < n)

/-- The form of `n * 2 ^ e`, whose mantissa has its leading one. -/
def normalForm (n : Nat) (hn : 0 < n) (e : Int) : UnpackedFloat :=
  .finite .positive (n * 2 ^ (52 - n.log2)) (e - (52 - n.log2 : Nat))
    (Nat.mul_pos hn (Nat.two_pow_pos _))

theorem canonical_normalForm (hlt : n < 2 ^ 53) (he : -1022 ≤ e) :
    Canonical (normalForm n hn e) := by
  have hlog : n.log2 < 53 := (Nat.log2_lt hn.ne').2 hlt
  have hpow (k : Nat) (hk : n.log2 + k = 52) : 2 ^ 52 ≤ n * 2 ^ k ∧ n * 2 ^ k < 2 ^ 53 := by
    rw [← hk, Nat.pow_add, show 53 = n.log2 + 1 + k by omega, Nat.pow_add]
    exact ⟨Nat.mul_le_mul_right _ (Nat.log2_self_le hn.ne'),
      Nat.mul_lt_mul_of_pos_right Nat.lt_log2_self (Nat.two_pow_pos k)⟩
  obtain ⟨hle, hlt⟩ := hpow (52 - n.log2) (by omega)
  exact ⟨hlt, .inr ⟨by omega, hle⟩⟩

theorem exactly_normalForm (hlt : n < 2 ^ 53) (he : -1022 ≤ e) (he' : e ≤ 971) :
    Exactly (ofUnpacked (normalForm n hn e)) (n * 2 ^ e) := by
  refine ⟨n * 2 ^ (52 - n.log2), e - (52 - n.log2 : Nat),
    Nat.mul_pos hn (Nat.two_pow_pos _), ?_, ?_⟩
  · rw [unpacked_ofUnpacked (canonical_normalForm hn hlt he)]
    exact if_pos (by omega)
  · rw [Nat.cast_mul, Nat.cast_pow, Nat.cast_ofNat, mul_assoc, ← zpow_natCast,
      ← zpow_add₀ two_ne_zero, add_sub_cancel]

/-- A word becomes the double nearest to it. -/
theorem toFloat_eq_ofRat {n : UInt64} (hn : 0 < n.toNat) : n.toFloat = ofRat n.toNat := by
  have hpos : (0 : ℚ) < n.toNat := by exact_mod_cast hn
  have hone : (n.toNat : ℚ) = n.toNat * 2 ^ (0 : Int) := by rw [zpow_zero, mul_one]
  rw [ofRat_of_pos hpos, hone, ← normalize_natCast (z := .positive) hn]
  rfl

theorem exactly_toFloat (hn : 0 < n) (hlt : n < 2 ^ 53) : Exactly n.toUInt64.toFloat n := by
  have hnat : n.toUInt64.toNat = n := Nat.mod_eq_of_lt (hlt.trans (by decide))
  have hexact : Exactly (ofUnpacked (normalForm n hn 0)) (n * 2 ^ (0 : Int)) :=
    exactly_normalForm hn hlt (by decide) (by decide)
  rw [zpow_zero, mul_one] at hexact
  rwa [toFloat_eq_ofRat (hnat.symm ▸ hn), hnat, hexact.ofRat_eq]

end

/-- The table of powers of ten, as powers of five with another exponent. -/
private theorem powersOfTen_eq (e : Fin Float.exactlyRepresentablePowersOfTen.size) :
    5 ^ e.val < 2 ^ 53 ∧ Float.exactlyRepresentablePowersOfTen[e] =
      ofUnpacked (normalForm (5 ^ e.val) (Nat.pow_pos (by decide)) e) := by
  revert e
  decide +kernel

theorem exactly_powerOfTen {e : Nat} (he : e < Float.exactlyRepresentablePowersOfTen.size) :
    Exactly Float.exactlyRepresentablePowersOfTen[e] (10 ^ e) := by
  obtain ⟨hlt, heq⟩ := powersOfTen_eq ⟨e, he⟩
  have hsize : e < 23 := he
  have hexact : Exactly (ofUnpacked (normalForm (5 ^ e) _ e)) ((5 ^ e : Nat) * 2 ^ (e : Int)) :=
    exactly_normalForm (Nat.pow_pos (by decide)) hlt (by omega) (by omega)
  rw [← heq] at hexact
  refine (congrArg _ ?_).mp hexact
  rw [Nat.cast_pow, zpow_natCast, ← mul_pow]
  norm_num

/-! ## Decimals -/

theorem two_zpow_le_ten_zpow {e : Int} (he : 0 ≤ e) : (2 : ℚ) ^ e ≤ 10 ^ e :=
  zpow_le_zpow_left₀ he zero_le_two (by norm_num)

theorem ten_zpow_le_two_zpow {e : Int} (he : e ≤ 0) : (10 : ℚ) ^ e ≤ 2 ^ e := by
  rw [← neg_neg e, zpow_neg, zpow_neg _ (-e)]
  exact inv_anti₀ (zpow_pos two_pos _) (two_zpow_le_ten_zpow (by omega))

/-- What is left to the model of doubles when digits or exponent are many. -/
theorem ofUnpacked_ofScientific (n : Nat) (e : Int) :
    ofUnpacked (UnpackedFloat.ofScientific .binary64 n e) = ofRat (n * 10 ^ e) := by
  rcases n.eq_zero_or_pos with rfl | hn
  · rw [Nat.cast_zero, zero_mul]
    rfl
  have hn' : (0 : ℚ) < n := by exact_mod_cast hn
  have hpos : (0 : ℚ) < n * 10 ^ e := mul_pos hn' (zpow_pos (by norm_num) e)
  rw [ofRat_of_pos hpos, UnpackedFloat.ofScientific, dif_neg hn.ne']
  by_cases hbig : e > 2 ^ 11
  · have hle : (2 : ℚ) ^ (1024 : Int) ≤ n * 10 ^ e := calc
      (2 : ℚ) ^ (1024 : Int) ≤ 2 ^ e := zpow_le_zpow_right₀ one_le_two (by omega)
      _ ≤ 10 ^ e := two_zpow_le_ten_zpow (by omega)
      _ ≤ n * 10 ^ e :=
        le_mul_of_one_le_left (zpow_nonneg (by norm_num) e) (by exact_mod_cast hn)
    rw [if_pos hbig, ← ofUnpacked_saturate (canonical_nearest _ hpos), saturate_nearest_of_le hle]
  rw [if_neg hbig]
  by_cases hsmall : e < -(2 ^ 11 + n.log2)
  · have hlt : (n * 10 ^ e : ℚ) < 2 ^ (-1075 : Int) := calc
      (n * 10 ^ e : ℚ) ≤ n * 2 ^ e :=
        mul_le_mul_of_nonneg_left (ten_zpow_le_two_zpow (by omega)) hn'.le
      _ < 2 ^ (n.log2 + e + 1) := lt_zpow_log2 n e
      _ ≤ 2 ^ (-1075 : Int) := zpow_le_zpow_right₀ one_le_two (by omega)
    rw [if_pos hsmall, nearest_of_lt hpos hlt]
  rw [if_neg hsmall]
  by_cases he : 0 ≤ e
  · obtain ⟨k, rfl⟩ := Int.eq_ofNat_of_zero_le he
    rw [if_pos he, mul_eq]
    · congr 2
      rw [Nat.shiftLeft_eq, Nat.cast_mul, Nat.cast_pow, Nat.cast_pow, zpow_neg, zpow_natCast,
        zpow_natCast, zpow_zero, mul_one, Int.toNat_natCast]
      exact congrArg (· * _) (mul_inv_cancel_right₀ (pow_ne_zero _ two_ne_zero) _)
    · refine .inl (le_trans ?_ (Nat.le_mul_of_pos_right _ (Nat.pow_pos (by decide))))
      rw [Nat.shiftLeft_eq]
      exact le_trans (by decide) (Nat.le_mul_of_pos_left _ hn)
  · obtain ⟨k, rfl⟩ : ∃ k : Nat, e = -k := ⟨(-e).toNat, by omega⟩
    rw [if_neg he, div_eq]
    congr 2
    rw [neg_neg, Int.toNat_natCast, zpow_zero, mul_one, mul_one, Nat.cast_pow, zpow_neg,
      zpow_natCast, div_eq_mul_inv]
    rfl

theorem ofScientific_eq (n : Nat) (s : Bool) (e : Nat) :
    Float.ofScientific n s e = ofRat (n * 10 ^ (if s then -e else e : Int)) := by
  unfold Float.ofScientific
  split
  · next h =>
    have hpower := exactly_powerOfTen (e := e) (Nat.lt_succ_of_le h.2)
    rcases n.eq_zero_or_pos with rfl | hn
    · have hzero : unpacked (0 : Nat).toUInt64.toFloat = .zero .positive :=
        unpacked_ofUnpacked (u := .zero .positive) trivial
      obtain ⟨m, k, hm, hpower, -⟩ := hpower
      rw [Nat.cast_zero, zero_mul]
      cases s with
      | false =>
        exact congrArg₂ (fun u v ↦ ofUnpacked (UnpackedFloat.mul .binary64 u v)) hzero hpower
      | true =>
        exact congrArg₂ (fun u v ↦ ofUnpacked (UnpackedFloat.div .binary64 u v)) hzero hpower
    · have hexact := exactly_toFloat hn h.1
      cases s with
      | false => exact hexact.mul hpower
      | true =>
        refine (hexact.div hpower).trans (congrArg _ ?_)
        rw [if_pos rfl, zpow_neg, zpow_natCast, div_eq_mul_inv]
  · cases s with
    | false => exact ofUnpacked_ofScientific n e
    | true =>
      refine (ofUnpacked_ofScientific n (Int.negOfNat e)).trans ?_
      rw [Int.negOfNat_eq]
      rfl

end Double

/-- A decimal becomes the double nearest to its value. -/
theorem Decimal.toFloat_eq (d : Decimal) : d.toFloat = ofRat d.value := by
  obtain ⟨digits, e | e⟩ := d
  · exact ofScientific_eq digits false e
  · exact ofScientific_eq digits true (e + 1)

theorem Decimal.unsigned_toFloat (d : Decimal) : Unsigned d.toFloat := by
  have hvalue : 0 ≤ d.value := mul_nonneg (Nat.cast_nonneg _) (zpow_nonneg (by norm_num) _)
  rw [toFloat_eq]
  rcases hvalue.eq_or_lt with h | h
  · rw [← h]
    exact unsigned_ofUnpacked (u := .zero .positive) trivial nofun
  · rw [ofRat_of_pos h]
    refine unsigned_ofUnpacked (canonical_nearest _ h) ?_
    rw [sign?_nearest]
    nofun

/-! ## Decimals that read back -/

theorem Binary.ofFloat_eq {x : Float} {s : Sign} {m : Nat} {e : Int} {hm : 0 < m}
    (hx : unpacked x = .finite s m e hm) : Binary.ofFloat x = ⟨m, e⟩ := by
  obtain ⟨s', k, f, hb⟩ := exists_packComponents .binary64 x.toModel.toBits.toBitVec
  have hbits : x.toBits.toNat = (s'.toBitVec.toNat * 2 ^ 11 + k.toNat) * 2 ^ 52 + f.toNat := by
    rw [← toNat_packComponents, ← hb]
    rfl
  have hf : f.toNat < 2 ^ 52 := f.isLt
  have hk : k.toNat < 2 ^ 11 := k.isLt
  have hfraction : x.toBits.toNat % leadingOne = f.toNat := by
    rw [hbits, leadingOne]
    omega
  have hstored : x.toBits.toNat / leadingOne % exponents = k.toNat := by
    rw [hbits, leadingOne, exponents]
    omega
  rw [unpacked, Float.Model.unpack, hb, unpack_packComponents] at hx
  rw [ofFloat, hfraction, hstored]
  split at hx
  · split at hx <;> cases hx
  · split at hx
    · next hsub =>
      split at hx
      · cases hx
      · cases hx
        rw [hsub]
        rfl
    · next hsub =>
      have hzero : k.toNat ≠ 0 := fun h ↦ hsub (BitVec.eq_of_toNat_eq h)
      cases hx
      rw [if_neg hzero, Nat.add_comm]
      rfl

theorem Binary.value_toDecimal (b : Binary) : b.toDecimal.value = b.mantissa * 2 ^ b.exponent := by
  obtain ⟨m, e | e⟩ := b
  · change ((m * 2 ^ e : Nat) : ℚ) * 10 ^ (0 : Int) = m * 2 ^ (e : Int)
    rw [Nat.cast_mul, Nat.cast_pow, Nat.cast_ofNat, zpow_zero, mul_one, zpow_natCast]
  · change ((m * 5 ^ (e + 1) : Nat) : ℚ) * 10 ^ (Int.negSucc e) = m * 2 ^ (Int.negSucc e)
    have hten : (10 : ℚ) ^ (e + 1) = 5 ^ (e + 1) * 2 ^ (e + 1) := by
      rw [← mul_pow]
      norm_num
    rw [Nat.cast_mul, Nat.cast_pow, Nat.cast_ofNat, zpow_negSucc, zpow_negSucc, hten, mul_inv,
      mul_assoc, mul_inv_cancel_left₀ (pow_ne_zero _ (by norm_num))]

namespace Decimal

variable {x : Float} {q : ℚ}

theorem toFloat_toDecimal (hx : Exactly x q) : (Binary.ofFloat x).toDecimal.toFloat = x := by
  have hexact := hx.ofRat_eq
  obtain ⟨m, e, hm, hx, rfl⟩ := hx
  rw [toFloat_eq, Binary.value_toDecimal, Binary.ofFloat_eq hx, hexact]

/-- The shortest decimal reads back to the number it was made for. -/
theorem toFloat_shortest (hx : Exactly x q) : (shortest x).toFloat = x := by
  rw [shortest]
  cases hfound : (List.range 21).findSome? fun i : Nat ↦ onGrid? x (coarsest (.ofFloat x) - i) with
  | none => exact toFloat_toDecimal hx
  | some d =>
    obtain ⟨_, _, hd⟩ := List.exists_of_findSome?_eq_some hfound
    exact toFloat_of_onGrid hd

end Decimal

end OrbitPlot
