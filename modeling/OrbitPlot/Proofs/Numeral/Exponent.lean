import OrbitPlot.Proofs.Float.Word
import OrbitPlot.Proofs.Numeral.RoundTrip

/-!
# Numbers that are written without a sign

A number that is not negative has a sign in its text only if the exponent there is negative. In the
texts of formulas this is so of numbers below a ten-thousandth. The bound has to be compared with
the number itself, while the exponent comes from the digits that are found for it, and these need
not have its value; but they are rounded to it, and rounding keeps the order.

## Main statement

`Numeral.not_mem_float`: which numbers have no minus in their text.
-/

namespace OrbitPlot

open Double Float.Model Float.Model.UnpackedFloat

/-! ## Places -/

/-- How many places before the point a decimal starts, or behind it if there are less than none. -/
def Decimal.place (d : Decimal) : Int :=
  (Numeral.significant d.digits).1.length + ((Numeral.significant d.digits).2 + d.exponent)

theorem Decimal.value_nonneg (d : Decimal) : 0 ≤ d.value :=
  mul_nonneg (Nat.cast_nonneg _) (zpow_nonneg (by norm_num) _)

theorem Decimal.value_lt (d : Decimal) : d.value < 10 ^ d.place := by
  have hten : (0 : ℚ) < 10 ^ d.exponent := zpow_pos (by norm_num) _
  have hlength : (Nat.toDigits 10 d.digits).length =
      (Numeral.significant d.digits).1.length + (Numeral.significant d.digits).2 := by
    conv_lhs => rw [Numeral.significant_eq]
    rw [List.length_append, List.length_replicate]
  have hdigits : d.digits < 10 ^ (Nat.toDigits 10 d.digits).length :=
    (Nat.length_toDigits_le_iff (by decide) (List.length_pos_iff.2 Nat.toDigits_ne_nil)).1 le_rfl
  rw [value, place, ← add_assoc, zpow_add₀ (by norm_num), ← Nat.cast_add, ← hlength, zpow_natCast]
  exact mul_lt_mul_of_pos_right (by exact_mod_cast hdigits) hten

namespace Numeral

variable {digits : Text}

theorem not_mem_digits (h : ∀ c ∈ digits, c.isDigit) : '-' ∉ digits :=
  fun hmem ↦ absurd (h '-' hmem) (by decide)

theorem Layout.not_mem_full (l : Layout) (h : ∀ c ∈ digits, c.isDigit) (place : Int) :
    '-' ∉ l.full digits place := by
  have hdigits := not_mem_digits h
  have htake : '-' ∉ digits.take place.toNat := fun hmem ↦ hdigits (List.mem_of_mem_take hmem)
  have hdrop : '-' ∉ digits.drop place.toNat := fun hmem ↦ hdigits (List.mem_of_mem_drop hmem)
  rw [full]
  split
  · simp [fraction, hdigits]
  · simp [fraction, htake, hdrop]

theorem not_mem_scientific (h : ∀ c ∈ digits, c.isDigit) {place : Int} (hplace : 0 < place) :
    '-' ∉ scientific digits place := by
  have hdigits := not_mem_digits h
  have htake : '-' ∉ digits.take 1 := fun hmem ↦ hdigits (List.mem_of_mem_take hmem)
  have htail : '-' ∉ digits.tail := fun hmem ↦ hdigits (List.mem_of_mem_tail hmem)
  obtain ⟨n, hn⟩ : ∃ n : Nat, place - 1 = n := ⟨(place - 1).toNat, by omega⟩
  have hexponent : '-' ∉ ofInt (place - 1) := by
    rw [hn]
    exact not_mem_digits isDigit_toDigits
  rw [scientific]
  split
  · simp [htake, hexponent]
  · simp [htake, htail, hexponent]

theorem not_mem_decimal {d : Decimal} (h : -3 ≤ d.place) : '-' ∉ plain.decimal d := by
  have hdecimal : plain.decimal d =
      if -3 ≤ d.place ∧ d.place ≤ 16 then plain.full (significant d.digits).1 d.place
      else scientific (significant d.digits).1 d.place := rfl
  rw [hdecimal]
  split
  · exact plain.not_mem_full isDigit_significant _
  · exact not_mem_scientific isDigit_significant (by omega)

end Numeral

/-! ## A ten-thousandth -/

theorem exists_exactly_tenThousandth : ∃ q, Exactly 1e-4 q :=
  ⟨_, 7378697629483821, -66, by decide, rfl, rfl⟩

/-- The digits of a number that is not below a ten-thousandth do not start further behind the
point. -/
theorem Decimal.le_place_shortest {x : Float} {q : ℚ} (hx : Exactly x q) (h : 1e-4 ≤ x) :
    -3 ≤ (shortest x).place := by
  by_contra hplace
  have hread := toFloat_shortest hx
  rw [toFloat_eq] at hread
  have hpos : 0 < (shortest x).value := by
    refine (value_nonneg _).lt_of_ne fun hzero ↦ ?_
    rw [← hzero, ofRat, if_pos rfl] at hread
    obtain ⟨m, e, hm, hunpacked, -⟩ := hx
    rw [← hread, unpacked_ofUnpacked (u := .zero .positive) trivial] at hunpacked
    cases hunpacked
  have hlt : (shortest x).value ≤ 10 ^ (-4 : Int) :=
    (value_lt _).le.trans (zpow_le_zpow_right₀ (by norm_num) (by omega))
  have hbound : (1e-4 : Float) = ofRat (10 ^ (-4 : Int)) := by
    rw [← one_mul (10 ^ (-4 : Int) : ℚ)]
    exact toFloat_eq ⟨1, -4⟩
  -- rounded, the digits are at most the bound, so they are rounded to it
  obtain ⟨r, hr⟩ := exists_exactly_tenThousandth
  have hle : q ≤ r := Exactly.mono hpos hlt (hread.symm ▸ hx) (hbound ▸ hr)
  have heq : x = 1e-4 := by
    rw [← hx.ofRat_eq, ← hr.ofRat_eq, le_antisymm hle ((hr.le_iff hx).1 h)]
  subst heq
  exact hplace (by decide +kernel)

/-! ## Texts -/

namespace Numeral

theorem not_mem_float {x : Float} (hx : Unsigned x) (h : x == 0 ∨ 1e-4 ≤ x) :
    '-' ∉ plain.float x := by
  have hnan : x.isNaN = (unpacked x).isNaN := rfl
  have hinf : x.isInf = (unpacked x).isInf := rfl
  have hzero : (x == 0) = (UnpackedFloat.compare (unpacked x) (unpacked 0) == some .eq) := rfl
  rw [unpacked_zero] at hzero
  rw [Layout.float, if_pos (congrArg _ (abs_eq_self hx).symm), Layout.magnitude, hnan, hinf, hzero]
  rcases unsigned_iff.1 hx with hu | hu | hu | ⟨m, e, hm, hu⟩
  · rw [hu]
    exact (by decide : '-' ∉ "NaN".toList)
  · rw [hu]
    exact (by decide : '-' ∉ "inf".toList)
  · rw [hu]
    exact (by decide : '-' ∉ "0.0".toList)
  · rw [hu] at hzero ⊢
    refine not_mem_decimal (Decimal.le_place_shortest ⟨m, e, hm, hu, rfl⟩ (h.resolve_left ?_))
    rw [hzero]
    exact Bool.false_ne_true

end Numeral

end OrbitPlot
