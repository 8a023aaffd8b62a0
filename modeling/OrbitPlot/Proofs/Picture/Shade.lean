import OrbitPlot.Picture.StopRule
import OrbitPlot.Proofs.Float.Value

/-!
# Shades by thirds

Where sequences escape, the color tells into which third of the cap the number of steps falls. The
ends of the thirds are doubles, and need not be exact; but a number of steps is a whole number, and
so it is at least a third away from an end that it does not meet. As long as less than that is lost
in rounding, the shades change exactly at the thirds.

## Main statements

* `Double.lt_toNearest_div_three_iff`: comparing a whole number with a rounded third of another.
* `StopRule.escapeShade_eq`: where the shades change.
* `StopRule.color_escape_of_le`: the colors of sequences that escape, and of those that do not.
-/

namespace OrbitPlot

namespace Double

/-- The third of a whole number may be rounded, but not beyond another whole number or onto it. -/
theorem lt_toNearest_div_three_iff {n k : ℕ} (hn : n ≤ 2 ^ 52) (hk : k ≤ 2 ^ 53) :
    (k : ℚ) < toNearest (n / 3) ↔ 3 * k < n := by
  constructor
  · intro hlt
    by_contra hle
    have hle : (n : ℚ) ≤ 3 * k := by exact_mod_cast not_lt.1 hle
    exact hlt.not_ge ((representable_natCast hk).toNearest_le (by linarith))
  · intro hlt
    have hgap : 3 * (k : ℚ) + 1 ≤ n := by exact_mod_cast hlt
    have hmost : (n : ℚ) ≤ 2 ^ 52 := by exact_mod_cast hn
    have hunit : leastUnit ≤ 1 / 4 := by
      have hpow := zpow_le_zpow_right₀ (one_le_two (α := ℚ)) (show (-1074 : ℤ) ≤ -2 by decide)
      exact hpow.trans_eq (by norm_num)
    have hnonneg : (0 : ℚ) ≤ n / 3 := by positivity
    -- a sixth is lost at most, and an eighth more where the least unit counts
    have hloss := abs_toNearest_sub_le ((n : ℚ) / 3)
    rw [abs_of_nonneg hnonneg] at hloss
    linarith [(abs_le.1 hloss).1]

theorem toFloat_lt_div_three_iff {x : Float} {n : ℕ} {k : UInt64} (hx : x.isFinite)
    (hvalue : value x = n) (hn : n ≤ 2 ^ 52) (hk : k.toNat ≤ 2 ^ 53) :
    k.toFloat < x / 3 ↔ 3 * k.toNat < n := by
  have hthree : (3 : Float).isFinite ∧ value 3 = 3 := by decide +kernel
  have hquotient := isRounded_div hx hthree.1 (by rw [hthree.2]; norm_num)
  rw [hvalue, hthree.2] at hquotient
  have hfinite : (x / 3).isFinite := by
    have hmost : (n : ℚ) ≤ 2 ^ 52 := by exact_mod_cast hn
    have hnonneg : (0 : ℚ) ≤ n / 3 := by positivity
    have hunit := two_pow_le_greatestUnit
    rw [hquotient.isFinite_iff, abs_of_nonneg hnonneg, overflow]
    linarith
  rw [lt_iff (isFinite_toFloat k) hfinite, hquotient.value_eq hfinite, value_toFloat_of_le hk]
  exact lt_toNearest_div_three_iff hn hk

end Double

/-- Every channel of a color is at most as light as that of another. -/
structure Color.NoLighter (c d : Color) : Prop where
  red_le : c.red ≤ d.red
  green_le : c.green ≤ d.green
  blue_le : c.blue ≤ d.blue

namespace StopRule

open Double

/-- The shade for a number of steps, by thirds of the cap: lightest at once, and none at all beyond
the cap. -/
def band (cap count : ℕ) : UInt8 :=
  if cap < count then 0
  else if count = 0 then 255
  else if 3 * count < cap then 192
  else if 3 * count < 2 * cap then 128
  else 64

theorem band_le_band (cap : ℕ) {count count' : ℕ} (hle : count ≤ count') :
    band cap count' ≤ band cap count := by
  unfold band
  grind

variable {cap count : UInt64}

/-- The shades change exactly at the thirds of the cap. -/
theorem escapeShade_eq (hcap : cap.toNat ≤ 2 ^ 51) (hcount : count.toNat ≤ cap.toNat) :
    escapeShade count cap = .gray (band cap.toNat count.toNat) := by
  have hk : count.toNat ≤ 2 ^ 53 := hcount.trans (hcap.trans (by norm_num))
  have hvalue : value cap.toFloat = cap.toNat := value_toFloat_of_le (hcap.trans (by norm_num))
  have hfinite := isFinite_toFloat cap
  -- doubling the cap loses nothing
  have htwo : (2 : Float).isFinite ∧ value 2 = 2 := by decide +kernel
  have hdouble := isRounded_mul hfinite htwo.1
  have htwice : value cap.toFloat * value 2 = (2 * cap.toNat : ℕ) := by
    rw [hvalue, htwo.2]
    push_cast
    ring
  rw [htwice] at hdouble
  have hdoubleFinite : (cap.toFloat * 2).isFinite := by
    have hmost : ((2 * cap.toNat : ℕ) : ℚ) ≤ 2 ^ 52 := by exact_mod_cast (by omega)
    have hunit := two_pow_le_greatestUnit
    rw [hdouble.isFinite_iff, Nat.abs_cast, overflow]
    linarith
  have hdoubleValue : value (cap.toFloat * 2) = (2 * cap.toNat : ℕ) := by
    rw [hdouble.value_eq hdoubleFinite]
    exact (representable_natCast (by omega)).toNearest_eq
  have hzero : count = 0 ↔ count.toNat = 0 := by rw [← UInt64.toNat_inj, UInt64.toNat_zero]
  simp only [escapeShade, toFloat_lt_div_three_iff hfinite hvalue (by omega) hk,
    toFloat_lt_div_three_iff hdoubleFinite hdoubleValue (by omega) hk, hzero, band,
    if_neg (not_lt.2 hcount)]
  split_ifs <;> rfl

theorem color_escape_eq (hcap : cap.toNat ≤ 2 ^ 51) (z : Point) (count : UInt64) :
    color .escape z count cap = .gray (band cap.toNat count.toNat) := by
  by_cases hlt : cap < count
  · have hband : band cap.toNat count.toNat = 0 := if_pos (UInt64.lt_iff_toNat_lt.1 hlt)
    rw [color, if_pos hlt, hband]
    rfl
  · rw [color, if_neg hlt]
    exact escapeShade_eq hcap (UInt64.le_iff_toNat_le.1 (UInt64.not_lt.1 hlt))

/-- **The shades are exact thirds of the cap.** Whatever the last point of a sequence and however
many steps it took, with a cap of `2 ^ 51` or less its color is black if it never escaped, white if
it escaped at once, and otherwise a gray for the third of the cap into which the number of its steps
falls, exactly. With more steps the color does not become lighter in any channel. -/
theorem color_escape_of_le (hcap : cap.toNat ≤ 2 ^ 51) :
    (∀ z count,
      (cap.toNat < count.toNat → color .escape z count cap = .black) ∧
      (count.toNat = 0 → color .escape z count cap = .white) ∧
      (0 < count.toNat → 3 * count.toNat < cap.toNat →
        color .escape z count cap = ⟨192, 192, 192⟩) ∧
      (cap.toNat ≤ 3 * count.toNat → 3 * count.toNat < 2 * cap.toNat →
        color .escape z count cap = ⟨128, 128, 128⟩) ∧
      (2 * cap.toNat ≤ 3 * count.toNat → 0 < count.toNat → count.toNat ≤ cap.toNat →
        color .escape z count cap = ⟨64, 64, 64⟩)) ∧
    ∀ z z' count count', count ≤ count' →
      (color .escape z' count' cap).NoLighter (color .escape z count cap) := by
  refine ⟨fun z count ↦ ?_, fun z z' count count' hle ↦ ?_⟩
  · have hshade {shade : UInt8} (h : band cap.toNat count.toNat = shade) :
        color .escape z count cap = .gray shade := h ▸ color_escape_eq hcap z count
    unfold band at hshade
    refine ⟨fun hlt ↦ ?_, fun hzero ↦ ?_, fun hpos hlt ↦ ?_, fun hle hlt ↦ ?_,
      fun hle hpos hcount ↦ ?_⟩
    · exact hshade (if_pos hlt)
    · exact hshade (by rw [if_neg (by omega), if_pos hzero])
    · exact hshade (by rw [if_neg (by omega), if_neg (by omega), if_pos hlt])
    · exact hshade (by rw [if_neg (by omega), if_neg (by omega), if_neg (by omega), if_pos hlt])
    · exact hshade (by
        rw [if_neg (by omega), if_neg (by omega), if_neg (by omega), if_neg (by omega)])
  · have hband := band_le_band cap.toNat (UInt64.le_iff_toNat_le.1 hle)
    rw [color_escape_eq hcap, color_escape_eq hcap]
    exact ⟨hband, hband, hband⟩

/-- At the ends of the thirds of the greatest such cap that has exact ones, and of one that has
not. -/
theorem color_escape_of_le_of_thirds :
    color .escape .zero 750599937895082 2251799813685246 = ⟨128, 128, 128⟩ ∧
      color .escape .zero 750599937895082 2251799813685247 = ⟨192, 192, 192⟩ ∧
      (color .escape .zero 3 2).NoLighter (color .escape .zero 2 2) := by
  refine ⟨?_, ?_, ?_⟩
  · exact ((color_escape_of_le (by decide)).1 _ _).2.2.2.1 (by decide) (by decide)
  · exact ((color_escape_of_le (by decide)).1 _ _).2.2.1 (by decide) (by decide)
  · exact (color_escape_of_le (by decide)).2 _ _ _ _ (by decide)

end StopRule

end OrbitPlot
