import OrbitPlot.Proofs.Float.Nearest

/-!
# Signs of doubles

Doubles have two zeros, which are equal as numbers. A formula never meets the negative one, because
no operation makes it unless it is there already: a sum of numbers is not rounded to zero unless it
is zero, and is then the positive zero; a product without negative factors is not negative.

## Main statements

* `Unsigned.mul`, `Unsigned.abs`: numbers without a sign.
* `sub_eq_negZero`, `add_eq_negZero`: where a negative zero may come from.
* `eq_of_beq`: numbers that are equal as numbers are the same, negative zeros apart.
-/

namespace OrbitPlot

namespace Double

open Float.Model Float.Model.UnpackedFloat

/-! ## Operations on unpacked forms -/

theorem Canonical.le_exponent {s : Sign} {m : Nat} {e : Int} {hm : 0 < m}
    (h : Canonical (.finite s m e hm)) : -1074 ≤ e :=
  h.2.elim (fun h ↦ h.ge) fun h ↦ h.1

theorem ofUnpacked_saturate {u : UnpackedFloat} (h : Canonical u) :
    ofUnpacked (saturate u) = ofUnpacked u := by
  rw [← unpacked_ofUnpacked h, ofUnpacked_unpacked]

section

variable {x y : Float} {s₁ s₂ : Sign} {m₁ m₂ : Nat} {e₁ e₂ : Int} {h₁ : 0 < m₁} {h₂ : 0 < m₂}

/-- The product of two numbers is the double nearest to their exact product. -/
theorem mul_eq_nearest (hx : unpacked x = .finite s₁ m₁ e₁ h₁)
    (hy : unpacked y = .finite s₂ m₂ e₂ h₂) :
    x * y = ofUnpacked (nearest (s₁ * s₂) (m₁ * 2 ^ e₁ * (m₂ * 2 ^ e₂))) := by
  have hcx := (canonical_unpacked x).1
  have hcy := (canonical_unpacked y).1
  rw [hx] at hcx
  rw [hy] at hcy
  rw [← mul_eq h₁ h₂, ← hx, ← hy]
  · rfl
  · rcases hcx.2 with rfl | ⟨-, hm⟩
    · rcases hcy.2 with rfl | ⟨-, hm⟩
      · exact .inr (by decide)
      · exact .inl (hm.trans (Nat.le_mul_of_pos_left _ h₁))
    · exact .inl (hm.trans (Nat.le_mul_of_pos_right _ h₂))

theorem div_eq_nearest (hx : unpacked x = .finite s₁ m₁ e₁ h₁)
    (hy : unpacked y = .finite s₂ m₂ e₂ h₂) :
    x / y = ofUnpacked (nearest (s₁ / s₂) (m₁ * 2 ^ e₁ / (m₂ * 2 ^ e₂))) := by
  rw [← div_eq h₁ h₂, ← hx, ← hy]
  rfl

end

/-! ## Signs -/

/-- The sign of a form, if it has one. -/
def sign? : UnpackedFloat → Option Sign
  | .notANumber => none
  | .infinity s => some s
  | .zero s => some s
  | .finite s _ _ _ => some s

/-- No number below zero, and not the negative zero. -/
def Unsigned (x : Float) : Prop := sign? (unpacked x) ≠ some .negative

/-- The zero with a sign. -/
def negZero : Float := -0

theorem unpacked_negZero : unpacked negZero = .zero .negative := by
  have hpacked : negZero = ofUnpacked (.zero .negative) := by decide +kernel
  rw [hpacked]
  exact unpacked_ofUnpacked (u := .zero .negative) trivial

theorem eq_negZero_iff {x : Float} : x = negZero ↔ unpacked x = .zero .negative := by
  rw [← unpacked_negZero, unpacked_injective.eq_iff]

theorem sign?_saturate (u : UnpackedFloat) : sign? (saturate u) = sign? u := by
  cases u with
  | finite s m e hm =>
    rw [saturate]
    split <;> rfl
  | _ => rfl

theorem sign?_nearest (s : Sign) (q : ℚ) : sign? (nearest s q) = some s := by
  have hmantissa (n : Nat) (e : Int) : sign? (ofMantissa s n e) = some s := by
    rw [ofMantissa]
    split <;> rfl
  rw [nearest]
  split
  · exact hmantissa _ _
  · exact hmantissa _ _

theorem unsigned_ofUnpacked {u : UnpackedFloat} (hc : Canonical u) (h : sign? u ≠ some .negative) :
    Unsigned (ofUnpacked u) := by
  rwa [Unsigned, unpacked_ofUnpacked hc, sign?_saturate]

theorem Unsigned.ne_negZero {x : Float} (h : Unsigned x) : x ≠ negZero := by
  rintro rfl
  exact h (congrArg sign? unpacked_negZero)

theorem unsigned_iff {x : Float} :
    Unsigned x ↔ unpacked x = .notANumber ∨ unpacked x = .infinity .positive ∨
      unpacked x = .zero .positive ∨ ∃ m e h, unpacked x = .finite .positive m e h := by
  rw [Unsigned]
  constructor
  · intro h
    cases hx : unpacked x with
    | notANumber => exact .inl rfl
    | infinity s =>
      cases s with
      | negative => rw [hx] at h; exact absurd rfl h
      | positive => exact .inr (.inl rfl)
    | zero s =>
      cases s with
      | negative => rw [hx] at h; exact absurd rfl h
      | positive => exact .inr (.inr (.inl rfl))
    | finite s m e hm =>
      cases s with
      | negative => rw [hx] at h; exact absurd rfl h
      | positive => exact .inr (.inr (.inr ⟨m, e, hm, rfl⟩))
  · rintro (hx | hx | hx | ⟨m, e, hm, hx⟩) <;> rw [hx] <;> nofun

/-! ## Sums and differences of numbers -/

section

variable {m : Nat} {e : Int} {s z : Sign}

theorem normalize_natCast (hm : 0 < m) :
    normalize .binary64 m e z = nearest .positive (m * 2 ^ e) := by
  rw [← round_eq hm, UnpackedFloat.normalize, Int.compare_eq_gt.2 (by omega)]
  rfl

theorem normalize_neg_natCast (hm : 0 < m) :
    normalize .binary64 (-m) e z = nearest .negative (m * 2 ^ e) := by
  rw [← round_eq hm, UnpackedFloat.normalize, Int.compare_eq_lt.2 (by omega), neg_neg]
  rfl

theorem normalize_cases (n : Int) :
    normalize .binary64 n e z = .zero z ∨
      ∃ (s : Sign) (m : Nat), 0 < m ∧ normalize .binary64 n e z = nearest s (m * 2 ^ e) := by
  obtain ⟨m, rfl | rfl⟩ := n.eq_nat_or_neg
  · rcases m.eq_zero_or_pos with rfl | hm
    · exact .inl rfl
    · exact .inr ⟨.positive, m, hm, normalize_natCast hm⟩
  · rcases m.eq_zero_or_pos with rfl | hm
    · exact .inl rfl
    · exact .inr ⟨.negative, m, hm, normalize_neg_natCast hm⟩

theorem canonical_normalize (n : Int) : Canonical (normalize .binary64 n e z) := by
  rcases normalize_cases n with h | ⟨s, m, hm, h⟩
  · rw [h]
    trivial
  · rw [h]
    exact canonical_nearest s (natCast_mul_zpow_pos hm e)

/-- What is counted in units of the least last place, or of a larger one, is not rounded to zero. -/
theorem normalize_ne_zero (he : -1074 ≤ e) (n : Int) :
    normalize .binary64 n e .positive ≠ .zero .negative := by
  rcases normalize_cases n with h | ⟨s, m, hm, h⟩
  · rw [h]
    rintro ⟨⟩
  · have hle : (2 : ℚ) ^ (-1074 : Int) ≤ m * 2 ^ e := by
      refine (zpow_le_zpow_right₀ one_le_two he).trans ?_
      exact le_mul_of_one_le_left (zpow_nonneg zero_le_two e) (by exact_mod_cast hm)
    rw [h]
    exact nearest_ne_zero hle

end

theorem ofUnpacked_ne_negZero {u : UnpackedFloat} (hc : Canonical u) (h : u ≠ .zero .negative) :
    ofUnpacked u ≠ negZero := by
  rw [Ne, eq_negZero_iff, unpacked_ofUnpacked hc]
  cases u with
  | finite s m e hm =>
    rw [saturate]
    split <;> rintro ⟨⟩
  | _ => exact h

theorem canonical_add {u v : UnpackedFloat} (hu : Canonical u) (hv : Canonical v) :
    Canonical (UnpackedFloat.add .binary64 u v) := by
  unfold UnpackedFloat.add
  split
  · trivial
  · trivial
  · split <;> trivial
  · trivial
  · trivial
  · split <;> trivial
  · exact hv
  · exact hu
  · exact canonical_normalize _

theorem canonical_sub {u v : UnpackedFloat} (hu : Canonical u) (hv : Canonical v) :
    Canonical (UnpackedFloat.sub .binary64 u v) := by
  unfold UnpackedFloat.sub
  split
  · trivial
  · trivial
  · split <;> trivial
  · trivial
  · trivial
  · split <;> trivial
  · exact hv
  · exact hu
  · exact canonical_normalize _

theorem eq_zero_of_sub {u v : UnpackedFloat} (hu : Canonical u) (hv : Canonical v)
    (h : UnpackedFloat.sub .binary64 u v = .zero .negative) : u = .zero .negative := by
  unfold UnpackedFloat.sub at h
  split at h
  · cases h
  · cases h
  · split at h <;> cases h
  · cases h
  · cases h
  · split at h <;> cases h
    rfl
  · cases h
  · exact h
  · exact absurd h (normalize_ne_zero (le_min hu.le_exponent hv.le_exponent) _)

theorem eq_zero_of_add {u v : UnpackedFloat} (hu : Canonical u) (hv : Canonical v)
    (h : UnpackedFloat.add .binary64 u v = .zero .negative) :
    u = .zero .negative ∧ v = .zero .negative := by
  unfold UnpackedFloat.add at h
  split at h
  · cases h
  · cases h
  · split at h <;> cases h
  · cases h
  · cases h
  · next s₁ s₂ =>
    cases s₁ <;> cases s₂ <;> cases h
    exact ⟨rfl, rfl⟩
  · next hne => exact absurd h (hne _)
  · next hne => exact absurd h (hne _)
  · exact absurd h (normalize_ne_zero (le_min hu.le_exponent hv.le_exponent) _)

/-! ## Operations and signs -/

section

variable {x y : Float}

theorem Unsigned.abs (x : Float) : Unsigned x.abs := by
  have habs : x.abs = ofUnpacked (UnpackedFloat.abs (unpacked x)) := rfl
  have hc := (canonical_unpacked x).1
  rw [habs]
  cases hu : unpacked x with
  | finite s m e hm =>
    rw [hu] at hc
    exact unsigned_ofUnpacked hc nofun
  | _ => exact unsigned_ofUnpacked trivial nofun

theorem Unsigned.mul (hx : Unsigned x) (hy : Unsigned y) : Unsigned (x * y) := by
  have hmul : x * y = ofUnpacked (UnpackedFloat.mul .binary64 (unpacked x) (unpacked y)) := rfl
  rcases unsigned_iff.1 hx with hx | hx | hx | ⟨m₁, e₁, h₁, hx⟩ <;>
    rcases unsigned_iff.1 hy with hy | hy | hy | ⟨m₂, e₂, h₂, hy⟩
  -- only the product of two finite numbers other than zero is worked out
  case inr.inr.inr.inr.inr.inr =>
    rw [mul_eq_nearest hx hy]
    have hpos := mul_pos (natCast_mul_zpow_pos h₁ e₁) (natCast_mul_zpow_pos h₂ e₂)
    refine unsigned_ofUnpacked (canonical_nearest _ hpos) ?_
    rw [sign?_nearest]
    nofun
  all_goals
    rw [hmul, hx, hy]
    exact unsigned_ofUnpacked trivial nofun

/-- A difference is the negative zero only if its left part is. -/
theorem sub_eq_negZero (h : x - y = negZero) : x = negZero := by
  have hx := (canonical_unpacked x).1
  have hy := (canonical_unpacked y).1
  refine eq_negZero_iff.2 (eq_zero_of_sub hx hy (by_contra fun hne ↦ ?_))
  exact ofUnpacked_ne_negZero (canonical_sub hx hy) hne h

theorem add_eq_negZero (h : x + y = negZero) : x = negZero ∧ y = negZero := by
  have hx := (canonical_unpacked x).1
  have hy := (canonical_unpacked y).1
  rw [eq_negZero_iff, eq_negZero_iff]
  refine eq_zero_of_add hx hy (by_contra fun hne ↦ ?_)
  exact ofUnpacked_ne_negZero (canonical_add hx hy) hne h

/-- Numbers that are equal as numbers are the same if none of them is the negative zero. -/
theorem eq_of_beq (hx : x ≠ negZero) (hy : y ≠ negZero) (h : x == y) : x = y := by
  rcases (Float.beq_iff_ne_nan_and_eq.1 h).2.2 with heq | ⟨-, hneg⟩ | ⟨hneg, -⟩
  · exact heq
  · exact absurd hneg hy
  · exact absurd hneg hx

end

end Double

end OrbitPlot
