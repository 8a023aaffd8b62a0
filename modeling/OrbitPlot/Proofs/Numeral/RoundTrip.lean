import OrbitPlot.Proofs.Numeral.Digits

/-!
# Numbers that read back

Whatever the layout, a number that is written and read again is the same number, to the bit: the
sign of a zero and the infinities are kept, and not-a-number stays not-a-number. So a number can be
known from its text.

## Main statement

`Numeral.float?_float`: reading undoes writing.
-/

namespace OrbitPlot

open Double Float.Model Float.Model.UnpackedFloat

/-! ## Special numbers -/

namespace Double

theorem unpacked_zero : unpacked 0 = .zero .positive :=
  unpacked_ofUnpacked (u := .zero .positive) trivial

theorem ofUnpacked_infinity : ofUnpacked (.infinity .positive) = 1 / 0 := by
  decide +kernel

theorem ofUnpacked_notANumber : ofUnpacked .notANumber = 0 / 0 := by
  decide +kernel

variable {x : Float}

theorem eq_of_isNaN (h : x.isNaN) : x = 0 / 0 := by
  rw [Float.isNaN_eq_decide_eq_nan] at h
  exact of_decide_eq_true h

theorem abs_eq_self (hx : Unsigned x) : x.abs = x := by
  have habs : x.abs = ofUnpacked (UnpackedFloat.abs (unpacked x)) := rfl
  have hself : UnpackedFloat.abs (unpacked x) = unpacked x := by
    rcases unsigned_iff.1 hx with hx | hx | hx | ⟨m, e, h, hx⟩ <;> rw [hx] <;> rfl
  rw [habs, hself, ofUnpacked_unpacked]

theorem neg_abs (hx : ¬Unsigned x) : x.abs.neg = x := by
  have hneg : x.abs.neg = ofUnpacked (UnpackedFloat.neg (unpacked (ofUnpacked
    (UnpackedFloat.abs (unpacked x))))) := rfl
  have hself : UnpackedFloat.neg (unpacked (ofUnpacked (UnpackedFloat.abs (unpacked x)))) =
      unpacked x := by
    have hc := (canonical_unpacked x).1
    rw [Unsigned, not_not] at hx
    cases hu : unpacked x with
    | notANumber => rw [hu] at hx; cases hx
    | infinity s => rw [hu] at hx; cases hx; rfl
    | zero s => rw [hu] at hx; cases hx; rfl
    | finite s m e hm =>
      rw [hu] at hx hc
      cases hx
      have hc : Canonical (.finite .positive m e hm) := hc
      rw [UnpackedFloat.abs, unpacked_ofUnpacked hc, saturate, if_pos (le_of_unpacked_eq hu)]
      rfl
  rw [hneg, hself, ofUnpacked_unpacked]

end Double

namespace Numeral

theorem toLower_of_isDigit {c : Char} (h : c.isDigit) : c.toLower = c := by
  have hle : c.toNat ≤ 57 := (Char.isDigit_iff_toNat.1 h).2
  refine dif_neg fun hupper ↦ ?_
  have : 65 ≤ c.toNat := hupper.1
  omega

theorem Spells.exists_cons {text : Text} {d : Decimal} (h : Spells text d) :
    ∃ c rest, text = c :: rest ∧ c.isDigit := by
  obtain @⟨whole, point, fraction, tail, k, hwhole, hdigits, hpoint, htail⟩ := h
  obtain ⟨c, whole, rfl⟩ := List.exists_cons_of_ne_nil hwhole
  exact ⟨c, _, rfl, hdigits c List.mem_cons_self⟩

/-- A numeral is none of the names. -/
theorem Spells.magnitude?_eq {text : Text} {d : Decimal} (h : Spells text d) :
    magnitude? text = some d.toFloat := by
  have hname (name : String) (hname : ∀ c ∈ name.toList.head?, ¬c.isDigit) :
      String.ofList (text.map Char.toLower) ≠ name := by
    rintro rfl
    obtain ⟨c, rest, rfl, hc⟩ := h.exists_cons
    refine hname c ?_ hc
    rw [String.toList_ofList, List.map_cons, toLower_of_isDigit hc]
    rfl
  unfold magnitude?
  split
  · next heq => exact absurd heq (hname "inf" (by simp))
  · next heq => exact absurd heq (hname "infinity" (by simp))
  · next heq => exact absurd heq (hname "nan" (by simp))
  · rw [h.decimal?_eq]
    rfl

variable (l : Layout) {x : Float}

theorem magnitude_cases (hx : Unsigned x) (hnan : x.isNaN = false) :
    (x = 1 / 0 ∧ l.magnitude x = ['i', 'n', 'f']) ∨
      ∃ d, Spells (l.magnitude x) d ∧ d.toFloat = x := by
  have hinf : x.isInf = (unpacked x).isInf := rfl
  have hzero : (x == 0) = (UnpackedFloat.compare (unpacked x) (unpacked 0) == some .eq) := rfl
  rw [unpacked_zero] at hzero
  rw [Layout.magnitude, hinf, hzero]
  rcases unsigned_iff.1 hx with hu | hu | hu | ⟨m, e, hm, hu⟩
  · have hnan' : x.isNaN = (unpacked x).isNaN := rfl
    rw [hnan', hu] at hnan
    cases hnan
  · refine .inl ⟨?_, by rw [hu]; rfl⟩
    rw [← ofUnpacked_unpacked x, hu, ofUnpacked_infinity]
  · have hnone : ∀ c ∈ ([] : Text), c.isDigit := nofun
    obtain ⟨d, hspells, hvalue⟩ := l.exists_spells_full hnone 1
    refine .inr ⟨d, by rw [hu]; exact hspells, ?_⟩
    rw [Decimal.toFloat_eq, hvalue, ← ofUnpacked_unpacked x, hu]
    exact if_pos (zero_mul _)
  -- the shortest digits need not have the value of the number, but they are read as the number
  · have hread := Decimal.toFloat_shortest ⟨m, e, hm, hu, rfl⟩
    have hdigits : 0 < (Decimal.shortest x).digits := by
      refine Nat.pos_of_ne_zero fun hzero ↦ ?_
      rw [Decimal.toFloat_eq, Decimal.value, hzero, Nat.cast_zero, zero_mul, ofRat,
        if_pos rfl] at hread
      rw [← hread, unpacked_ofUnpacked (u := .zero .positive) trivial] at hu
      cases hu
    obtain ⟨d, hspells, hvalue⟩ := l.exists_spells_decimal hdigits
    refine .inr ⟨d, by rw [hu]; exact hspells, ?_⟩
    rw [Decimal.toFloat_eq, hvalue, ← Decimal.toFloat_eq, hread]

theorem magnitude?_magnitude (hx : Unsigned x) (hnan : x.isNaN = false) :
    magnitude? (l.magnitude x) = some x := by
  rcases magnitude_cases l hx hnan with ⟨rfl, htext⟩ | ⟨d, hspells, rfl⟩
  · rw [htext]
    rfl
  · exact hspells.magnitude?_eq

theorem float?_magnitude (hx : Unsigned x) (hnan : x.isNaN = false) :
    float? (l.magnitude x) = magnitude? (l.magnitude x) := by
  rcases magnitude_cases l hx hnan with ⟨-, htext⟩ | ⟨d, hspells, -⟩
  · rw [htext]
    rfl
  · obtain ⟨c, rest, htext, hc⟩ := hspells.exists_cons
    rw [htext]
    unfold float?
    split
    · next heq => cases heq; exact absurd hc (by decide)
    · next heq => cases heq; exact absurd hc (by decide)
    · rfl

/-- Reading undoes writing. -/
theorem float?_float (x : Float) : float? (l.float x) = some x := by
  rw [Layout.float]
  split
  · next h =>
    rw [eq_of_isNaN h]
    rfl
  · next h =>
    have h : x.isNaN = false := Bool.eq_false_iff.2 h
    by_cases hx : Unsigned x
    · rw [if_pos (congrArg _ (abs_eq_self hx).symm), float?_magnitude l hx h,
        magnitude?_magnitude l hx h]
    · have habs : x.toBits ≠ x.abs.toBits := fun heq ↦
        hx (Float.toBits_inj.1 heq ▸ .abs x)
      have h' : x.abs.isNaN = false := by
        refine Bool.eq_false_iff.2 fun hnan ↦ ?_
        rw [← neg_abs hx, eq_of_isNaN hnan] at h
        exact absurd h (by decide +kernel)
      rw [if_neg habs, float?, magnitude?_magnitude l (.abs x) h', Option.map_some, neg_abs hx]

theorem unsigned_of_float? {text : Text} (hsign : '-' ∉ text) (h : float? text = some x) :
    Unsigned x := by
  have hmagnitude {text : Text} (h : magnitude? text = some x) : Unsigned x := by
    unfold magnitude? at h
    split at h
    · cases h
      exact ofUnpacked_infinity ▸ unsigned_ofUnpacked trivial nofun
    · cases h
      exact ofUnpacked_infinity ▸ unsigned_ofUnpacked trivial nofun
    · cases h
      exact ofUnpacked_notANumber ▸ unsigned_ofUnpacked trivial nofun
    · obtain ⟨d, -, rfl⟩ := Option.map_eq_some_iff.1 h
      exact d.unsigned_toFloat
  unfold float? at h
  split at h
  · exact absurd List.mem_cons_self hsign
  · exact hmagnitude h
  · exact hmagnitude h

end Numeral

end OrbitPlot
