import Mathlib.Data.List.TakeWhile
import OrbitPlot.Numeral.Reading
import OrbitPlot.Proofs.Float.Decimal

/-!
# Numerals that read back

Writing a decimal moves its point, pads it with zeros or leaves zeros out, and may give it an
exponent. None of this changes its value. `Spells` says what a written numeral looks like and which
decimal is read from it, so that reading and writing can be looked at one at a time.

## Main statements

* `Spells.decimal?_eq`: what is spelled is read.
* `Layout.exists_spells_decimal`: every layout spells the value of a decimal.
-/

namespace OrbitPlot

namespace Numeral

/-! ## Digits -/

theorem digitsValue_eq (digits : Text) : digitsValue digits = Nat.ofDigitChars 10 digits 0 :=
  Nat.ofDigitChars_eq_foldl.symm

theorem digitsValue_append (u v : Text) :
    digitsValue (u ++ v) = 10 ^ v.length * digitsValue u + digitsValue v := by
  rw [digitsValue_eq, digitsValue_eq, digitsValue_eq, Nat.ofDigitChars_append,
    Nat.ofDigitChars_eq_ofDigitChars_zero]

theorem digitsValue_zeros (n : Nat) : digitsValue (List.replicate n '0') = 0 := by
  rw [digitsValue_eq, Nat.ofDigitChars_replicate_zero, Nat.mul_zero]

theorem digitsValue_toDigits (n : Nat) : digitsValue (Nat.toDigits 10 n) = n := by
  rw [digitsValue_eq, Nat.ofDigitChars_ten_toDigits]

theorem isDigit_toDigits {n : Nat} : ∀ c ∈ Nat.toDigits 10 n, c.isDigit := fun _ hc ↦
  Nat.isDigit_of_mem_toDigits (by decide) le_rfl hc

theorem digits?_eq_some {digits : Text} (hne : digits ≠ []) (h : ∀ c ∈ digits, c.isDigit) :
    digits? digits = some (digitsValue digits) := by
  rw [digits?, if_neg]
  simpa [hne] using h

theorem takeWhile_digits {digits rest : Text} (h : ∀ c ∈ digits, c.isDigit)
    (hrest : ∀ c ∈ rest.head?, ¬c.isDigit) :
    (digits ++ rest).takeWhile Char.isDigit = digits ∧
      (digits ++ rest).dropWhile Char.isDigit = rest := by
  rw [List.takeWhile_append_of_pos h, List.dropWhile_append_of_pos h]
  cases rest with
  | nil => exact ⟨List.append_nil _, rfl⟩
  | cons c rest =>
    have hc := hrest c rfl
    rw [List.takeWhile_cons_of_neg hc, List.dropWhile_cons_of_neg hc, List.append_nil]
    exact ⟨rfl, rfl⟩

/-! ## What a numeral looks like -/

/-- A text is a numeral for a decimal: digits, perhaps a point and further digits, and perhaps an
exponent. -/
inductive Spells : Text → Decimal → Prop
  /-- The digits on both sides of the point are read as one whole number. -/
  | mk {whole point fraction tail : Text} {k : Int} (hwhole : whole ≠ [])
    (hdigits : ∀ c ∈ whole ++ fraction, c.isDigit)
    (hpoint : point = '.' :: fraction ∨ point = [] ∧ fraction = [])
    (htail : tail = 'e' :: ofInt k ∨ tail = [] ∧ k = 0) :
    Spells (whole ++ point ++ tail) ⟨digitsValue (whole ++ fraction), k - fraction.length⟩

theorem integer?_ofInt (k : Int) : integer? (ofInt k) = some k := by
  have hdigits (n : Nat) : digits? (Nat.toDigits 10 n) = some n := by
    rw [digits?_eq_some Nat.toDigits_ne_nil isDigit_toDigits, digitsValue_toDigits]
  cases k with
  | ofNat n =>
    have hhead : ∀ c ∈ (Nat.toDigits 10 n).head?, c.isDigit := fun c hc ↦
      isDigit_toDigits c (List.mem_of_mem_head? hc)
    have hsome := hdigits n
    rw [ofInt]
    generalize Nat.toDigits 10 n = digits at hhead hsome
    unfold integer? natural?
    split
    · exact absurd (hhead '-' rfl) (by decide)
    · split
      · exact absurd (hhead '+' rfl) (by decide)
      · rw [hsome]
        rfl
  | negSucc n =>
    rw [ofInt, integer?, hdigits]
    rfl

theorem Spells.decimal?_eq {text : Text} {d : Decimal} (h : Spells text d) :
    decimal? text = some d := by
  obtain @⟨whole, point, fraction, tail, k, hwhole, hdigits, hpoint, htail⟩ := h
  obtain ⟨hdw, hdf⟩ := List.forall_mem_append.1 hdigits
  have hexponent : exponent? tail = some k := by
    rcases htail with rfl | ⟨rfl, rfl⟩
    · rw [exponent?, if_pos (.inl rfl), integer?_ofInt]
    · rfl
  have hhead : ∀ c ∈ tail.head?, ¬c.isDigit := by
    rcases htail with rfl | ⟨rfl, rfl⟩
    · rintro _ ⟨⟩
      decide
    · nofun
  have hnonempty : whole.isEmpty = false := List.isEmpty_eq_false_iff.2 hwhole
  rcases hpoint with rfl | ⟨rfl, rfl⟩
  · have hpoint : ∀ c ∈ ('.' :: (fraction ++ tail)).head?, ¬c.isDigit := by
      rintro _ ⟨⟩
      decide
    obtain ⟨htake, hdrop⟩ := takeWhile_digits hdw hpoint
    obtain ⟨htake', hdrop'⟩ := takeWhile_digits hdf hhead
    rw [decimal?, List.append_assoc, List.cons_append, htake, hdrop]
    simp only [htake', hdrop', hexponent, hnonempty]
    rfl
  · obtain ⟨htake, hdrop⟩ := takeWhile_digits hdw hhead
    rw [decimal?, List.append_assoc, List.nil_append, List.append_nil, htake, hdrop]
    rcases htail with rfl | ⟨rfl, rfl⟩
    · simp [hexponent, hwhole]
    · simp [hexponent, hwhole]

/-! ## Layouts -/

theorem significant_eq (n : Nat) :
    Nat.toDigits 10 n = (significant n).1 ++ List.replicate (significant n).2 '0' := by
  rw [← List.reverse_inj, List.reverse_append, List.reverse_replicate, significant,
    List.reverse_reverse]
  conv_lhs => rw [← List.takeWhile_append_dropWhile (p := fun c ↦ decide (c = '0'))
    (l := (Nat.toDigits 10 n).reverse)]
  congr 1
  exact List.eq_replicate_of_mem fun c hc ↦ by simpa using List.mem_takeWhile_imp hc

theorem digitsValue_significant (n : Nat) :
    n = 10 ^ (significant n).2 * digitsValue (significant n).1 := by
  conv_lhs => rw [← digitsValue_toDigits n, significant_eq, digitsValue_append, digitsValue_zeros,
    List.length_replicate, Nat.add_zero]

theorem isDigit_significant {n : Nat} : ∀ c ∈ (significant n).1, c.isDigit := fun c hc ↦
  isDigit_toDigits (n := n) c (significant_eq n ▸ List.mem_append_left _ hc)

theorem significant_ne_nil {n : Nat} (hn : 0 < n) : (significant n).1 ≠ [] := by
  intro h
  have hvalue := digitsValue_significant n
  rw [h, show digitsValue [] = 0 from rfl, Nat.mul_zero] at hvalue
  exact hn.ne' hvalue

/-- Zeros at the end of the digits can be made up for by the exponent. -/
theorem value_append_zeros (digits : Text) (n : Nat) (e : Int) :
    Decimal.value ⟨digitsValue (digits ++ List.replicate n '0'), e⟩ =
      digitsValue digits * 10 ^ (e + n) := by
  rw [Decimal.value, digitsValue_append, digitsValue_zeros, List.length_replicate, Nat.add_zero,
    zpow_add₀ (by norm_num), Nat.cast_mul, Nat.cast_pow, Nat.cast_ofNat, zpow_natCast]
  ring

/-- A numeral with an exponent has the value of its digits behind the point, moved to their
place. -/
theorem exists_spells_scientific {digits : Text} (hne : digits ≠ [])
    (h : ∀ c ∈ digits, c.isDigit) (place : Int) :
    ∃ d, Spells (scientific digits place) d ∧
      d.value = digitsValue digits * 10 ^ (place - digits.length) := by
  obtain ⟨c, fraction, rfl⟩ := List.exists_cons_of_ne_nil hne
  refine ⟨⟨digitsValue ([c] ++ fraction), place - 1 - fraction.length⟩, ?_, ?_⟩
  · refine .mk (List.cons_ne_nil c []) h ?_ (.inl rfl)
    cases fraction with
    | nil => exact .inr ⟨rfl, rfl⟩
    | cons d fraction => exact .inl rfl
  · rw [Decimal.value, List.length_cons, Nat.cast_add, Nat.cast_one, sub_sub, add_comm (1 : Int)]
    rfl

theorem isDigit_zeros (n : Nat) : ∀ c ∈ List.replicate n '0', c.isDigit := fun _ hc ↦
  (List.eq_of_mem_replicate hc) ▸ (by decide)

theorem spells_padded {whole fraction : Text} (pad : Nat) (hwhole : whole ≠ [])
    (hdw : ∀ c ∈ whole, c.isDigit) (hdf : ∀ c ∈ fraction, c.isDigit) :
    Spells (whole ++ '.' :: (fraction ++ List.replicate pad '0'))
      ⟨digitsValue (whole ++ fraction ++ List.replicate pad '0'),
        0 - (fraction ++ List.replicate pad '0').length⟩ := by
  have hdigits : ∀ c ∈ whole ++ (fraction ++ List.replicate pad '0'), c.isDigit :=
    List.forall_mem_append.2 ⟨hdw, List.forall_mem_append.2 ⟨hdf, isDigit_zeros pad⟩⟩
  rw [← List.append_nil (whole ++ '.' :: (fraction ++ List.replicate pad '0')),
    List.append_assoc whole fraction]
  exact .mk hwhole hdigits (.inl rfl) (.inr ⟨rfl, rfl⟩)

theorem Layout.exists_spells_full (l : Layout) {digits : Text} (h : ∀ c ∈ digits, c.isDigit)
    (place : Int) :
    ∃ d, Spells (l.full digits place) d ∧
      d.value = digitsValue digits * 10 ^ (place - digits.length) := by
  rw [full]
  split
  · next hplace =>
    obtain ⟨k, rfl⟩ : ∃ k : Nat, place = -k := ⟨(-place).toNat, by omega⟩
    rw [neg_neg, Int.toNat_natCast]
    refine ⟨_, spells_padded _ (List.cons_ne_nil '0' []) (isDigit_zeros 1)
      (List.forall_mem_append.2 ⟨isDigit_zeros k, h⟩), ?_⟩
    -- zeros in front of the digits count for nothing
    have hleading : ['0'] ++ (List.replicate k '0' ++ digits) =
        List.replicate (k + 1) '0' ++ digits := rfl
    rw [value_append_zeros, hleading, digitsValue_append, digitsValue_zeros, Nat.mul_zero,
      Nat.zero_add]
    congr 2
    simp only [List.length_append, List.length_replicate]
    omega
  · next hplace =>
    obtain ⟨k, hk, rfl⟩ : ∃ k : Nat, 0 < k ∧ place = k := ⟨place.toNat, by omega, by omega⟩
    rw [Int.toNat_natCast]
    have hwhole : digits.take k ++ List.replicate (k - digits.length) '0' ≠ [] := by
      intro hnil
      have hlength := congrArg List.length hnil
      simp only [List.length_append, List.length_take, List.length_replicate,
        List.length_nil] at hlength
      omega
    refine ⟨_, spells_padded _ hwhole (List.forall_mem_append.2
      ⟨fun c hc ↦ h c (List.mem_of_mem_take hc), isDigit_zeros _⟩)
      fun c hc ↦ h c (List.mem_of_mem_drop hc), ?_⟩
    -- either zeros fill the digits up to the point, or the point stands among the digits
    rcases Nat.le_total digits.length k with hle | hle
    · rw [List.take_of_length_le hle, List.drop_of_length_le hle, List.append_nil,
        List.append_assoc, List.replicate_append_replicate, value_append_zeros]
      congr 2
      simp only [List.nil_append, List.length_replicate]
      omega
    · rw [Nat.sub_eq_zero_of_le hle, List.replicate_zero, List.append_nil, List.take_append_drop,
        value_append_zeros]
      congr 2
      simp only [List.length_append, List.length_drop, List.length_replicate]
      omega

theorem Layout.exists_spells_decimal (l : Layout) {d : Decimal} (hd : 0 < d.digits) :
    ∃ d', Spells (l.decimal d) d' ∧ d'.value = d.value := by
  generalize hplace : ((significant d.digits).1.length : Int) +
    ((significant d.digits).2 + d.exponent) = place
  have hvalue : digitsValue (significant d.digits).1 *
      10 ^ (place - (significant d.digits).1.length) = d.value := by
    rw [← hplace, add_sub_cancel_left, Decimal.value]
    conv_rhs => rw [digitsValue_significant d.digits]
    rw [Nat.cast_mul, Nat.cast_pow, Nat.cast_ofNat, zpow_add₀ (by norm_num), zpow_natCast]
    ring
  have hdecimal : l.decimal d = if l.lowest ≤ place ∧ place ≤ l.highest then
      l.full (significant d.digits).1 place else scientific (significant d.digits).1 place := by
    rw [← hplace]
    rfl
  rw [hdecimal, ← hvalue]
  split
  · exact l.exists_spells_full isDigit_significant place
  · exact exists_spells_scientific (significant_ne_nil hd) isDigit_significant place

end Numeral

end OrbitPlot
