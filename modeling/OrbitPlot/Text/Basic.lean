/-!
# Text

Formulas, numbers and options are read character by character, so text is a list of characters
throughout. `String` appears only in messages meant for a reader.

`Text.cut` divides a text at the first separator; `Text.dropEnding` takes a fixed ending away. Both
are characterised by the equation that puts the pieces together again.
-/

namespace OrbitPlot

/-- A text, as the characters it is read by. -/
abbrev Text := List Char

namespace Text

/-! ## Cutting at a separator -/

/-- The parts before and after the first `separator`, if there is one. -/
def cut (separator : Char) : Text → Option (Text × Text)
  | [] => none
  | c :: rest =>
    if c = separator then some ([], rest)
    else (cut separator rest).map fun (before, after) ↦ (c :: before, after)

theorem cut_eq_some_iff {separator : Char} {text before after : Text} :
    cut separator text = some (before, after) ↔
      text = before ++ separator :: after ∧ separator ∉ before := by
  induction text generalizing before with
  | nil => simp [cut]
  | cons c rest ih =>
    by_cases h : c = separator
    · subst h
      cases before with
      | nil => simp [cut, eq_comm]
      | cons d before => simp [cut]; intro hd _ h'; exact absurd hd h'
    · cases before with
      | nil => simp [cut, h]
      | cons d before =>
        simp only [cut, if_neg h, Option.map_eq_some_iff, Prod.mk.injEq, List.cons.injEq,
          Prod.exists, List.cons_append, List.mem_cons, not_or]
        constructor
        · rintro ⟨b, a, hcut, ⟨rfl, rfl⟩, rfl⟩
          obtain ⟨rfl, hmem⟩ := ih.1 hcut
          exact ⟨⟨rfl, rfl⟩, fun h' ↦ h h'.symm, hmem⟩
        · rintro ⟨⟨rfl, rfl⟩, _, hmem⟩
          exact ⟨before, after, ih.2 ⟨rfl, hmem⟩, ⟨rfl, rfl⟩, rfl⟩

/-! ## Taking an ending away -/

/-- What stands before `ending`, if the text ends with it. -/
def dropEnding (ending text : Text) : Option Text :=
  if ending.isSuffixOf text then some (text.take (text.length - ending.length)) else none

theorem dropEnding_eq_some_iff {ending text body : Text} :
    dropEnding ending text = some body ↔ text = body ++ ending := by
  unfold dropEnding
  constructor
  · intro h
    split at h
    · next hs =>
      obtain ⟨front, rfl⟩ := List.isSuffixOf_iff_suffix.1 hs
      simp at h
      simp [h]
    · simp at h
  · rintro rfl
    simp [List.isSuffixOf_iff_suffix.2 (List.suffix_append body ending)]

end Text

end OrbitPlot
