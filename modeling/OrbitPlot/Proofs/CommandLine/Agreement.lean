import OrbitPlot.Proofs.CommandLine.Session

/-!
# Values that are read twice

A value that is taken when the arguments are read is understood when a session needs it, so no
session complains about a value after all. What it takes the values to say is what was accepted.

## Main statements

* `Arguments.picture_ne_error_argument`: no accepted value is found not to be readable.
* `settles_and_picture_of_read`: accepted values are used as they were accepted.
-/

namespace OrbitPlot

namespace Arguments

variable {arguments : List Text} {a : Arguments} {text : Text}

theorem formulaText_ne_error_argument {what : String} :
    a.formulaText ≠ .error (.argument what text) := by
  intro h
  unfold formulaText at h
  dsimp only at h
  -- Only the companion comes after the formula is found.
  split at h
  · obtain hfound | ⟨formula, -, h⟩ := Except.bind_eq_error_iff.1 h
    · cases hfound
    · split at h
      · split at h
        · cases h
        · cases h
      · cases h
  · split at h
    · obtain hfound | ⟨formula, -, h⟩ := Except.bind_eq_error_iff.1 h
      · cases hfound
      · split at h
        · split at h
          · cases h
          · cases h
        · cases h
    · cases h

/-- No accepted value is found not to be readable after all. -/
theorem picture_ne_error_argument (h : Arguments.read arguments = .ok a) (what : String) :
    a.picture ≠ .error (.argument what text) := by
  obtain ⟨width, height, window, hasks⟩ := exists_asks h
  intro hpicture
  unfold picture at hpicture
  obtain hformula | ⟨formula, -, hpicture⟩ := Except.bind_eq_error_iff.1 hpicture
  · exact formulaText_ne_error_argument hformula
  obtain hread | ⟨r, -, hpicture⟩ := Except.bind_eq_error_iff.1 hpicture
  · obtain ⟨_, -, hcause⟩ := Except.mapError_eq_error_iff.1 hread
    cases hcause
  obtain hsize | ⟨size, -, hpicture⟩ := Except.bind_eq_error_iff.1 hpicture
  · rw [parsed_eq_ok hasks.size] at hsize
    cases hsize
  obtain hwindow | ⟨window', -, hpicture⟩ := Except.bind_eq_error_iff.1 hpicture
  · rw [hasks.window_eq] at hwindow
    cases hwindow
  obtain hplane | ⟨plane, -, hpicture⟩ := Except.bind_eq_error_iff.1 hpicture
  · obtain ⟨_, -, hcause⟩ := Except.mapError_eq_error_iff.1 hplane
    cases hcause
  dsimp only at hpicture
  split at hpicture
  · cases hpicture
  · cases hpicture

end Arguments

/-- **Accepted values are used as they were accepted.** Whatever is taken as the value of an option
says something, and both readings of it find the same; in particular a number of iterations is the
same number with and without a sign.

So accepted arguments never lead to a complaint about a value. The cap is the number of iterations
that was accepted, the stopping rule is the one with the accepted name, its measures are the usual
ones exactly where none are given, and a point that is given is selected. -/
theorem settles_and_picture_of_read :
    (∀ o text, Arguments.checkValue o text = .ok () → o.Settles text) ∧
    ∀ arguments a, Arguments.read arguments = .ok a →
      (∀ o text, a.value? o = some text → Arguments.checkValue o text = .ok ()) ∧
      (∀ what text, a.picture ≠ .error (.argument what text)) ∧
      (∃ text, ∃ n : Nat, a.value? .iterations = some text ∧
        Numeral.integer32? text = some (n : Int) ∧ a.settings.cap.toNat = n) ∧
      (∃ text, ∃ choice ∈ Opt.trapRules, a.value? .trap = some text ∧ choice.1.toList = text ∧
        a.Tunes choice.2 a.settings.rule) ∧
      (a.has .point → ∃ text z, a.value? .point = some text ∧ Point.read? text = some z ∧
        a.settings.selected = some z) := by
  refine ⟨fun o text ↦ Opt.settles_of_checkValue, fun arguments a h ↦ ⟨?_, ?_, ?_, ?_, ?_⟩⟩
  · exact fun o text hv ↦ Arguments.checkValue_of_read h hv
  · exact fun what text ↦ Arguments.picture_ne_error_argument h what
  · obtain ⟨text, n, hv, hn, -, -, hcap⟩ := Arguments.cap_of_read h
    exact ⟨text, n, hv, hn, hcap⟩
  · exact Arguments.tunes_rule h
  · exact Arguments.selected_of_has h

/-- A cap with a sign and leading zeros, a radius with an exponent, and the usual gradient. -/
theorem settles_and_picture_of_read_of_signed : ∃ a,
    Arguments.read (["-o", "x", "-i", "+007", "-t", "circle", "--radius", "5e-1", "-u",
      "-.5,1e-3"].map String.toList) = .ok a ∧
    a.settings.cap = 7 ∧ a.settings.rule = .circle 0.5 4 ∧
    a.settings.selected = some ⟨-0.5, 0.001⟩ ∧
    ∀ what text, a.picture ≠ .error (.argument what text) := by
  let a : Arguments := ⟨[.option .output, .value .output ['x'], .option .iterations,
    .value .iterations "+007".toList, .option .trap, .value .trap "circle".toList, .option .radius,
    .value .radius "5e-1".toList, .option .point, .value .point "-.5,1e-3".toList]⟩
  have hevents : (Arguments.read (["-o", "x", "-i", "+007", "-t", "circle", "--radius", "5e-1",
      "-u", "-.5,1e-3"].map String.toList)).toOption.map Arguments.events = some a.events := by
    decide +kernel
  obtain ⟨⟨_⟩, hread, rfl⟩ := Option.map_eq_some_iff.1 hevents
  have hread := Except.eq_ok_of_toOption_eq_some hread
  obtain ⟨-, hpicture, ⟨text, n, hcap, hn, hcount⟩, -, hpoint⟩ :=
    settles_and_picture_of_read.2 _ _ hread
  refine ⟨_, hread, ?_, by decide +kernel, ?_, hpicture⟩
  · have hvalue : a.value? .iterations = some "+007".toList := by decide +kernel
    cases hvalue.symm.trans hcap
    have hseven : Numeral.integer32? "+007".toList = some 7 := by decide +kernel
    cases hseven.symm.trans hn
    exact UInt64.toNat_inj.1 hcount
  · obtain ⟨text, z, hvalue, hz, hselected⟩ := hpoint (by decide +kernel)
    have hgiven : a.value? .point = some "-.5,1e-3".toList := by decide +kernel
    cases hgiven.symm.trans hvalue
    have hread : Point.read? "-.5,1e-3".toList = some ⟨-0.5, 0.001⟩ := by decide +kernel
    rw [hselected, ← hz, hread]

end OrbitPlot
