import OrbitPlot.CommandLine.Session
import OrbitPlot.Proofs.Outcome

/-!
# Values that were accepted

The values of options are looked at before a session begins, and read when it needs them. Whatever
was accepted then is understood now: `Opt.complaint?` answers to every value that could not be read.
An option with a default has a value in any case, so a session always knows the size of its picture
and the corners of its window.

## Main statements

* `Arguments.complaint?_of_read`: there is nothing to complain about in accepted values.
* `Arguments.value?_output`, `Arguments.exists_size`, `Arguments.exists_corners`: what accepted
  arguments say of the picture.
* `Arguments.parsed_eq_ok`: a value that can be read is understood.
-/

namespace OrbitPlot

namespace Arguments

variable {arguments : List Text} {a : Arguments} {o : Opt} {text : Text}

/-! ## What was looked at -/

/-- If nothing is wrong with arguments, a file is named and nothing is wrong with any option,
whether or not the last argument still waits for a value. -/
theorem of_check {waiting : Option Opt} (h : a.check waiting = .ok ()) :
    a.has .output ∧ ∀ o, a.checkOption o = .ok () := by
  have hrest (hlast : (if a.has .formula && a.has .fractal then do
        throw (.conflict .fractal .formula)
        a.checkOutput
        Opt.all.forM a.checkOption
      else do
        a.checkOutput
        Opt.all.forM a.checkOption : Except Stop Unit) = .ok ()) :
      a.has .output ∧ ∀ o, a.checkOption o = .ok () := by
    split at hlast
    · cases hlast
    · obtain ⟨_, houtput, hall⟩ := Except.bind_eq_ok_iff.1 hlast
      constructor
      · unfold checkOutput at houtput
        split at houtput
        · assumption
        · cases houtput
      · intro o
        exact Except.forM_eq_ok_iff.1 hall o (by cases o <;> decide)
  unfold check at h
  rcases waiting with _ | first
  · exact hrest h
  · obtain ⟨_, -, h⟩ := Except.bind_eq_ok_iff.1 h
    obtain ⟨_, -, h⟩ := Except.bind_eq_ok_iff.1 h
    exact hrest h

theorem of_checkOption (h : a.checkOption o = .ok ()) :
    (a.has o → a.checkPresence o = .ok ()) ∧ ∀ text ∈ a.values o, checkValue o text = .ok () := by
  have hlast (hvalues : (do
        (a.values o).forM (checkValue o)
        if 1 < a.occurrences o then throw (.repeated o) : Except Stop Unit) = .ok ()) :
      ∀ text ∈ a.values o, checkValue o text = .ok () := by
    obtain ⟨_, hall, -⟩ := Except.bind_eq_ok_iff.1 hvalues
    exact Except.forM_eq_ok_iff.1 hall
  unfold checkOption at h
  dsimp only at h
  split at h
  · obtain ⟨_, hpresence, h⟩ := Except.bind_eq_ok_iff.1 h
    exact ⟨fun _ ↦ hpresence, hlast h⟩
  · next hnot => exact ⟨fun hgiven ↦ absurd hgiven hnot, hlast h⟩

/-- A value that is taken is no cause for complaint, and a trap is one of those with a name. -/
theorem of_checkValue (h : checkValue o text = .ok ()) :
    (o = .trap → String.ofList text ∈ Opt.trapNames) ∧ o.complaint? text = none := by
  unfold checkValue at h
  split at h
  · cases h
  · next hname =>
    split at h
    · cases h
    · next hcomplaint =>
      refine ⟨fun ho ↦ ?_, hcomplaint⟩
      rw [not_and, Decidable.not_not] at hname
      exact hname ho

theorem of_read (h : Arguments.read arguments = .ok a) :
    a.has .output ∧ ∀ o, a.checkOption o = .ok () := by
  obtain ⟨⟨events, waiting⟩, -, h⟩ := Except.bind_eq_ok_iff.1 h
  obtain ⟨_, hcheck, ha⟩ := Except.bind_eq_ok_iff.1 h
  cases ha
  exact of_check hcheck

theorem checkValue_of_read (h : Arguments.read arguments = .ok a) (hv : a.value? o = some text) :
    checkValue o text = .ok () :=
  (of_checkOption ((of_read h).2 o)).2 text (List.mem_of_mem_head? hv)

theorem complaint?_of_read (h : Arguments.read arguments = .ok a) (hv : a.value? o = some text) :
    o.complaint? text = none :=
  (of_checkValue (checkValue_of_read h hv)).2

theorem exists_value? (a : Arguments) (h : o.default?.isSome) : ∃ text, a.value? o = some text := by
  obtain ⟨default, hdefault⟩ := Option.isSome_iff_exists.1 h
  unfold value? values
  split
  · exact ⟨default.toList, by rw [hdefault]; rfl⟩
  · next hgiven =>
    obtain ⟨text, rest, hlist⟩ := List.exists_cons_of_ne_nil hgiven
    exact ⟨text, by rw [hlist]; rfl⟩

theorem exists_value?_of_has (h : Arguments.read arguments = .ok a) (htakes : o.takesValue)
    (hgiven : a.has o) : ∃ text, a.value? o = some text := by
  have hpresence := (of_checkOption ((of_read h).2 o)).1 hgiven
  unfold checkPresence at hpresence
  rw [htakes, Bool.true_and] at hpresence
  split at hpresence
  · cases hpresence
  · next hnonempty =>
    rw [List.isEmpty_iff] at hnonempty
    obtain ⟨text, rest, hvalues⟩ := List.exists_cons_of_ne_nil hnonempty
    exact ⟨text, by rw [value?, hvalues, List.head?_cons]⟩

/-! ## What the values say -/

theorem value?_output (h : Arguments.read arguments = .ok a) : a.value? .output = some a.path := by
  obtain ⟨text, hv⟩ := exists_value?_of_has h rfl (of_read h).1
  rw [path, hv, Option.getD_some]

theorem exists_size_of_complaint? (h : Opt.complaint? .size text = none) :
    ∃ width height, Opt.readSize? text = some (width, height) := by
  simp only [Opt.complaint?] at h
  split at h
  · next hsome =>
    obtain ⟨⟨width, height⟩, hsize⟩ := Option.isSome_iff_exists.1 hsome
    exact ⟨width, height, hsize⟩
  · cases h

theorem exists_size (h : Arguments.read arguments = .ok a) :
    ∃ width height, (a.value? .size).bind Opt.readSize? = some (width, height) := by
  obtain ⟨text, hv⟩ := a.exists_value? (o := .size) rfl
  obtain ⟨width, height, hsize⟩ := exists_size_of_complaint? (complaint?_of_read h hv)
  exact ⟨width, height, by rw [hv, Option.bind_some, hsize]⟩

theorem lt_of_readSize? {width height : Nat} (h : Opt.readSize? text = some (width, height)) :
    width < UInt16.size ∧ height < UInt16.size := by
  have hbelow {n : Nat} {part : Text} (hn : Numeral.naturalBelow? UInt16.size part = some n) :
      n < UInt16.size := of_decide_eq_true (Option.filter_eq_some_iff.1 hn).2
  obtain ⟨⟨left, right⟩, -, h⟩ := Option.bind_eq_some_iff.1 h
  obtain ⟨w, hw, h⟩ := Option.bind_eq_some_iff.1 h
  obtain ⟨k, hk, h⟩ := Option.bind_eq_some_iff.1 h
  cases h
  exact ⟨hbelow hw, hbelow hk⟩

theorem exists_point_of_complaint? {complaint : String}
    (h : Opt.pointComplaint? complaint text = none) : ∃ z, Point.read? text = some z := by
  unfold Opt.pointComplaint? at h
  split at h
  · next hpair =>
    obtain ⟨⟨re, im⟩, hpair⟩ := Option.isSome_iff_exists.1 hpair
    exact ⟨⟨re, im⟩, by rw [Point.read?, hpair]; rfl⟩
  · cases h

theorem exists_corners (h : Arguments.read arguments = .ok a) :
    ∃ bottomLeft topRight, (a.value? .leftLower).bind Point.read? = some bottomLeft ∧
      (a.value? .rightUpper).bind Point.read? = some topRight := by
  obtain ⟨lower, hlower⟩ := a.exists_value? (o := .leftLower) rfl
  obtain ⟨upper, hupper⟩ := a.exists_value? (o := .rightUpper) rfl
  obtain ⟨bottomLeft, hbottomLeft⟩ := exists_point_of_complaint? (complaint?_of_read h hlower)
  obtain ⟨topRight, htopRight⟩ := exists_point_of_complaint? (complaint?_of_read h hupper)
  exact ⟨bottomLeft, topRight, by rw [hlower, Option.bind_some, hbottomLeft],
    by rw [hupper, Option.bind_some, htopRight]⟩

theorem parsed_eq_ok {α : Type} {read? : Text → Option α} {x : α} {what : String}
    (h : (a.value? o).bind read? = some x) : a.parsed read? o what = .ok x := by
  obtain ⟨text, hv, hread⟩ := Option.bind_eq_some_iff.1 h
  rw [parsed, hv, Option.getD_some, hread]

end Arguments

end OrbitPlot
