import OrbitPlot.Proofs.Picture.Drawing

/-!
# Formulas that wait for the user

A formula may read a point that the user has not selected yet. Its sequences then come to a halt
when a program reads that point, which is at once if the program for the first term does. If only
the other program does, the first term is there and is looked at: where it is stopped, the orbit
ends with it, and the pixel is drawn all the same.

## Main statement

`orbit_of_needsSelected`: which orbits there are before a point is selected.
-/

namespace OrbitPlot

open Machine

/-! ## Pixels without orbits -/

namespace Recurrence

variable {r : Recurrence} {s : Settings} {plane : Plane} {x y : Nat}

theorem get?_render (h : ∀ m, (r.orbit s (plane.point ⟨x.toUInt64, y.toUInt64⟩) m).1 = none)
    (stopped : Nat → Bool) (image : Image) :
    (r.render s plane stopped image).1.get? x y = image.get? x y := by
  have hcolor : r.pixelColor s plane x y = none := by
    rw [pixelColor_eq, h {}]
    rfl
  rw [get?_render_eq, hcolor, overlay_none, ite_self]

/-! ## Orbits before a point is selected -/

theorem value_ne_ok_of_reads {raw : Text} (h : read raw = .ok r) {program : Program} {b : Bindings}
    (hb : b.selected = none) (hreads : program.reads r.pool .selected) (z : Point) :
    program.value r.pool b ≠ .ok z := by
  intro hvalue
  have hsound := sound_of_read h
  obtain ⟨m, hrun⟩ := Program.evaluate_of_value hvalue {}
  have hsome : b.selected.isSome :=
    Program.isSome_lookup_of_evaluate hsound.acyclic hsound.allFit hrun hreads
  rw [hb] at hsome
  cases hsome

/-- Before the point is selected that a formula needs, there is an orbit only where the first term
has a value and is stopped, and the orbit is no more than that term. -/
theorem orbit_of_selected_eq_none {raw : Text} (h : read raw = .ok r) (hneeds : r.needsSelected)
    (hselected : s.selected = none) (z : Point) (m : Machine) :
    (r.orbit s z m).1 =
      ((r.first.value r.pool (.atStart z none)).toOption.filter s.rule.stops).map (Orbit.mk 0) := by
  have houtcome := outcome_firstTerm (ofPrograms_of_read h) s z m
  rw [hselected] at houtcome
  rw [← houtcome, orbit]
  cases hfirst : r.firstTerm s z m with
  | error fault m₁ =>
    have htrace : r.trace s z m = .error fault m₁ := EStateM.bind_of_eq_error hfirst
    rw [htrace]
    rfl
  | ok w m₁ =>
    rw [hfirst] at houtcome
    -- the first term does not wait for the user, so the other one does
    have hnext : r.next.reads r.pool .selected := by
      refine (Bool.or_eq_true_iff.1 hneeds).resolve_left fun hreads ↦ ?_
      exact value_ne_ok_of_reads h rfl hreads w houtcome.symm
    have htrace : r.trace s z m =
        Orbit.follow s.rule.stops (r.nextTerm s z w) (s.cap.toNat + 1) 0 w m₁ :=
      EStateM.bind_of_eq_ok hfirst
    rw [htrace, Orbit.follow]
    by_cases hstops : s.rule.stops w
    · rw [if_pos hstops, outcome, Except.toOption, Option.filter_some, if_pos hstops]
      rfl
    · rw [if_neg hstops, outcome, Except.toOption, Option.filter_some, if_neg hstops]
      have hvalue : ∀ y, r.next.value r.pool (.later z s.selected w w) ≠ .ok y :=
        value_ne_ok_of_reads h hselected hnext
      obtain ⟨fault, m₂, hfault⟩ := Program.evaluate_of_value_ne_ok hvalue m₁
      rw [EStateM.bind_of_eq_error (x := r.nextTerm s z w w) hfault]
      rfl

theorem orbit_eq_none_iff {raw : Text} (h : read raw = .ok r) (hneeds : r.needsSelected)
    (hselected : s.selected = none) (z : Point) (m : Machine) :
    (r.orbit s z m).1 = none ↔
      ∀ w, r.first.value r.pool (.atStart z none) = .ok w → s.rule.stops w = false := by
  rw [orbit_of_selected_eq_none h hneeds hselected, Option.map_eq_none_iff,
    Option.filter_eq_none_iff]
  constructor
  · intro hnone w hw
    rw [hw] at hnone
    exact Bool.eq_false_iff.2 (hnone w rfl)
  · intro hnone w hw
    cases hvalue : r.first.value r.pool (.atStart z none) with
    | ok w' =>
      rw [hvalue] at hw
      cases hw
      exact Bool.eq_false_iff.1 (hnone w hvalue)
    | error fault =>
      rw [hvalue] at hw
      cases hw

end Recurrence

/-- **What is drawn before the user has selected a point.** If a formula needs the selected point
and there is none, then a point has an orbit exactly if its first term can be worked out without the
selected point and is stopped at once; the orbit is that term alone. In particular nothing has an
orbit if it is the first term that reads the selected point. Drawing leaves every pixel without an
orbit as it was. -/
theorem orbit_of_needsSelected {raw : Text} {r : Recurrence} (h : Recurrence.read raw = .ok r)
    (hneeds : r.needsSelected) (s : Settings) (hselected : s.selected = none) :
    (∀ z m, (r.orbit s z m).1 =
      ((r.first.value r.pool (.atStart z none)).toOption.filter s.rule.stops).map (Orbit.mk 0)) ∧
    (r.first.reads r.pool .selected → ∀ z m, (r.orbit s z m).1 = none) ∧
    ∀ (plane : Plane) (stopped : Nat → Bool) (image : Image) (x y : Nat),
      (∀ w, r.first.value r.pool (.atStart (plane.point ⟨x.toUInt64, y.toUInt64⟩) none) = .ok w →
        s.rule.stops w = false) →
      (r.render s plane stopped image).1.get? x y = image.get? x y := by
  refine ⟨Recurrence.orbit_of_selected_eq_none h hneeds hselected, fun hreads z m ↦ ?_,
    fun plane stopped image x y hnot ↦ ?_⟩
  · refine (Recurrence.orbit_eq_none_iff h hneeds hselected z m).2 fun w hw ↦ ?_
    exact absurd hw (Recurrence.value_ne_ok_of_reads h rfl hreads w)
  · exact Recurrence.get?_render
      (fun m ↦ (Recurrence.orbit_eq_none_iff h hneeds hselected _ m).2 hnot) stopped image

/-- The first term is the point itself, which is not stopped at zero. -/
theorem orbit_of_needsSelected_of_zero : ∃ r, Recurrence.read "c;p*p+u".toList = .ok r ∧
    ∀ m, (r.orbit {} ⟨0, 0⟩ m).1 =
      ((r.first.value r.pool (.atStart ⟨0, 0⟩ none)).toOption.filter StopRule.escape.stops).map
        (Orbit.mk 0) := by
  have hneeds : (Recurrence.read "c;p*p+u".toList).toOption.map Recurrence.needsSelected =
      some true := by decide +kernel
  cases hread : Recurrence.read "c;p*p+u".toList with
  | error e => rw [hread] at hneeds; cases hneeds
  | ok r =>
    rw [hread] at hneeds
    have horbit := (orbit_of_needsSelected hread (Option.some.inj hneeds) {} rfl).1
    exact ⟨r, rfl, horbit ⟨0, 0⟩⟩

/-- The first term does not wait for the user, and where it is stopped at once there is an orbit. -/
theorem exists_orbit_of_needsSelected : ¬∀ raw r, Recurrence.read raw = .ok r →
    r.needsSelected → ∀ s : Settings, s.selected = none → ∀ z m, (r.orbit s z m).1 = none := by
  intro hnone
  have horbit : (Recurrence.read "c;u".toList).toOption.map
      (fun r ↦ (r.needsSelected, (r.orbit { cap := 5 } ⟨3, 0⟩ {}).1)) =
        some (true, some ⟨0, ⟨3, 0⟩⟩) := by decide +kernel
  cases hread : Recurrence.read "c;u".toList with
  | error e => rw [hread] at horbit; cases horbit
  | ok r =>
    rw [hread] at horbit
    obtain ⟨hneeds, hsome⟩ := Prod.mk.inj (Option.some.inj horbit)
    cases hsome.symm.trans (hnone _ r hread hneeds { cap := 5 } rfl ⟨3, 0⟩ {})

end OrbitPlot
