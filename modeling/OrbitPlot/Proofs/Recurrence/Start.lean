import OrbitPlot.Proofs.Recurrence.Sequence

/-!
# First terms worked out in advance

If the first term reads no variable, it is worked out when the recurrence is made, with all
variables zero, and no orbit runs its program again. Here it is shown that this cannot be told from
running the program for every orbit.

The two differ in what the machine has done when the second term is due. But every evaluation starts
with a machine that is cleared, so the terms that follow are the same on any machine, and so is what
becomes of the sequence. The same holds of whole orbits that are worked out one after the other.

## Main statements

* `Recurrence.orbit_eq`: the orbit of a point does not depend on the machine.
* `orbit_eq_of_ofPrograms`: when a first term is worked out in advance, and that it does not show.
-/

namespace OrbitPlot

open Machine

/-! ## Computations on different machines -/

namespace Machine

variable {α β : Type} {x y : Run α} {f g : α → Run β}

/-- Two computations come to the same, whatever machines they are run on. -/
def Agree (x y : Run α) : Prop := ∀ m n, outcome (x m) = outcome (y n)

theorem agree_pure (a : α) : Agree (pure a) (pure a) := fun _ _ ↦ rfl

theorem Agree.bind (hx : Agree x y) (hf : ∀ a, Agree (f a) (g a)) : Agree (x >>= f) (y >>= g) := by
  intro m n
  have hxy : outcome (x m) = outcome (y n) := hx m n
  rcases hm : x m with ⟨a, m'⟩ | ⟨fault, m'⟩
  · rw [hm] at hxy
    obtain ⟨n', hn⟩ := outcome_eq_ok_iff.1 hxy.symm
    rw [EStateM.bind_of_eq_ok hm, EStateM.bind_of_eq_ok hn]
    exact hf a m' n'
  · rw [hm] at hxy
    obtain ⟨n', hn⟩ := outcome_eq_error_iff.1 hxy.symm
    rw [EStateM.bind_of_eq_error hm, EStateM.bind_of_eq_error hn]
    rfl

end Machine

theorem Program.agree_evaluate (pool : Pool) (b : Bindings) (program : Program) :
    Agree (program.evaluate pool b) (program.evaluate pool b) := by
  intro m n
  rw [← value_eq_outcome pool b program m, ← value_eq_outcome pool b program n]

theorem Orbit.agree_follow (stops : Point → Bool) {next : Point → Run Point}
    (hnext : ∀ z, Agree (next z) (next z)) (left : Nat) (steps : UInt64) (z : Point) :
    Agree (follow stops next left steps z) (follow stops next left steps z) := by
  induction left generalizing steps z with
  | zero => exact agree_pure _
  | succ left ih =>
    rw [follow]
    by_cases hstops : stops z
    · rw [if_pos hstops]
      exact agree_pure _
    · rw [if_neg hstops]
      exact (hnext z).bind fun w ↦ ih (steps + 1) w

namespace Recurrence

variable {r : Recurrence} {s : Settings} {z : Point}

/-! ## Orbits on different machines -/

theorem agree_follow (r : Recurrence) (s : Settings) (z first : Point) (left : Nat)
    (steps : UInt64) (w : Point) :
    Agree (Orbit.follow s.rule.stops (r.nextTerm s z first) left steps w)
      (Orbit.follow s.rule.stops (r.nextTerm s z first) left steps w) :=
  Orbit.agree_follow _ (fun _ ↦ r.next.agree_evaluate r.pool _) left steps w

theorem orbit_eq_outcome (r : Recurrence) (s : Settings) (z : Point) (m : Machine) :
    (r.orbit s z m).1 = (outcome (r.trace s z m)).toOption := by
  unfold orbit
  rcases r.trace s z m with ⟨o, m'⟩ | ⟨fault, m'⟩
  · rfl
  · rfl

theorem agree_firstTerm (r : Recurrence) (s : Settings) (z : Point) :
    Agree (r.firstTerm s z) (r.firstTerm s z) := by
  unfold firstTerm
  split
  · exact agree_pure _
  · exact r.first.agree_evaluate r.pool _

/-- The orbit of a point does not depend on what the machine did before. -/
theorem orbit_eq (r : Recurrence) (s : Settings) (z : Point) (m n : Machine) :
    (r.orbit s z m).1 = (r.orbit s z n).1 := by
  have htrace : Agree (r.trace s z) (r.trace s z) :=
    (agree_firstTerm r s z).bind fun first ↦ agree_follow r s z first _ _ _
  rw [orbit_eq_outcome, orbit_eq_outcome, htrace m n]

/-! ## Running the program for the first term each time -/

/-- Follows the sequence of a point like `trace`, but always runs the program for the first term,
even if that is known in advance. -/
def traceAnew (r : Recurrence) (s : Settings) (z : Point) : Run Orbit := do
  let first ← r.first.evaluate r.pool (.atStart z s.selected)
  Orbit.follow s.rule.stops (r.nextTerm s z first) (s.cap.toNat + 1) 0 first

theorem agree_trace_traceAnew (h : ofPrograms r.pool r.first r.next = .ok r) (s : Settings)
    (z : Point) : Agree (r.trace s z) (r.traceAnew s z) := by
  have hfirst : Agree (r.firstTerm s z) (r.first.evaluate r.pool (.atStart z s.selected)) := by
    intro m n
    rw [outcome_firstTerm h, Program.value_eq_outcome _ _ _ n]
  exact hfirst.bind fun first ↦ agree_follow r s z first _ _ _

theorem isSome_start?_iff (h : ofPrograms r.pool r.first r.next = .ok r) :
    r.start?.isSome ↔ r.first.isConstant r.pool := by
  by_cases hconstant : r.first.isConstant r.pool
  · obtain ⟨w, hw, -⟩ := exists_start?_of_isConstant h hconstant
    rw [hw]
    exact ⟨fun _ ↦ hconstant, fun _ ↦ rfl⟩
  · rw [start?_eq_none h hconstant]
    exact ⟨nofun, fun h ↦ absurd h hconstant⟩

theorem isSome_start?_iff_of_read {raw : Text} (h : read raw = .ok r) :
    ∃ first next, Token.splitTerms raw = .ok (first, next) ∧
      (r.start?.isSome ↔ 'c' ∉ first ∧ 'u' ∉ first) := by
  obtain ⟨first, next, hsplit, hf, hp, hreads⟩ := reads_iff_of_read h
  refine ⟨first, next, hsplit, ?_⟩
  rw [isSome_start?_iff (ofPrograms_of_read h), Program.isConstant_iff]
  constructor
  · intro hnone
    have hnot (v : Variable) : v.char ∉ first := fun hmem ↦
      Bool.eq_false_iff.1 (hnone v) ((hreads v).1.2 hmem)
    exact ⟨hnot .current, hnot .selected⟩
  · rintro ⟨hc, hu⟩ v
    have hnot : v.char ∉ first := by
      cases v with
      | current => exact hc
      | selected => exact hu
      | first => exact hf
      | previous => exact hp
    exact Bool.eq_false_iff.2 fun hv ↦ hnot ((hreads v).1.1 hv)

end Recurrence

/-- **That a first term was worked out in advance does not show.** Of programs that are made into a
recurrence, be they read or not, the first is worked out in advance exactly if it reads no variable;
and then that is the value to which every machine comes, whatever values the variables have or lack.
So the orbit of a point is what it would be if the program for the first term were run for every
point. A formula has its first term worked out in advance exactly if the letters of the point and of
the selected point do not occur in it. -/
theorem orbit_eq_of_ofPrograms :
    (∀ pool first next r, Recurrence.ofPrograms pool first next = .ok r →
      (r.start?.isSome ↔ r.first.isConstant r.pool) ∧
      (∀ w, r.start? = some w → ∀ b m, outcome (r.first.evaluate r.pool b m) = .ok w) ∧
      ∀ s z m n, (r.orbit s z m).1 = (outcome (r.traceAnew s z n)).toOption) ∧
    ∀ raw r, Recurrence.read raw = .ok r → ∃ first next,
      Token.splitTerms raw = .ok (first, next) ∧
      (r.start?.isSome ↔ 'c' ∉ first ∧ 'u' ∉ first) := by
  refine ⟨fun pool first next r hmade ↦ ?_, fun raw r h ↦ Recurrence.isSome_start?_iff_of_read h⟩
  have h : Recurrence.ofPrograms r.pool r.first r.next = .ok r :=
    Recurrence.ofPrograms_eq_self hmade
  refine ⟨Recurrence.isSome_start?_iff h, fun w hstart b m ↦ ?_, fun s z m n ↦ ?_⟩
  · have hconstant : r.first.isConstant r.pool :=
      (Recurrence.isSome_start?_iff h).1 (Option.isSome_iff_exists.2 ⟨w, hstart⟩)
    obtain ⟨w', hstart', hvalue⟩ := Recurrence.exists_start?_of_isConstant h hconstant
    cases hstart.symm.trans hstart'
    rw [← Program.value_eq_outcome]
    exact hvalue b
  · rw [Recurrence.orbit_eq_outcome, Recurrence.agree_trace_traceAnew h s z m n]

/-- One first term names a constant that reads the point, and is not worked out in advance. Another
has in it no letter of a variable, although one of an operator, and is. -/
theorem orbit_eq_of_ofPrograms_of_nested :
    (∃ r, Recurrence.ofPrograms .nested ⟨[], [.complex 0]⟩ ⟨[], [.complex 1]⟩ = .ok r ∧
      r.start?.isSome = false ∧
      ∀ z, (r.orbit {} z {}).1 = (outcome (r.traceAnew {} z {})).toOption) ∧
    ∃ r w, Recurrence.read "[1,a2];p*p+c".toList = .ok r ∧ r.start? = some w ∧
      ∀ b m, outcome (r.first.evaluate r.pool b m) = .ok w := by
  constructor
  · have hconstant : (Recurrence.ofPrograms .nested ⟨[], [.complex 0]⟩ ⟨[], [.complex 1]⟩
        ).toOption.map (fun r ↦ r.first.isConstant r.pool) = some false := by decide +kernel
    cases hmade : Recurrence.ofPrograms .nested ⟨[], [.complex 0]⟩ ⟨[], [.complex 1]⟩ with
    | error e => rw [hmade] at hconstant; cases hconstant
    | ok r =>
      rw [hmade] at hconstant
      obtain ⟨hstart, -, horbit⟩ := orbit_eq_of_ofPrograms.1 _ _ _ r hmade
      refine ⟨r, rfl, Bool.eq_false_iff.2 fun hsome ↦ ?_, fun z ↦ horbit {} z {} {}⟩
      exact Bool.eq_false_iff.1 (Option.some.inj hconstant) (hstart.1 hsome)
  · have hok : (Recurrence.read "[1,a2];p*p+c".toList).isOk := by decide +kernel
    cases hread : Recurrence.read "[1,a2];p*p+c".toList with
    | error e => rw [hread] at hok; cases hok
    | ok r =>
      obtain ⟨first, next, hsplit, hstart⟩ := orbit_eq_of_ofPrograms.2 _ r hread
      have hterms : Token.splitTerms "[1,a2];p*p+c".toList =
          .ok ("[1,a2]".toList, "p*p+c".toList) :=
        Token.splitTerms_eq_ok_iff.2 ⟨rfl, by decide, by decide⟩
      cases hterms.symm.trans hsplit
      obtain ⟨w, hw⟩ := Option.isSome_iff_exists.1 (hstart.2 (by decide))
      obtain ⟨-, hvalue, -⟩ :=
        orbit_eq_of_ofPrograms.1 _ _ _ r (Recurrence.ofPrograms_of_read hread)
      exact ⟨r, w, rfl, hw, hvalue w hw⟩

end OrbitPlot
