import OrbitPlot.Proofs.Program.Coupling
import OrbitPlot.Proofs.Program.Depth
import OrbitPlot.Proofs.Program.Execution
import OrbitPlot.Recurrence.Basic

/-!
# What one trial tells

Programs are tried out once, when a recurrence is made, and with all variables zero. That one trial
decides whether a program leaves one point wherever all variables have values, for any code and any
pool, also where a program in the pool takes values that were there before it. A program that has
passed can fail only for want of a value.

## Main statement

`fits_iff_leavesPoint`: one trial decides for all values of the variables.
-/

namespace OrbitPlot

open Machine

/-! ## Runs of the same shape -/

namespace Machine

/-- A run on some values of the variables beside one where they are zero. Only the number of values
matters. A variable may lack a value in the first run. -/
def Coupling.shape (b : Bindings) : Coupling where
  sameValues := False
  reals := []
  points := []
  known known known' := ∀ slot, (known.lookup slot).isSome = (known'.lookup slot).isSome
  excused fault := ∃ v, fault = .missing v ∧ b.lookup v = none
  excused_malformed := .inr ⟨rfl, rfl⟩

theorem Coupling.remembers_shape (b : Bindings) : (shape b).Remembers where
  lookup {known known'} h slot := by
    have hsame : (known.lookup slot).isSome = (known'.lookup slot).isSome := h slot
    cases hz : known.lookup slot with
    | none =>
      rw [hz] at hsame
      exact .inl ⟨rfl, Option.isNone_iff_eq_none.1 (Option.isSome_eq_false_iff.1 hsame.symm)⟩
    | some z =>
      rw [hz] at hsame
      obtain ⟨w, hw⟩ := Option.isSome_iff_exists.1 hsame.symm
      exact .inr ⟨z, w, rfl, hw, False.elim⟩
  cons h slot _ _ _ k := by
    rw [List.lookup_cons, List.lookup_cons]
    cases k == slot with
    | true => rfl
    | false => exact h k

/-- There is one point on the stacks and no real number. -/
def HasPoint (m : Machine) : Prop := m.reals.length = 0 ∧ m.points.length = 1

theorem hasPoint_iff {m : Machine} : m.HasPoint ↔ ∃ z known, m = ⟨[], [z], known⟩ := by
  obtain ⟨rs, ps, known⟩ := m
  constructor
  · rintro ⟨hreals, hpoints⟩
    obtain rfl : rs = [] := List.length_eq_zero_iff.1 hreals
    obtain ⟨z, rfl⟩ : ∃ z, ps = [z] := List.length_eq_one_iff.1 hpoints
    exact ⟨z, known, rfl⟩
  · rintro ⟨z, known', hm⟩
    cases hm
    exact ⟨rfl, rfl⟩

theorem Coupling.hasPoint_iff {b : Bindings} {m n : Machine} (h : (shape b).Machines m n) :
    m.HasPoint ↔ n.HasPoint := by
  rw [HasPoint, HasPoint, h.reals.length_eq, h.points.length_eq]

end Machine

/-! ## Trials -/

namespace Program

variable {pool : Pool} {program : Program} {b : Bindings}

/-- A program does the same on any values of the variables, as far as numbers of values go. -/
theorem run_shape (pool : Pool) (program : Program) (b : Bindings) :
    (Coupling.shape b).Results (program.run pool b {}) (program.run pool .zero {}) := by
  have hload (v : Variable) : Instr.LoadsCoupled (.shape b) b .zero v := by
    have hzero : Bindings.zero.lookup v = some .zero := by cases v <;> rfl
    exact .require (fun hnone ↦ .inl ⟨v, rfl, hnone⟩) fun z _ ↦ ⟨.zero, hzero, False.elim⟩
  have hrun : (Coupling.shape b).Runs (program.run pool b) (program.run pool .zero) :=
    Instr.runAll_coupled (fun v _ ↦ hload v) fun slot _ ↦
      pool.slotValue_coupled (Coupling.remembers_shape b) hload pool.depth slot
  exact hrun ⟨.append [] [], .append [] [], fun _ ↦ rfl⟩

/-- From empty stacks, a program runs to its end and leaves one point and no real number. -/
def LeavesPoint (pool : Pool) (b : Bindings) (program : Program) : Prop :=
  ∃ z known, program.run pool b {} = .ok () ⟨[], [z], known⟩

theorem fits_iff_leavesPoint_zero : program.fits pool ↔ program.LeavesPoint pool .zero := by
  unfold fits test LeavesPoint
  rcases program.run pool .zero {} with ⟨_, ⟨rs, ps, known⟩⟩ | ⟨fault, m⟩
  · simp [List.length_eq_one_iff]
  · simp

/-- A program that passes the test leaves one point, or else it lacks the value of a variable. -/
theorem run_of_fits (h : program.fits pool) (b : Bindings) :
    program.LeavesPoint pool b ∨
      ∃ v m, b.lookup v = none ∧ program.run pool b {} = .error (.missing v) m := by
  obtain ⟨z, known, hzero⟩ := fits_iff_leavesPoint_zero.1 h
  have hresults := program.run_shape pool b
  rw [hzero] at hresults
  unfold LeavesPoint
  generalize program.run pool b {} = r at hresults
  cases hresults with
  | ok _ hmachines =>
    have hpoint := (Coupling.hasPoint_iff hmachines).2 (hasPoint_iff.2 ⟨z, known, rfl⟩)
    obtain ⟨w, known', rfl⟩ := hasPoint_iff.1 hpoint
    exact .inl ⟨w, known', rfl⟩
  | excused hexcused m =>
    obtain ⟨v, rfl, hv⟩ := hexcused
    exact .inr ⟨v, m, hv, rfl⟩

theorem fits_of_leavesPoint (h : program.LeavesPoint pool b) : program.fits pool := by
  obtain ⟨z, known, hrun⟩ := h
  have hresults := program.run_shape pool b
  rw [hrun] at hresults
  obtain ⟨_, n, hzero, -, hmachines⟩ := hresults.exists_ok
  have hpoint := (Coupling.hasPoint_iff hmachines).1 (hasPoint_iff.2 ⟨z, known, rfl⟩)
  obtain ⟨w, known', rfl⟩ := hasPoint_iff.1 hpoint
  exact fits_iff_leavesPoint_zero.2 ⟨w, known', hzero⟩

theorem leavesPoint_of_fits (h : program.fits pool) (hb : ∀ v, (b.lookup v).isSome) :
    program.LeavesPoint pool b := by
  refine (run_of_fits h b).resolve_right ?_
  rintro ⟨v, m, hv, -⟩
  have hsome := hb v
  rw [hv] at hsome
  cases hsome

theorem evaluate_of_fits (h : program.fits pool) (b : Bindings) (m : Machine) :
    (∃ z m', program.evaluate pool b m = .ok z m') ∨
      ∃ v m', b.lookup v = none ∧ program.evaluate pool b m = .error (.missing v) m' := by
  rcases run_of_fits h b with ⟨z, known, hrun⟩ | ⟨v, m', hv, hrun⟩
  · exact .inl ⟨z, _, evaluate_of_run hrun m⟩
  · have hreset : Machine.reset m = .ok () {} := rfl
    exact .inr ⟨v, m', hv, (EStateM.bind_of_eq_ok hreset).trans (EStateM.bind_of_eq_error hrun)⟩

end Program

theorem Recurrence.ofPrograms_eq_ok_iff {pool : Pool} {first next : Program} {r : Recurrence} :
    ofPrograms pool first next = .ok r ↔ first.fits pool ∧ next.fits pool ∧
      r = ⟨first, next, pool,
        if first.isConstant pool then (first.value pool .zero).toOption else none⟩ := by
  unfold ofPrograms
  cases first.fits pool with
  | false => exact ⟨nofun, nofun⟩
  | true =>
    cases next.fits pool with
    | false => exact ⟨nofun, nofun⟩
    | true =>
      exact ⟨fun h ↦ ⟨rfl, rfl, (Except.ok.inj h).symm⟩, fun h ↦ congrArg Except.ok h.2.2.symm⟩

theorem Recurrence.ofPrograms_eq_self {pool : Pool} {first next : Program} {r : Recurrence}
    (h : ofPrograms pool first next = .ok r) : ofPrograms r.pool r.first r.next = .ok r := by
  obtain ⟨-, -, rfl⟩ := ofPrograms_eq_ok_iff.1 h
  exact h

/-- **One trial decides for all values of the variables.** A program passes the test exactly if it
leaves one point wherever all variables have values, and if it does not pass it leaves one nowhere.
This holds of any code and any pool; unless a constant of the pool needs itself, no run is cut off,
so that following slots any further would change nothing. Hence programs that were made into a
recurrence never turn out to be malformed, whatever variables have values. -/
theorem fits_iff_leavesPoint :
    (∀ (pool : Pool) (program : Program),
      (program.fits pool ↔ ∀ b, (∀ v, (b.lookup v).isSome) → program.LeavesPoint pool b) ∧
      (program.fits pool = false →
        ∀ b, (∀ v, (b.lookup v).isSome) → ¬program.LeavesPoint pool b) ∧
      (pool.Acyclic → ∀ depth b, pool.depth ≤ depth →
        program.runWithin pool b depth = program.run pool b)) ∧
    ∀ (pool : Pool) (first next : Program) (r : Recurrence),
      Recurrence.ofPrograms pool first next = .ok r → ∀ (b : Bindings) (m m' : Machine),
        r.first.evaluate r.pool b m ≠ .error .malformed m' ∧
          r.next.evaluate r.pool b m ≠ .error .malformed m' := by
  refine ⟨fun pool program ↦ ⟨⟨fun h b hb ↦ program.leavesPoint_of_fits h hb, fun h ↦ ?_⟩, ?_, ?_⟩,
    fun pool first next r h b m m' ↦ ?_⟩
  · exact Program.fits_of_leavesPoint (h .zero fun v ↦ by cases v <;> rfl)
  · intro h b _ hleaves
    rw [Program.fits_of_leavesPoint hleaves] at h
    cases h
  · intro hpool depth b hdepth
    exact Program.runWithin_eq_run hpool hdepth
  · obtain ⟨hfirst, hnext, rfl⟩ := Recurrence.ofPrograms_eq_ok_iff.1 h
    have hsound {program : Program} (hfits : program.fits pool) :
        program.evaluate pool b m ≠ .error .malformed m' := by
      intro hfault
      rcases program.evaluate_of_fits hfits b m with ⟨z, n, hrun⟩ | ⟨v, n, -, hrun⟩
      · cases hrun.symm.trans hfault
      · cases hrun.symm.trans hfault
    exact ⟨hsound hfirst, hsound hnext⟩

/-- The program names a constant that names another one, which it then names itself. -/
theorem fits_iff_leavesPoint_of_nested :
    (Program.mk [] [.complex 1, .complex 0, .binary .add .complex]).LeavesPoint .nested
        (.later ⟨1, 2⟩ (some ⟨3, 4⟩) ⟨5, 6⟩ ⟨7, 8⟩) ∧
      ¬(Program.mk [] [.complex 1, .complex 0]).LeavesPoint .nested
        (.later ⟨1, 2⟩ (some ⟨3, 4⟩) ⟨5, 6⟩ ⟨7, 8⟩) ∧
      (Program.mk [] [.complex 1]).runWithin .nested .zero 10 =
        (Program.mk [] [.complex 1]).run .nested .zero ∧
      ∃ r, Recurrence.ofPrograms .nested ⟨[], [.complex 0]⟩ ⟨[], [.complex 1]⟩ = .ok r ∧
        r.next.evaluate r.pool (.atStart .zero none) {} ≠ .error .malformed {} := by
  have hfull (v : Variable) :
      ((Bindings.later ⟨1, 2⟩ (some ⟨3, 4⟩) ⟨5, 6⟩ ⟨7, 8⟩).lookup v).isSome := by
    cases v <;> rfl
  refine ⟨?_, ?_, ?_, ?_⟩
  · exact (fits_iff_leavesPoint.1 .nested _).1.1 (by decide +kernel) _ hfull
  · exact (fits_iff_leavesPoint.1 .nested _).2.1 (by decide +kernel) _ hfull
  · exact (fits_iff_leavesPoint.1 .nested _).2.2 Pool.acyclic_nested 10 .zero (by decide)
  · have hok : (Recurrence.ofPrograms .nested ⟨[], [.complex 0]⟩ ⟨[], [.complex 1]⟩).isOk := by
      decide +kernel
    cases hmade : Recurrence.ofPrograms .nested ⟨[], [.complex 0]⟩ ⟨[], [.complex 1]⟩ with
    | error e => rw [hmade] at hok; cases hok
    | ok r => exact ⟨r, rfl, (fits_iff_leavesPoint.2 _ _ _ r hmade (.atStart .zero none) {} {}).2⟩

end OrbitPlot
