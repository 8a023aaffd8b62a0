import OrbitPlot.Proofs.Program.Reads
import OrbitPlot.Proofs.Recurrence.Memory

/-!
# The variables that a program needs

A program that has passed its test has a value exactly where all variables that it reads have one:
it needs no others, and each of those it comes to load, since nothing in a program is passed over.

## Main statement

* `Program.exists_evaluate_iff`: where a program has a value.
-/

namespace OrbitPlot

open Machine

/-! ## Variables that are read are needed -/

theorem Instr.isSome_lookup_of_runAll {slotValue : Nat → Run Point} {slotReads : Nat → Bool}
    {pool : Pool} {b : Bindings} {v : Variable} {code : List Instr} {m n : Machine}
    (h : runAll slotValue pool b code m = .ok () n) (hv : code.any (Instr.reads slotReads v))
    (hslot : ∀ slot m z n, slotValue slot m = .ok z n → slotReads slot → (b.lookup v).isSome) :
    (b.lookup v).isSome := by
  induction code generalizing m with
  | nil => cases hv
  | cons i code ih =>
    obtain ⟨_, m', hi, hcode⟩ := EStateM.bind_eq_ok_iff.1 h
    rw [List.any_cons, Bool.or_eq_true] at hv
    rcases hv with hv | hv
    · cases i with
      | load w =>
        obtain rfl : w = v := of_decide_eq_true hv
        obtain ⟨z, _, hz, -⟩ := EStateM.bind_eq_ok_iff.1 hi
        cases hlookup : b.lookup w with
        | some z => rfl
        | none => rw [hlookup] at hz; cases hz
      | complex slot =>
        obtain ⟨z, m'', hz, -⟩ := EStateM.bind_eq_ok_iff.1 hi
        exact hslot slot m z m'' hz hv
      | real slot => cases hv
      | binary op kind => cases hv
      | unary op => cases hv
      | pair => cases hv
    · exact ih hcode hv

theorem Pool.isSome_lookup_of_slotAnew {pool : Pool} {b : Bindings} {depth slot : Nat}
    {v : Variable} {m n : Machine} {z : Point} (h : pool.slotAnew b depth slot m = .ok z n)
    (hv : pool.slotReads v depth slot) : (b.lookup v).isSome := by
  induction depth generalizing slot m z n with
  | zero => cases hv
  | succ d ih =>
    rcases pool.slot_cases (d + 1) slot with ⟨z, hslot⟩ | ⟨program, d, hslot, heq⟩ | hslot
    · rw [slotReads] at hv
      simp only [hslot] at hv
      cases hv
    · cases heq
      rw [slotAnew_varying hslot] at h
      obtain ⟨_, _, hrun, -⟩ := EStateM.bind_eq_ok_iff.1 h
      have hreads := Instr.any_reads_iff.2 ((slotReads_varying hslot).1 hv)
      exact Instr.isSome_lookup_of_runAll hrun hreads fun _ _ _ _ hz hk ↦ ih hz hk
    · rw [slotAnew_blocked hslot] at h
      cases h

namespace Bindings

/-- The values of the variables, and zero for those that have none. -/
def filled (b : Bindings) : Bindings :=
  later b.current (some (b.selected.getD .zero)) (b.first.getD .zero) (b.previous.getD .zero)

theorem isSome_lookup_filled (b : Bindings) (v : Variable) : (b.filled.lookup v).isSome := by
  cases v <;> rfl

theorem lookup_filled {b : Bindings} {v : Variable} (h : (b.lookup v).isSome) :
    b.filled.lookup v = b.lookup v := by
  have hne : b.lookup v ≠ none := Option.isSome_iff_ne_none.1 h
  cases v with
  | current => rfl
  | selected => exact Option.getD_of_ne_none hne .zero
  | first => exact Option.getD_of_ne_none hne .zero
  | previous => exact Option.getD_of_ne_none hne .zero

end Bindings

namespace Program

variable {pool : Pool} {program : Program} {b : Bindings}

theorem exists_evaluate (h : program.fits pool)
    (hb : ∀ v, program.reads pool v → (b.lookup v).isSome) (m : Machine) :
    ∃ z m', program.evaluate pool b m = .ok z m' := by
  rw [evaluate_congr fun v hv ↦ (Bindings.lookup_filled (hb v hv)).symm]
  obtain ⟨z, known, hrun⟩ := leavesPoint_of_fits h b.isSome_lookup_filled
  exact ⟨z, _, evaluate_of_run hrun m⟩

theorem isSome_lookup_of_evaluate (hpool : pool.Acyclic) (hfit : pool.AllFit) {m m' : Machine}
    {z : Point} (h : program.evaluate pool b m = .ok z m') {v : Variable}
    (hv : program.reads pool v) : (b.lookup v).isSome := by
  -- without a memory, every slot that is named is run, so whatever it reads is needed
  have hsame := program.outcome_evaluate hpool hfit b m {} (Nat.le_refl _)
  rw [h] at hsame
  obtain ⟨n, hanew⟩ := outcome_eq_ok_iff.1 hsame.symm
  obtain ⟨_, _, -, hrun⟩ := EStateM.bind_eq_ok_iff.1 hanew
  obtain ⟨_, _, hrun, -⟩ := EStateM.bind_eq_ok_iff.1 hrun
  exact Instr.isSome_lookup_of_runAll hrun hv fun _ _ _ _ hz hslot ↦
    Pool.isSome_lookup_of_slotAnew hz hslot

/-- Where it and all programs in the pool have passed their tests, a program has a value exactly if
all variables that it reads have one. -/
theorem exists_evaluate_iff (hpool : pool.Acyclic) (hfit : pool.AllFit) (h : program.fits pool)
    (m : Machine) :
    (∃ z m', program.evaluate pool b m = .ok z m') ↔
      ∀ v, program.reads pool v → (b.lookup v).isSome :=
  ⟨fun ⟨_, _, hz⟩ _ hv ↦ isSome_lookup_of_evaluate hpool hfit hz hv,
    fun hb ↦ exists_evaluate h hb m⟩

end Program

end OrbitPlot
