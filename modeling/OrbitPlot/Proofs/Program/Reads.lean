import OrbitPlot.Proofs.Program.Depth

/-!
# The variables that a program reads

What a program reads is found by looking at its code and at the constants that it names, those that
these name, and so on, without running anything. The search is bounded by the depth of the pool, but
unless some constant needs itself it misses nothing. And it tells all that matters: with the same
values for the variables that it reads, a program does the same, whatever its code is.

## Main statements

* `Program.reads_iff_uses`: what is found is what the program uses, at any depth.
* `evaluate_eq_of_reads`: a program depends on no other variables.
-/

namespace OrbitPlot

open Machine

/-! ## What is found -/

theorem Instr.any_reads_iff {slotReads : Nat → Bool} {v : Variable} {code : List Instr} :
    code.any (Instr.reads slotReads v) ↔
      .load v ∈ code ∨ ∃ slot, .complex slot ∈ code ∧ slotReads slot := by
  rw [List.any_eq_true]
  constructor
  · rintro ⟨i, hi, hreads⟩
    cases i with
    | load w =>
      obtain rfl : w = v := of_decide_eq_true hreads
      exact .inl hi
    | complex slot => exact .inr ⟨slot, hi, hreads⟩
    | real slot => cases hreads
    | binary op kind => cases hreads
    | unary op => cases hreads
    | pair => cases hreads
  · rintro (hv | ⟨slot, hslot, hreads⟩)
    · exact ⟨.load v, hv, decide_eq_true rfl⟩
    · exact ⟨.complex slot, hslot, hreads⟩

theorem Pool.slotReads_varying {pool : Pool} {depth slot : Nat} {v : Variable} {program : Program}
    (hslot : pool.complexes.get? slot = some (.varying program)) :
    pool.slotReads v (depth + 1) slot ↔
      .load v ∈ program.code ∨ ∃ k, .complex k ∈ program.code ∧ pool.slotReads v depth k := by
  rw [slotReads]
  simp only [hslot]
  exact Instr.any_reads_iff

theorem Pool.exists_varying_of_slotReads {pool : Pool} {depth slot : Nat} {v : Variable}
    (h : pool.slotReads v depth slot) :
    ∃ d program, depth = d + 1 ∧ pool.complexes.get? slot = some (.varying program) := by
  unfold slotReads at h
  split at h
  · cases h
  · split at h
    · next program hslot => exact ⟨_, program, rfl, hslot⟩
    · cases h

theorem Program.reads_iff {pool : Pool} {program : Program} {v : Variable} :
    program.reads pool v ↔ .load v ∈ program.code ∨
      ∃ slot, .complex slot ∈ program.code ∧ pool.slotReads v pool.depth slot :=
  Instr.any_reads_iff

/-! ## What is used -/

/-- A program uses a variable if it loads it or names a constant whose program uses it, no matter
through how many others. -/
inductive Program.Uses (pool : Pool) (v : Variable) : Program → Prop
  /-- The program loads the variable itself. -/
  | load {program : Program} (h : .load v ∈ program.code) : Uses pool v program
  /-- The program names a constant. -/
  | slot {program constant : Program} {k : Nat} (hk : .complex k ∈ program.code)
    (hslot : pool.complexes.get? k = some (.varying constant)) (h : Uses pool v constant) :
    Uses pool v program

namespace Pool

variable {pool : Pool} {v : Variable} {depth slot : Nat}

theorem uses_of_slotReads {program : Program}
    (hslot : pool.complexes.get? slot = some (.varying program))
    (h : pool.slotReads v depth slot) : program.Uses pool v := by
  induction depth generalizing slot program with
  | zero => cases h
  | succ depth ih =>
    rcases (slotReads_varying hslot).1 h with hload | ⟨k, hk, hreads⟩
    · exact .load hload
    · obtain ⟨-, constant, -, hconstant⟩ := exists_varying_of_slotReads hreads
      exact .slot hk hconstant (ih hconstant hreads)

/-- Whatever a program uses is found, if the chains of slots that start from it end within the depth
to which they are followed. -/
theorem any_reads_of_uses {program : Program} (h : program.Uses pool v)
    (hends : ∀ k, .complex k ∈ program.code → pool.Ends depth k) :
    program.code.any (Instr.reads (pool.slotReads v depth) v) := by
  induction h generalizing depth with
  | load h => exact Instr.any_reads_iff.2 (.inl h)
  | @slot program constant k hk hslot _ ih =>
    obtain ⟨d, rfl, hcode⟩ := (hends k hk).exists_eq_succ hslot
    have hreads := Instr.any_reads_iff.1 (ih hcode)
    exact Instr.any_reads_iff.2 (.inr ⟨k, hk, (slotReads_varying hslot).2 hreads⟩)

end Pool

namespace Program

variable {pool : Pool} {program : Program} {v : Variable}

theorem uses_of_reads (h : program.reads pool v) : program.Uses pool v := by
  rcases reads_iff.1 h with hload | ⟨slot, hslot, hreads⟩
  · exact .load hload
  · obtain ⟨-, constant, -, hconstant⟩ := Pool.exists_varying_of_slotReads hreads
    exact .slot hslot hconstant (Pool.uses_of_slotReads hconstant hreads)

/-- Unless some constant needs itself, a program is found to read the variables that it uses. -/
theorem reads_iff_uses (hpool : pool.Acyclic) : program.reads pool v ↔ program.Uses pool v :=
  ⟨uses_of_reads, fun h ↦ Pool.any_reads_of_uses h fun k _ ↦ hpool.ends k⟩

end Program

/-! ## Nothing else matters -/

theorem Pool.slotValue_congr {pool : Pool} {b b' : Bindings} {depth slot : Nat}
    (h : ∀ v, pool.slotReads v depth slot → b.lookup v = b'.lookup v) :
    pool.slotValue b depth slot = pool.slotValue b' depth slot := by
  induction depth using Nat.strongRecOn generalizing slot with
  | _ depth ih =>
  refine slotValue_eq id fun program d hslot hd ↦ ?_
  subst hd
  refine ⟨d, rfl, Instr.runAll_congr pool (fun v hv ↦ ?_) fun k hk ↦ ?_⟩
  · exact h v ((slotReads_varying hslot).2 (.inl hv))
  · exact ih d (Nat.lt_succ_self d) fun v hv ↦ h v ((slotReads_varying hslot).2 (.inr ⟨k, hk, hv⟩))

namespace Program

variable {pool : Pool} {program : Program} {b b' : Bindings}

theorem run_congr (h : ∀ v, program.reads pool v → b.lookup v = b'.lookup v) :
    program.run pool b = program.run pool b' :=
  Instr.runAll_congr pool (fun v hv ↦ h v (reads_iff.2 (.inl hv))) fun slot hslot ↦
    Pool.slotValue_congr fun v hv ↦ h v (reads_iff.2 (.inr ⟨slot, hslot, hv⟩))

theorem evaluate_congr (h : ∀ v, program.reads pool v → b.lookup v = b'.lookup v) :
    program.evaluate pool b = program.evaluate pool b' := by
  rw [evaluate, evaluate, run_congr h]

end Program

/-- **A program depends on nothing but the variables that it reads.** Unless some constant of the
pool needs itself, these are the variables that it loads, itself or through any number of constants
that name one another; and where they have the same values, or lack them alike, any code comes to
the same, be it a value or a fault, whatever the machines did before. -/
theorem evaluate_eq_of_reads (pool : Pool) (hpool : pool.Acyclic) (program : Program) :
    (∀ v, program.reads pool v ↔ program.Uses pool v) ∧
    ∀ b b' : Bindings, (∀ v, program.reads pool v → b.lookup v = b'.lookup v) →
      ∀ m m', program.evaluate pool b m = program.evaluate pool b' m' := by
  refine ⟨fun v ↦ program.reads_iff_uses hpool, fun b b' h m m' ↦ ?_⟩
  calc program.evaluate pool b m
    _ = program.evaluate pool b {} := program.evaluate_eq_evaluate_new pool b m
    _ = program.evaluate pool b' {} := by rw [Program.evaluate_congr h]
    _ = program.evaluate pool b' m' := (program.evaluate_eq_evaluate_new pool b' m').symm

/-- The code reads one variable, through two constants, and ends with a fault. -/
theorem evaluate_eq_of_reads_of_nested :
    (Program.mk [] [.complex 1, .binary .add .complex]).Uses .nested .current ∧
      (Program.mk [] [.complex 1, .binary .add .complex]).evaluate .nested
          (.later ⟨1, 2⟩ (some ⟨3, 4⟩) ⟨5, 6⟩ ⟨7, 8⟩) {} =
        (Program.mk [] [.complex 1, .binary .add .complex]).evaluate .nested
          (.atStart ⟨1, 2⟩ none) ⟨[1], [], [(0, ⟨5, 5⟩)]⟩ := by
  obtain ⟨huses, hsame⟩ := evaluate_eq_of_reads .nested Pool.acyclic_nested
    ⟨[], [.complex 1, .binary .add .complex]⟩
  refine ⟨(huses .current).1 (by decide), hsame _ _ (fun v hv ↦ ?_) _ _⟩
  cases v with
  | current => rfl
  | selected => exact absurd hv (by decide)
  | first => exact absurd hv (by decide)
  | previous => exact absurd hv (by decide)

end OrbitPlot
