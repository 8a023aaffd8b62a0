import Mathlib.Data.List.Perm.Subperm
import OrbitPlot.Proofs.Program.Pool
import OrbitPlot.Proofs.Program.Step

/-!
# Constants that refer to one another

A varying constant may name other slots, and those again others. Following slots is bounded by the
depth of the pool, and this module shows that the bound is no restriction: unless some constant
needs itself, every chain of slots ends within it, because no slot can be passed twice and there are
only so many. So what a slot yields is the same at every depth from there on.

## Main statements

* `Pool.Acyclic.ends`: where no constant needs itself, every slot ends within the depth of the pool.
* `Pool.slotValue_eq_of_ends`: what a slot yields does not depend on the depth if that is enough.
* `Pool.acyclic_of_lt`: no constant needs itself if each names only slots before its own.
-/

namespace OrbitPlot

open Machine

namespace Pool

variable {pool : Pool} {depth depth' slot k : Nat}

/-- A slot holds a program that names another. -/
def Refers (pool : Pool) (slot k : Nat) : Prop :=
  ∃ program, pool.complexes.get? slot = some (.varying program) ∧ .complex k ∈ program.code

/-- No constant needs itself, not even through others. -/
def Acyclic (pool : Pool) : Prop := ∀ slot, ¬Relation.TransGen pool.Refers slot slot

/-- Every chain of slots from here ends within so many steps. -/
def Ends (pool : Pool) : (depth slot : Nat) → Prop
  | 0, slot => ∀ program, pool.complexes.get? slot ≠ some (.varying program)
  | depth + 1, slot => ∀ k, pool.Refers slot k → pool.Ends depth k

theorem Ends.mono (h : pool.Ends depth slot) (hle : depth ≤ depth') : pool.Ends depth' slot := by
  induction depth generalizing depth' slot with
  | zero =>
    cases depth' with
    | zero => exact h
    | succ d => exact fun k ⟨program, hslot, _⟩ ↦ absurd hslot (h program)
  | succ depth ih =>
    cases depth' with
    | zero => exact absurd hle (Nat.not_succ_le_zero _)
    | succ d => exact fun k hk ↦ ih (h k hk) (Nat.le_of_succ_le_succ hle)

/-- A chain has passed these slots, each of them once, before it has come to `slot`. -/
structure Passed (pool : Pool) (passed : List Nat) (slot : Nat) : Prop where
  /-- No slot was passed twice. -/
  nodup : passed.Nodup
  /-- Only slots in use were passed. -/
  lt : ∀ k ∈ passed, k < pool.depth
  /-- All of them lead to `slot`. -/
  leads : ∀ k ∈ passed, Relation.TransGen pool.Refers k slot

namespace Passed

variable {passed : List Nat}

theorem cons_nodup (h : pool.Passed passed slot) (hpool : pool.Acyclic) {program : Program}
    (hslot : pool.complexes.get? slot = some (.varying program)) :
    (slot :: passed).Nodup ∧ ∀ k ∈ slot :: passed, k < pool.depth :=
  ⟨List.nodup_cons.2 ⟨fun hmem ↦ hpool slot (h.leads slot hmem), h.nodup⟩,
    List.forall_mem_cons.2 ⟨Slots.get?_lt_size hslot, h.lt⟩⟩

theorem step (h : pool.Passed passed slot) (hpool : pool.Acyclic) (hk : pool.Refers slot k) :
    pool.Passed (slot :: passed) k := by
  obtain ⟨program, hslot, -⟩ := id hk
  obtain ⟨hnodup, hlt⟩ := h.cons_nodup hpool hslot
  exact ⟨hnodup, hlt, List.forall_mem_cons.2 ⟨.single hk, fun j hj ↦ (h.leads j hj).tail hk⟩⟩

theorem length_lt (h : pool.Passed passed slot) (hpool : pool.Acyclic) {program : Program}
    (hslot : pool.complexes.get? slot = some (.varying program)) :
    passed.length < pool.depth := by
  obtain ⟨hnodup, hlt⟩ := h.cons_nodup hpool hslot
  -- this slot is one more, and there are no more different slots than the depth says
  have hsubset : slot :: passed ⊆ List.range pool.depth := fun k hk ↦ List.mem_range.2 (hlt k hk)
  have hlength := (hnodup.subperm hsubset).length_le
  rwa [List.length_range] at hlength

theorem ends (h : pool.Passed passed slot) (hpool : pool.Acyclic)
    (hdepth : pool.depth ≤ passed.length + depth) : pool.Ends depth slot := by
  induction depth generalizing passed slot with
  | zero =>
    intro program hslot
    exact absurd (h.length_lt hpool hslot) (Nat.not_lt_of_le hdepth)
  | succ depth ih =>
    intro k hk
    refine ih (h.step hpool hk) ?_
    rwa [List.length_cons, Nat.succ_add_eq_add_succ]

end Passed

/-- Unless a constant needs itself, every chain of slots ends within the depth of the pool. -/
theorem Acyclic.ends (h : pool.Acyclic) (slot : Nat) : pool.Ends pool.depth slot :=
  Passed.ends ⟨List.nodup_nil, nofun, nofun⟩ h (Nat.le_add_left _ _)

/-- If a constant names only slots that come before its own, none needs itself. -/
theorem acyclic_of_lt (h : ∀ slot k, pool.Refers slot k → k < slot) : pool.Acyclic := by
  intro slot hslot
  have hlt {j k} (hjk : Relation.TransGen pool.Refers j k) : k < j := by
    induction hjk with
    | single hjk => exact h _ _ hjk
    | tail _ hk ih => exact Nat.lt_trans (h _ _ hk) ih
  exact Nat.lt_irrefl slot (hlt hslot)

/-- Two constants, of which the second names the first twice. -/
def nested : Pool where
  complexes := ⟨#[.varying ⟨[], [.load .current]⟩,
    .varying ⟨[], [.complex 0, .complex 0, .binary .mul .complex]⟩], by decide⟩

theorem acyclic_nested : nested.Acyclic := by
  refine acyclic_of_lt fun slot k ⟨program, hslot, hk⟩ ↦ ?_
  rcases slot with _ | _ | slot
  · cases hslot
    simp at hk
  · cases hslot
    obtain rfl : k = 0 := by simpa using hk
    exact Nat.zero_lt_one
  · cases hslot

end Pool

/-! ## What slots yield at different depths -/

namespace Pool

variable {pool : Pool} {b : Bindings} {depth depth' slot : Nat}

theorem Ends.exists_eq_succ (h : pool.Ends depth slot) {program : Program}
    (hslot : pool.complexes.get? slot = some (.varying program)) :
    ∃ d, depth = d + 1 ∧ ∀ k, .complex k ∈ program.code → pool.Ends d k := by
  cases depth with
  | zero => exact absurd hslot (h program)
  | succ d => exact ⟨d, rfl, fun k hk ↦ h k ⟨program, hslot, hk⟩⟩

/-- Where a chain ends, only an empty slot has no value of its own. -/
theorem Ends.blocked (h : pool.Ends depth slot) (hslot : pool.Blocked depth slot) :
    pool.Blocked depth' slot := by
  intro c hc
  obtain ⟨rfl, program, rfl⟩ := hslot c hc
  exact absurd hc (h program)

/-- What a slot yields is the same at all depths within which its chains end. -/
theorem slotValue_eq_of_ends (h : pool.Ends depth slot) (h' : pool.Ends depth' slot) :
    pool.slotValue b depth slot = pool.slotValue b depth' slot := by
  induction depth using Nat.strongRecOn generalizing depth' slot with
  | _ depth ih =>
  refine slotValue_eq h.blocked fun program d hslot hd ↦ ?_
  subst hd
  obtain ⟨d', rfl, hcode'⟩ := h'.exists_eq_succ hslot
  exact ⟨d', rfl, Instr.runAll_congr pool (fun _ _ ↦ rfl) fun k hk ↦
    ih d (Nat.lt_succ_self d) (h k ⟨program, hslot, hk⟩) (hcode' k hk)⟩

end Pool

namespace Program

variable {pool : Pool} {program : Program} {b : Bindings}

/-- Runs a program like `Program.run`, but follows slots down to another depth. -/
def runWithin (pool : Pool) (b : Bindings) (depth : Nat) (program : Program) : Run Unit :=
  Instr.runAll (pool.slotValue b depth) pool b program.code

theorem runWithin_eq_run (hpool : pool.Acyclic) {depth : Nat} (h : pool.depth ≤ depth) :
    program.runWithin pool b depth = program.run pool b :=
  Instr.runAll_congr pool (fun _ _ ↦ rfl) fun slot _ ↦
    Pool.slotValue_eq_of_ends ((hpool.ends slot).mono h) (hpool.ends slot)

end Program

end OrbitPlot
