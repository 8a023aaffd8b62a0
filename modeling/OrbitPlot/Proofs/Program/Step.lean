import OrbitPlot.Program.Machine
import OrbitPlot.Proofs.Outcome

/-!
# Code and slots, step by step

What a row of instructions does is what its first part does and then what the rest does from there.
What a slot does is told by whether its point is remembered, and otherwise by what it holds.
-/

namespace OrbitPlot

open Machine

namespace Instr

variable {slotValue slotValue' : Nat → Run Point} {b b' : Bindings} (pool : Pool)

theorem runAll_append (b : Bindings) (code rest : List Instr) :
    runAll slotValue pool b (code ++ rest) =
      (do runAll slotValue pool b code; runAll slotValue pool b rest) := by
  induction code with
  | nil => rfl
  | cons i code ih => rw [List.cons_append, runAll, runAll, ih, bind_assoc]

/-- Code does the same wherever its variables have the same values and its complex slots yield the
same. -/
theorem runAll_congr {code : List Instr} (hload : ∀ v, load v ∈ code → b.lookup v = b'.lookup v)
    (hslot : ∀ slot, complex slot ∈ code → slotValue slot = slotValue' slot) :
    runAll slotValue pool b code = runAll slotValue' pool b' code := by
  induction code with
  | nil => rfl
  | cons i code ih =>
    have hi : i.run slotValue pool b = i.run slotValue' pool b' := by
      cases i with
      | load v => rw [run, run, hload v List.mem_cons_self]
      | complex slot => rw [run, run, hslot slot List.mem_cons_self]
      | binary op kind => cases kind <;> rfl
      | unary op => cases op <;> rfl
      | _ => rfl
    rw [runAll, runAll, hi, ih (fun v hv ↦ hload v (List.mem_cons_of_mem _ hv))
      fun slot h ↦ hslot slot (List.mem_cons_of_mem _ h)]

end Instr

namespace Pool

variable {pool : Pool} {b b' : Bindings} {depth depth' slot : Nat} {m : Machine}

theorem slotValue_of_known {z : Point} (h : m.known.lookup slot = some z) :
    pool.slotValue b depth slot m = .ok z m := by
  unfold slotValue
  simp only [h]

theorem slotValue_fixed {z : Point} (h : m.known.lookup slot = none)
    (hslot : pool.complexes.get? slot = some (.fixed z)) :
    pool.slotValue b depth slot m = .ok z m := by
  unfold slotValue
  simp only [h, hslot]

theorem slotValue_varying {program : Program} (h : m.known.lookup slot = none)
    (hslot : pool.complexes.get? slot = some (.varying program)) :
    pool.slotValue b (depth + 1) slot m =
      (do
        Instr.runAll (pool.slotValue b depth) pool b program.code
        let z ← popPoint
        remember slot z
        return z : Run Point) m := by
  rw [slotValue]
  simp only [h, hslot]

/-- A slot has no value of its own: it is empty, or it holds a program and there is no level left to
run it. -/
def Blocked (pool : Pool) (depth slot : Nat) : Prop :=
  ∀ c, pool.complexes.get? slot = some c → depth = 0 ∧ ∃ program, c = .varying program

theorem slotValue_blocked (h : m.known.lookup slot = none) (hslot : pool.Blocked depth slot) :
    pool.slotValue b depth slot m = .error .malformed m := by
  unfold slotValue
  simp only [h]
  split
  · next z hz => cases (hslot _ hz).2.choose_spec
  · next d program hz => cases (hslot _ hz).1
  · rfl

theorem slot_cases (pool : Pool) (depth slot : Nat) :
    (∃ z, pool.complexes.get? slot = some (.fixed z)) ∨
      (∃ program d, pool.complexes.get? slot = some (.varying program) ∧ depth = d + 1) ∨
      pool.Blocked depth slot := by
  rcases hslot : pool.complexes.get? slot with _ | ⟨z⟩ | ⟨program⟩
  · exact .inr (.inr fun c hc ↦ nomatch hslot.symm.trans hc)
  · exact .inl ⟨z, rfl⟩
  · cases depth with
    | succ d => exact .inr (.inl ⟨program, d, rfl, rfl⟩)
    | zero => exact .inr (.inr fun c hc ↦ by cases hslot.symm.trans hc; exact ⟨rfl, program, rfl⟩)

theorem slotValue_eq (hblocked : pool.Blocked depth slot → pool.Blocked depth' slot)
    (hrun : ∀ program d, pool.complexes.get? slot = some (.varying program) → depth = d + 1 →
      ∃ d', depth' = d' + 1 ∧ Instr.runAll (pool.slotValue b d) pool b program.code =
        Instr.runAll (pool.slotValue b' d') pool b' program.code) :
    pool.slotValue b depth slot = pool.slotValue b' depth' slot := by
  funext m
  cases hknown : m.known.lookup slot with
  | some z => rw [slotValue_of_known hknown, slotValue_of_known hknown]
  | none =>
    rcases pool.slot_cases depth slot with ⟨z, hslot⟩ | ⟨program, d, hslot, hd⟩ | hslot
    · rw [slotValue_fixed hknown hslot, slotValue_fixed hknown hslot]
    · obtain ⟨d', rfl, hsame⟩ := hrun program d hslot hd
      rw [hd, slotValue_varying hknown hslot, slotValue_varying hknown hslot, hsame]
    · rw [slotValue_blocked hknown hslot, slotValue_blocked hknown (hblocked hslot)]

end Pool

end OrbitPlot
