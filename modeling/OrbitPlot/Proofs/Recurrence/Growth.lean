import OrbitPlot.Proofs.Program.Reads
import OrbitPlot.Proofs.Recurrence.Memory

/-!
# Programs in a growing pool

While terms are read into one pool, the pool grows, and the programs that have come of earlier terms
go on being used with it. They cannot tell. A program names only slots that were in use when it was
made, the programs in those slots name only such slots again, and a slot in use keeps its constant.
What is different is how deep the pool is; but what a program needs ends within the depth that the
pool had before.

## Main statements

* `Pool.Extends.slotValue_eq`, `Pool.Extends.run_eq`: runs are the same in a larger pool.
* `Pool.Extends.reads_eq`: so is what a program reads.
* `evaluate_eq_of_reaches`: reading any more terms, or failing to, leaves a pool and the programs
  made with it as they are.
-/

namespace OrbitPlot

open Machine

/-! ## Code that stays within a pool -/

/-- The slot that an instruction names is in use. -/
def Instr.Within (pool : Pool) : Instr → Prop
  | real slot => (pool.reals.get? slot).isSome
  | complex slot => (pool.complexes.get? slot).isSome
  | _ => True

/-- A program names only slots in use. -/
def Program.Within (pool : Pool) (program : Program) : Prop := ∀ i ∈ program.code, i.Within pool

/-- The programs in a pool name only slots of that pool. -/
def Pool.Closed (pool : Pool) : Prop :=
  ∀ ⦃slot program⦄, pool.complexes.get? slot = some (.varying program) → program.Within pool

theorem Expr.Stored.within {pool : Pool} {kind : Kind} {e : Expr kind} (h : e.Stored pool) :
    ∀ i ∈ e.code, i.Within pool := by
  induction e with
  | var v => simp [code, Instr.Within]
  | number slot value => exact List.forall_mem_singleton.2 h
  | bracket slot x y => exact List.forall_mem_singleton.2 h
  | abs e ih | re e ih | im e ih => simpa [code, or_imp, forall_and, Instr.Within] using ih h
  | binary op left right ihl ihr =>
    simpa [code, or_imp, forall_and, Instr.Within] using ⟨ihl h.1, ihr h.2⟩

theorem Pool.Sound.closed {pool : Pool} (h : pool.Sound) : pool.Closed := by
  intro slot program hslot
  obtain ⟨x, y, rfl, -, -, hx, hy⟩ := h hslot
  simpa [Program.Within, Program.bracket, or_imp, forall_and, Instr.Within] using
    ⟨hx.within, hy.within⟩

/-! ## The same in a larger pool -/

namespace Slots

variable {α : Type} {s t : Slots α} {slot : Nat}

theorem Extends.isPrefix_toList (h : s.Extends t) : s.items.toList <+: t.items.toList := by
  rw [List.prefix_iff_getElem?]
  intro k hk
  rw [Array.getElem?_toList]
  exact h (Array.getElem?_eq_getElem hk)

theorem Extends.get?_eq (h : s.Extends t) (hslot : (s.get? slot).isSome) :
    t.get? slot = s.get? slot := by
  obtain ⟨x, hx⟩ := Option.isSome_iff_exists.1 hslot
  rw [hx, h hx]

end Slots

namespace Pool

variable {p q : Pool} {b : Bindings} {depth depth' slot : Nat} {program : Program} {v : Variable}

theorem Extends.runAll_eq (h : p.Extends q) {slotValue slotValue' : Nat → Run Point}
    {code : List Instr} (hcode : ∀ i ∈ code, i.Within p)
    (hslot : ∀ slot, .complex slot ∈ code → slotValue slot = slotValue' slot) :
    Instr.runAll slotValue p b code = Instr.runAll slotValue' q b code := by
  induction code with
  | nil => rfl
  | cons i code ih =>
    obtain ⟨hi, hcode⟩ := List.forall_mem_cons.1 hcode
    have hrun : i.run slotValue p b = i.run slotValue' q b := by
      match i with
      | .real slot => rw [Instr.run, Instr.run, h.reals.get?_eq hi]
      | .complex slot => rw [Instr.run, Instr.run, hslot slot List.mem_cons_self]
      | .binary op .real | .binary op .complex => rfl
      | .unary .abs | .unary .re | .unary .im => rfl
      | .load _ | .pair => rfl
    rw [Instr.runAll, Instr.runAll, hrun,
      ih hcode fun slot hk ↦ hslot slot (List.mem_cons_of_mem _ hk)]

/-- A slot in use yields the same in a larger pool, if both are looked into deep enough. -/
theorem Extends.slotValue_eq (h : p.Extends q) (hp : p.Closed)
    (hslot : (p.complexes.get? slot).isSome) (hends : p.Ends depth slot)
    (hends' : q.Ends depth' slot) :
    p.slotValue b depth slot = q.slotValue b depth' slot := by
  induction depth using Nat.strongRecOn generalizing depth' slot with
  | _ depth ih =>
  funext m
  rcases hknown : m.known.lookup slot with _ | z
  · rcases p.slot_cases depth slot with ⟨z, hz⟩ | ⟨program, d, hprogram, rfl⟩ | hblocked
    · rw [slotValue_fixed hknown hz, slotValue_fixed hknown (h.complexes hz)]
    · have hprogram' := h.complexes hprogram
      obtain ⟨d', rfl, hcode'⟩ := hends'.exists_eq_succ hprogram'
      have hwithin := hp hprogram
      have hrun : Instr.runAll (p.slotValue b d) p b program.code =
          Instr.runAll (q.slotValue b d') q b program.code :=
        h.runAll_eq hwithin fun k hk ↦ ih d (Nat.lt_succ_self d) (hwithin _ hk)
          (hends k ⟨program, hprogram, hk⟩) (hcode' k hk)
      rw [slotValue_varying hknown hprogram, slotValue_varying hknown hprogram', hrun]
    · obtain ⟨c, hc⟩ := Option.isSome_iff_exists.1 hslot
      obtain ⟨rfl, program, rfl⟩ := hblocked c hc
      exact absurd hc (hends program)
  · rw [slotValue_of_known hknown, slotValue_of_known hknown]

theorem Extends.run_eq (h : p.Extends q) (hp : p.Closed) (hacyclic : p.Acyclic)
    (hacyclic' : q.Acyclic) (hprogram : program.Within p) : program.run p b = program.run q b :=
  h.runAll_eq hprogram fun slot hslot ↦
    h.slotValue_eq hp (hprogram _ hslot) (hacyclic.ends slot) (hacyclic'.ends slot)

theorem Extends.uses_iff (h : p.Extends q) (hp : p.Closed) (hprogram : program.Within p) :
    program.Uses p v ↔ program.Uses q v := by
  constructor
  · intro huses
    clear hprogram
    induction huses with
    | load hload => exact .load hload
    | slot hk hslot _ ih => exact .slot hk (h.complexes hslot) ih
  · intro huses
    induction huses with
    | load hload => exact .load hload
    | @slot program constant k hk hslot _ ih =>
      have hconstant : p.complexes.get? k = some (.varying constant) := by
        rw [← h.complexes.get?_eq (hprogram _ hk), hslot]
      exact .slot hk hconstant (ih (hp hconstant))

theorem Extends.reads_eq (h : p.Extends q) (hp : p.Closed) (hacyclic : p.Acyclic)
    (hacyclic' : q.Acyclic) (hprogram : program.Within p) (v : Variable) :
    program.reads p v = program.reads q v := by
  rw [Bool.eq_iff_iff, program.reads_iff_uses hacyclic, program.reads_iff_uses hacyclic']
  exact h.uses_iff hp hprogram

/-! ## Further attempts -/

/-- A program has come of some term on the way to a pool. -/
def HasReturned (pool : Pool) (program : Program) : Prop :=
  ∃ p q atStart tokens, Reaches {} p ∧ Program.ofTokens atStart tokens p = .ok program q ∧
    q.Reaches pool

theorem HasReturned.within (h : p.HasReturned program) : program.Within p := by
  obtain ⟨p₀, p₁, atStart, tokens, -, hprogram, hreaches⟩ := h
  obtain ⟨e, hinterns, -, -, rfl⟩ := Program.exists_expr_of_ofTokens hprogram
  exact (hinterns.stored.mono hreaches.leads.grows).within

end Pool

/-- **Reading more terms disturbs nothing.** However many attempts are made to read terms into a
pool, on whatever tokens, and wherever they fail, the constants that are in the pool before stay in
it in the same slots, and others come only after them. Every program that was returned before does
the same in the pool as it was and as it has become: it comes to the same value or fault on all
values of the variables, it passes or fails its test, and it is found to read the same variables, or
none. -/
theorem evaluate_eq_of_reaches (p q : Pool) (hp : Pool.Reaches {} p) (hpq : p.Reaches q) :
    p.reals.items.toList <+: q.reals.items.toList ∧
    p.complexes.items.toList <+: q.complexes.items.toList ∧
    ∀ program, p.HasReturned program →
      (∀ b m, program.evaluate p b m = program.evaluate q b m) ∧
      (∀ m, program.test p m = program.test q m) ∧
      program.fits p = program.fits q ∧
      (∀ v, program.reads p v = program.reads q v) ∧
      program.isConstant p = program.isConstant q := by
  have hextends := hpq.leads.grows
  refine ⟨hextends.reals.isPrefix_toList, hextends.complexes.isPrefix_toList, ?_⟩
  intro program hreturned
  have hsound := hp.sound
  have hacyclic := (hpq.leads.sound hsound).acyclic
  have hrun (b : Bindings) : program.run p b = program.run q b :=
    hextends.run_eq hsound.closed hsound.acyclic hacyclic hreturned.within
  have htest (m : Machine) : program.test p m = program.test q m := by
    rw [Program.test, Program.test, hrun]
  have hreads (v : Variable) : program.reads p v = program.reads q v :=
    hextends.reads_eq hsound.closed hsound.acyclic hacyclic hreturned.within v
  refine ⟨fun b m ↦ ?_, htest, ?_, hreads, ?_⟩
  · rw [Program.evaluate, Program.evaluate, hrun]
  · rw [Program.fits, Program.fits, htest]
  · simp only [Program.isConstant, hreads]

/-- After a term with a bracket in it, another one fails in the second part of a bracket, when the
number of the first part is in the pool already. -/
theorem evaluate_eq_of_reaches_of_failing : ∃ (program : Program) (p q : Pool),
    Program.ofTokens false [.bracketed "[rc,1]".toList] {} = .ok program p ∧
      q = .after (Program.ofTokens false [.bracketed "[2,rc+]".toList] p) ∧
      (p.reals.size, q.reals.size) = (1, 2) ∧
      (∀ b m, program.evaluate p b m = program.evaluate q b m) ∧
      program.reads p .current = program.reads q .current := by
  have hmade : (match Program.ofTokens false [.bracketed "[rc,1]".toList] {} with
      | .ok _ p => some (p.reals.size,
        (Pool.after (Program.ofTokens false [.bracketed "[2,rc+]".toList] p)).reals.size)
      | .error _ _ => none) = some (1, 2) := by decide +kernel
  rcases hterm : Program.ofTokens false [.bracketed "[rc,1]".toList] {} with ⟨program, p⟩ | ⟨e, p⟩
  · rw [hterm] at hmade
    have hreaches : Pool.Reaches {} p := by
      have hattempt := Pool.Reaches.attempt (.refl {}) false [.bracketed "[rc,1]".toList]
      rwa [hterm] at hattempt
    have hreturned : p.HasReturned program := ⟨{}, p, false, _, .refl _, hterm, .refl _⟩
    obtain ⟨-, -, hsame⟩ := evaluate_eq_of_reaches p _ hreaches (.attempt (.refl p) false _)
    obtain ⟨hevaluate, -, -, hreads, -⟩ := hsame program hreturned
    exact ⟨program, p, _, rfl, rfl, Option.some.inj hmade, hevaluate, hreads .current⟩
  · rw [hterm] at hmade
    cases hmade

end OrbitPlot
