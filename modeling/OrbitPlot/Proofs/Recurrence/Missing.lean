import OrbitPlot.Proofs.Program.Reads
import OrbitPlot.Proofs.Recurrence.Trial

/-!
# The value that is missed first

Nothing in a program is passed over, so the variables that a run comes to load, and their order, can
be told from the code alone. A `Trail` collects them. It goes through the code as a run does, into
the program of a constant where the constant is named for the first time, and past it afterwards,
since by then its point is remembered.

A run on values that do not suffice fails at the first variable of its trail that has none. For this
nothing has to be known about the pool. That a program has passed its test is needed only to exclude
that it fails for another reason before.

## Main statements

* `Instr.tells_runAll`: the trail tells how far a run comes.
* `Program.mem_demands_iff`: the trail has on it exactly the variables that a program reads.
* `evaluate_of_demands`: when a program that has passed its test has a value, and which variable it
  misses if it has none.
-/

namespace OrbitPlot

open Machine

/-! ## Trails -/

/-- What a run has come by. -/
structure Trail where
  /-- The variables that it has loaded, in order. -/
  loads : List Variable := []
  /-- The slots whose programs it has run to their ends, the last one first. -/
  slots : List Nat := []

namespace Trail

/-- A trail goes on through an instruction, given how it goes through a slot. -/
def step (slotTrail : Nat → Trail → Trail) (t : Trail) : Instr → Trail
  | .load v => { t with loads := t.loads ++ [v] }
  | .complex slot => slotTrail slot t
  | _ => t

/-- A trail goes on through code. -/
def through (slotTrail : Nat → Trail → Trail) (t : Trail) (code : List Instr) : Trail :=
  code.foldl (step slotTrail) t

end Trail

/-- A trail goes on through a slot: through its program, unless that has been run before. -/
def Pool.slotTrail (pool : Pool) : (depth slot : Nat) → Trail → Trail
  | 0, _, t => t
  | depth + 1, slot, t =>
    if slot ∈ t.slots then t
    else
      match pool.complexes.get? slot with
      | some (.varying program) =>
        let t := t.through (pool.slotTrail depth) program.code
        { t with slots := slot :: t.slots }
      | _ => t

/-- The variables that a program comes to load, in order. -/
def Program.demands (pool : Pool) (program : Program) : List Variable :=
  (Trail.through (pool.slotTrail pool.depth) {} program.code).loads

section

variable {pool : Pool} {depth slot : Nat} {t : Trail} {program : Program}

theorem Pool.slotTrail_of_mem (h : slot ∈ t.slots) : pool.slotTrail depth slot t = t := by
  unfold slotTrail
  split
  · rfl
  · exact if_pos h

theorem Pool.slotTrail_varying (h : slot ∉ t.slots)
    (hslot : pool.complexes.get? slot = some (.varying program)) :
    pool.slotTrail (depth + 1) slot t =
      { loads := (t.through (pool.slotTrail depth) program.code).loads,
        slots := slot :: (t.through (pool.slotTrail depth) program.code).slots } := by
  rw [slotTrail, if_neg h]
  simp only [hslot]

theorem Pool.slotTrail_of_ne
    (h : ∀ program d, pool.complexes.get? slot = some (.varying program) → depth ≠ d + 1) :
    pool.slotTrail depth slot t = t := by
  match depth with
  | 0 => rfl
  | depth + 1 =>
    rw [slotTrail]
    split
    · rfl
    · split
      · next program hslot => exact absurd rfl (h program depth hslot)
      · rfl

theorem Pool.slotTrail_cases (pool : Pool) (depth slot : Nat) (t : Trail) :
    pool.slotTrail depth slot t = t ∨
      ∃ program d, pool.complexes.get? slot = some (.varying program) ∧ depth = d + 1 ∧
        pool.slotTrail depth slot t =
          { loads := (t.through (pool.slotTrail d) program.code).loads,
            slots := slot :: (t.through (pool.slotTrail d) program.code).slots } := by
  by_cases hmem : slot ∈ t.slots
  · exact .inl (slotTrail_of_mem hmem)
  · by_cases h : ∀ program d, pool.complexes.get? slot = some (.varying program) → depth ≠ d + 1
    · exact .inl (slotTrail_of_ne h)
    · push Not at h
      obtain ⟨program, d, hslot, rfl⟩ := h
      exact .inr ⟨program, d, hslot, rfl, slotTrail_varying hmem hslot⟩

end

/-! ### Trails only get longer -/

namespace Trail

variable {slotTrail : Nat → Trail → Trail} {t : Trail}
  (hslot : ∀ slot t, t.loads <+: (slotTrail slot t).loads)
include hslot

theorem loads_step (i : Instr) : t.loads <+: (t.step slotTrail i).loads := by
  match i with
  | .load v => exact List.prefix_append _ _
  | .complex slot => exact hslot slot t
  | .real _ | .binary _ _ | .unary _ | .pair => exact List.prefix_rfl

theorem loads_through (code : List Instr) : t.loads <+: (t.through slotTrail code).loads := by
  induction code generalizing t with
  | nil => exact List.prefix_rfl
  | cons i code ih => exact (loads_step hslot i).trans ih

end Trail

theorem Pool.loads_slotTrail (pool : Pool) (depth slot : Nat) (t : Trail) :
    t.loads <+: (pool.slotTrail depth slot t).loads := by
  induction depth generalizing slot t with
  | zero => exact List.prefix_rfl
  | succ depth ih =>
    rcases pool.slotTrail_cases (depth + 1) slot t with heq | ⟨program, d, -, hd, heq⟩
    · exact ⟨[], by rw [heq, List.append_nil]⟩
    · obtain rfl := Nat.succ.inj hd
      rw [heq]
      exact Trail.loads_through ih program.code

/-! ## Work on the stacks -/

namespace Machine

variable {α β : Type} {x : Run α} {f : α → Run β}

/-- A computation works on the stacks alone: it remembers nothing, and it fails only for want of a
number. -/
def OnStacks (x : Run α) : Prop :=
  ∀ m, (∃ a n, x m = .ok a n ∧ n.known = m.known) ∨ ∃ n, x m = .error .malformed n

namespace OnStacks

theorem bind (hx : OnStacks x) (hf : ∀ a, OnStacks (f a)) : OnStacks (x >>= f) := by
  intro m
  rcases hx m with ⟨a, n, hm, hknown⟩ | ⟨n, hm⟩
  · rw [EStateM.bind_of_eq_ok hm, ← hknown]
    exact hf a n
  · exact .inr ⟨n, EStateM.bind_of_eq_error hm⟩

theorem pushReal (x : Float) : OnStacks (Machine.pushReal x) := fun _ ↦ .inl ⟨_, _, rfl, rfl⟩

theorem pushPoint (z : Point) : OnStacks (Machine.pushPoint z) := fun _ ↦ .inl ⟨_, _, rfl, rfl⟩

theorem popReal : OnStacks Machine.popReal := by
  rintro ⟨_ | ⟨x, rs⟩, ps, known⟩
  · exact .inr ⟨_, rfl⟩
  · exact .inl ⟨_, _, rfl, rfl⟩

theorem popPoint : OnStacks Machine.popPoint := by
  rintro ⟨rs, _ | ⟨z, ps⟩, known⟩
  · exact .inr ⟨_, rfl⟩
  · exact .inl ⟨_, _, rfl, rfl⟩

theorem require {a? : Option α} : OnStacks (Machine.require .malformed a?) := by
  intro m
  match a? with
  | some a => exact .inl ⟨a, m, rfl, rfl⟩
  | none => exact .inr ⟨m, rfl⟩

end OnStacks

end Machine

/-- All instructions work on the stacks alone, but for those that load a variable or name a complex
slot. -/
theorem Instr.onStacks_run {slotValue : Nat → Run Point} (pool : Pool) (b : Bindings) {i : Instr}
    (hload : ∀ v, i ≠ .load v) (hslot : ∀ slot, i ≠ .complex slot) :
    OnStacks (i.run slotValue pool b) := by
  match i with
  | .load v => exact absurd rfl (hload v)
  | .complex slot => exact absurd rfl (hslot slot)
  | .real slot => exact OnStacks.require.bind OnStacks.pushReal
  | .binary op .real =>
    exact OnStacks.popReal.bind fun y ↦ OnStacks.popReal.bind fun x ↦ .pushReal _
  | .binary op .complex =>
    exact OnStacks.popPoint.bind fun w ↦ OnStacks.popPoint.bind fun z ↦ .pushPoint _
  | .unary .abs => exact OnStacks.popReal.bind fun x ↦ .pushReal _
  | .unary .re => exact OnStacks.popPoint.bind fun z ↦ .pushReal _
  | .unary .im => exact OnStacks.popPoint.bind fun z ↦ .pushReal _
  | .pair => exact OnStacks.popReal.bind fun y ↦ OnStacks.popReal.bind fun x ↦ .pushPoint _

/-! ## Runs along a trail -/

/-- A variable has no value. -/
def Bindings.lacks (b : Bindings) (v : Variable) : Bool := (b.lookup v).isNone

namespace Trail

variable {b : Bindings} {t t' : Trail} {m : Machine} {α β : Type}

/-- A machine has come along a trail: nothing on it is missing, and what the machine remembers are
the slots that the trail has gone through. -/
structure Behind (b : Bindings) (t : Trail) (m : Machine) : Prop where
  /-- All variables on the trail have values. -/
  loads : t.loads.find? b.lacks = none
  /-- The slots on the trail are remembered. -/
  slots : m.known.map Prod.fst = t.slots

/-- A trail tells the outcome of a run: a machine that has come along it, or a variable without a
value, which is the first of that sort on it. -/
def Tells (b : Bindings) (t : Trail) : EStateM.Result Fault Machine α → Prop
  | .ok _ m => t.Behind b m
  | .error (.missing v) _ => t.loads.find? b.lacks = some v
  | .error .malformed _ => True

theorem Behind.lookup_eq_none_iff (h : t.Behind b m) {slot : Nat} :
    m.known.lookup slot = none ↔ slot ∉ t.slots := by
  simp only [List.lookup_eq_none_iff, ← h.slots, List.mem_map, bne_iff_ne, ne_eq, not_exists,
    not_and]
  exact forall₂_congr fun _ _ ↦ not_congr eq_comm

theorem tells_bind {x : Run α} {f : α → Run β} (hle : t.loads <+: t'.loads)
    (hx : t.Tells b (x m)) (hf : ∀ a n, t.Behind b n → t'.Tells b (f a n)) :
    t'.Tells b ((x >>= f) m) := by
  rcases hm : x m with ⟨a, n⟩ | ⟨fault, n⟩
  · rw [hm] at hx
    rw [EStateM.bind_of_eq_ok hm]
    exact hf a n hx
  · rw [hm] at hx
    rw [EStateM.bind_of_eq_error hm]
    -- the trail goes on, but the first variable without a value is on it already
    match fault with
    | .missing v => exact hle.find?_eq_some hx
    | .malformed => trivial

theorem Behind.tells (h : t.Behind b m) {x : Run α} (hx : OnStacks x) : t.Tells b (x m) := by
  rcases hx m with ⟨a, n, hm, hknown⟩ | ⟨n, hm⟩
  · rw [hm]
    exact ⟨h.loads, hknown ▸ h.slots⟩
  · rw [hm]
    trivial

end Trail

namespace Instr

variable {b : Bindings} {t : Trail} {slotTrail : Nat → Trail → Trail}
  {slotValue : Nat → Run Point} {pool : Pool}
  (hslot : ∀ slot t m, t.Behind b m → (slotTrail slot t).Tells b (slotValue slot m))
include hslot

theorem tells_run (i : Instr) {m : Machine} (h : t.Behind b m) :
    (t.step slotTrail i).Tells b (i.run slotValue pool b m) := by
  match i with
  | .load v =>
    have hfind (r : Option Variable) (hr : [v].find? b.lacks = r) :
        (t.step slotTrail (.load v)).loads.find? b.lacks = r := by
      rw [Trail.step, List.find?_append, h.loads, Option.none_or, hr]
    rw [run]
    rcases hv : b.lookup v with _ | z
    · exact hfind (some v) (by simp [Bindings.lacks, hv])
    · exact ⟨hfind none (by simp [Bindings.lacks, hv]), h.slots⟩
  | .complex slot =>
    exact Trail.tells_bind List.prefix_rfl (hslot slot t m h) fun z n hn ↦ hn.tells (.pushPoint z)
  | .real _ | .binary _ _ | .unary _ | .pair =>
    exact h.tells (onStacks_run pool b (fun _ ↦ Instr.noConfusion) fun _ ↦ Instr.noConfusion)

/-- If slots add to a trail what runs of them come by, it tells the outcome of a run of any code. -/
theorem tells_runAll (hloads : ∀ slot t, t.loads <+: (slotTrail slot t).loads) (code : List Instr)
    {m : Machine} (h : t.Behind b m) :
    (t.through slotTrail code).Tells b (runAll slotValue pool b code m) := by
  induction code generalizing t m with
  | nil => exact h
  | cons i code ih =>
    exact Trail.tells_bind (Trail.loads_through hloads code) (tells_run hslot i h)
      fun _ n hn ↦ ih hn

end Instr

theorem Pool.tells_slotValue (pool : Pool) (b : Bindings) (depth slot : Nat) (t : Trail)
    (m : Machine) (h : t.Behind b m) :
    (pool.slotTrail depth slot t).Tells b (pool.slotValue b depth slot m) := by
  induction depth using Nat.strongRecOn generalizing slot t m with
  | _ depth ih =>
  by_cases hmem : slot ∈ t.slots
  · obtain ⟨z, hz⟩ := Option.ne_none_iff_exists'.1 fun hnone ↦ h.lookup_eq_none_iff.1 hnone hmem
    rw [slotTrail_of_mem hmem, slotValue_of_known hz]
    exact h
  · have hknown := h.lookup_eq_none_iff.2 hmem
    rcases pool.slot_cases depth slot with ⟨z, hslot⟩ | ⟨program, d, hslot, rfl⟩ | hslot
    · have hne (program : Program) (d : Nat)
          (hprogram : pool.complexes.get? slot = some (.varying program)) : depth ≠ d + 1 :=
        nomatch hslot.symm.trans hprogram
      rw [slotTrail_of_ne hne, slotValue_fixed hknown hslot]
      exact h
    · rw [slotTrail_varying hmem hslot, slotValue_varying hknown hslot]
      have hcode : (t.through (pool.slotTrail d) program.code).Tells b
          (Instr.runAll (pool.slotValue b d) pool b program.code m) :=
        Instr.tells_runAll (ih d (Nat.lt_succ_self d)) (pool.loads_slotTrail d) program.code h
      -- the slot is on the trail once its program has left a point
      refine Trail.tells_bind (t := t.through (pool.slotTrail d) program.code) List.prefix_rfl hcode
        fun _ n hn ↦ ?_
      refine Trail.tells_bind (t := t.through (pool.slotTrail d) program.code) List.prefix_rfl
        (hn.tells .popPoint) fun z n hn ↦ ?_
      exact ⟨hn.loads, congrArg (slot :: ·) hn.slots⟩
    · rw [slotValue_blocked hknown hslot]
      trivial

/-! ## What is on a trail -/

/-- A slot holds a program that uses a variable. -/
def Pool.SlotUses (pool : Pool) (v : Variable) (slot : Nat) : Prop :=
  ∃ program, pool.complexes.get? slot = some (.varying program) ∧ program.Uses pool v

/-- An instruction loads a variable or names a slot that uses it. -/
def Instr.Uses (pool : Pool) (v : Variable) : Instr → Prop
  | load w => w = v
  | complex slot => pool.SlotUses v slot
  | _ => False

theorem Program.uses_iff {pool : Pool} {program : Program} {v : Variable} :
    program.Uses pool v ↔ ∃ i ∈ program.code, i.Uses pool v := by
  constructor
  · rintro (h | ⟨hk, hslot, h⟩)
    · exact ⟨_, h, rfl⟩
    · exact ⟨_, hk, _, hslot, h⟩
  · rintro ⟨i, hi, h⟩
    match i with
    | .load w =>
      obtain rfl : w = v := h
      exact .load hi
    | .complex slot =>
      obtain ⟨constant, hslot, huses⟩ := h
      exact .slot hi hslot huses

namespace Trail

variable {pool : Pool} {slotTrail : Nat → Trail → Trail} {t t' : Trail}

/-- Where a trail has gone through a slot, it has on it what the slot uses. -/
def Complete (pool : Pool) (t : Trail) : Prop :=
  ∀ slot ∈ t.slots, ∀ v, pool.SlotUses v slot → v ∈ t.loads

/-- A trail goes on through something that uses some variables: it has these on it besides those
that it had before. -/
structure Adds (pool : Pool) (uses : Variable → Prop) (t t' : Trail) : Prop where
  /-- No slot is left out. -/
  complete : t'.Complete pool
  /-- These variables are added and no others. -/
  mem_loads : ∀ v, v ∈ t'.loads ↔ v ∈ t.loads ∨ uses v

theorem Complete.adds_self {uses : Variable → Prop} (h : t.Complete pool)
    (huses : ∀ v, uses v → v ∈ t.loads) : t.Adds pool uses t :=
  ⟨h, fun v ↦ ⟨.inl, fun hv ↦ hv.elim id (huses v)⟩⟩

theorem Complete.adds_step (h : t.Complete pool) {i : Instr}
    (hslot : ∀ slot, i = .complex slot → t.Adds pool (pool.SlotUses · slot) (slotTrail slot t)) :
    t.Adds pool (i.Uses pool) (t.step slotTrail i) := by
  match i with
  | .load w =>
    have hmem (v : Variable) : v ∈ (t.step slotTrail (.load w)).loads ↔ v ∈ t.loads ∨ w = v := by
      simp [step, eq_comm]
    exact ⟨fun slot hslot v hv ↦ (hmem v).2 (.inl (h slot hslot v hv)), hmem⟩
  | .complex slot => exact hslot slot rfl
  | .real _ | .binary _ _ | .unary _ | .pair => exact h.adds_self fun _ hv ↦ hv.elim

theorem Complete.adds_through (h : t.Complete pool) (code : List Instr)
    (hslot : ∀ slot, .complex slot ∈ code → ∀ t : Trail, t.Complete pool →
      t.Adds pool (pool.SlotUses · slot) (slotTrail slot t)) :
    t.Adds pool (fun v ↦ ∃ i ∈ code, i.Uses pool v) (t.through slotTrail code) := by
  induction code generalizing t with
  | nil => exact h.adds_self fun v ⟨_, hi, _⟩ ↦ nomatch hi
  | cons i code ih =>
    have hstep := h.adds_step (i := i) fun slot hi ↦ hslot slot (hi ▸ List.mem_cons_self) t h
    have hrest := ih hstep.complete fun slot hk ↦ hslot slot (List.mem_cons_of_mem _ hk)
    refine ⟨hrest.complete, fun v ↦ ?_⟩
    calc v ∈ (t.through slotTrail (i :: code)).loads
      _ ↔ v ∈ (t.step slotTrail i).loads ∨ ∃ j ∈ code, j.Uses pool v := hrest.mem_loads v
      _ ↔ (v ∈ t.loads ∨ i.Uses pool v) ∨ ∃ j ∈ code, j.Uses pool v := by rw [hstep.mem_loads v]
      _ ↔ v ∈ t.loads ∨ ∃ j ∈ i :: code, j.Uses pool v := by
        rw [or_assoc, List.exists_mem_cons_iff]

end Trail

/-- A slot adds to a trail what its program uses, if the chains of slots that start from it end
within the depth to which they are followed. -/
theorem Pool.adds_slotTrail {pool : Pool} {depth slot : Nat} (hends : pool.Ends depth slot)
    {t : Trail} (h : t.Complete pool) :
    t.Adds pool (pool.SlotUses · slot) (pool.slotTrail depth slot t) := by
  induction depth using Nat.strongRecOn generalizing slot t with
  | _ depth ih =>
  by_cases hmem : slot ∈ t.slots
  · rw [slotTrail_of_mem hmem]
    exact h.adds_self (h slot hmem)
  · by_cases hvarying : ∃ program, pool.complexes.get? slot = some (.varying program)
    · obtain ⟨program, hslot⟩ := hvarying
      obtain ⟨d, rfl, hcode⟩ := hends.exists_eq_succ hslot
      rw [slotTrail_varying hmem hslot]
      have hadds := h.adds_through program.code fun k hk t ht ↦
        ih d (Nat.lt_succ_self d) (hcode k hk) ht
      have huses (v : Variable) :
          pool.SlotUses v slot ↔ ∃ i ∈ program.code, i.Uses pool v := by
        rw [← Program.uses_iff]
        refine ⟨fun ⟨constant, hconstant, h⟩ ↦ ?_, fun h ↦ ⟨program, hslot, h⟩⟩
        cases hslot.symm.trans hconstant
        exact h
      have hloads (v : Variable) : v ∈ (t.through (pool.slotTrail d) program.code).loads ↔
          v ∈ t.loads ∨ pool.SlotUses v slot := by
        rw [hadds.mem_loads, huses]
      exact ⟨List.forall_mem_cons.2 ⟨fun v hv ↦ (hloads v).2 (.inr hv), hadds.complete⟩, hloads⟩
    · have hnone (program : Program) (d : Nat)
          (hslot : pool.complexes.get? slot = some (.varying program)) : depth ≠ d + 1 :=
        absurd ⟨program, hslot⟩ hvarying
      rw [slotTrail_of_ne hnone]
      exact h.adds_self fun v ⟨program, hslot, _⟩ ↦ absurd ⟨program, hslot⟩ hvarying

/-- Unless some constant needs itself, a program comes to load what it reads. -/
theorem Program.mem_demands_iff {pool : Pool} (hpool : pool.Acyclic) {program : Program}
    {v : Variable} : v ∈ program.demands pool ↔ program.reads pool v := by
  have hstart : Trail.Complete pool {} := nofun
  have hadds := hstart.adds_through program.code fun slot _ _ ht ↦
    Pool.adds_slotTrail (hpool.ends slot) ht
  calc v ∈ program.demands pool
    _ ↔ v ∈ [] ∨ ∃ i ∈ program.code, i.Uses pool v := hadds.mem_loads v
    _ ↔ program.Uses pool v := by simp only [List.not_mem_nil, false_or, Program.uses_iff]
    _ ↔ program.reads pool v := (program.reads_iff_uses hpool).symm

/-! ## What is missed -/

namespace Program

variable {pool : Pool} {program : Program} {b : Bindings}

theorem tells_evaluate (pool : Pool) (program : Program) (b : Bindings) (m : Machine) :
    (Trail.through (pool.slotTrail pool.depth) {} program.code).Tells b
      (program.evaluate pool b m) := by
  have hstart : Trail.Behind b {} {} := ⟨rfl, rfl⟩
  have hrun : (Trail.through (pool.slotTrail pool.depth) {} program.code).Tells b
      (program.run pool b {}) :=
    Instr.tells_runAll (pool.tells_slotValue b pool.depth) (pool.loads_slotTrail pool.depth)
      program.code hstart
  rw [evaluate, EStateM.bind_of_eq_ok (show Machine.reset m = .ok () {} from rfl)]
  exact Trail.tells_bind List.prefix_rfl hrun fun _ n hn ↦ hn.tells .popPoint

theorem find?_demands_of_evaluate_eq_ok {m m' : Machine} {z : Point}
    (h : program.evaluate pool b m = .ok z m') : (program.demands pool).find? b.lacks = none := by
  have htells := program.tells_evaluate pool b m
  rw [h] at htells
  exact htells.loads

theorem find?_demands_of_evaluate_eq_error {m m' : Machine} {v : Variable}
    (h : program.evaluate pool b m = .error (.missing v) m') :
    (program.demands pool).find? b.lacks = some v := by
  have htells := program.tells_evaluate pool b m
  rw [h] at htells
  exact htells

theorem evaluate_of_find? (h : program.fits pool) (b : Bindings) (m : Machine) :
    match (program.demands pool).find? b.lacks with
    | none => ∃ z m', program.evaluate pool b m = .ok z m'
    | some v => ∃ m', program.evaluate pool b m = .error (.missing v) m' := by
  rcases program.evaluate_of_fits h b m with ⟨z, m', hok⟩ | ⟨v, m', -, herror⟩
  · rw [find?_demands_of_evaluate_eq_ok hok]
    exact ⟨z, m', hok⟩
  · rw [find?_demands_of_evaluate_eq_error herror]
    exact ⟨m', herror⟩

end Program

/-- **A program that has passed its test fails only for want of a value, and at the first one that
it wants.** Unless some constant of the pool needs itself, the variables that the program comes to
load, going into the program of a constant where it first names the constant, are those that it is
found to read. The program has a value exactly if all of them have values. If one of them lacks a
value, the program fails at the first that does, in the order in which it comes to load them, and it
never turns out to be malformed, whatever the machine did before. -/
theorem evaluate_of_demands (pool : Pool) (hpool : pool.Acyclic) (program : Program)
    (hfits : program.fits pool) (b : Bindings) (m : Machine) :
    (∀ v, v ∈ program.demands pool ↔ program.reads pool v) ∧
    ((∃ z m', program.evaluate pool b m = .ok z m') ↔
      ∀ v, program.reads pool v → (b.lookup v).isSome) ∧
    (∀ v, program.reads pool v → b.lookup v = none → ∃ w m',
      (program.demands pool).find? b.lacks = some w ∧
        program.evaluate pool b m = .error (.missing w) m') ∧
    ∀ m', program.evaluate pool b m ≠ .error .malformed m' := by
  have hmem (v : Variable) : v ∈ program.demands pool ↔ program.reads pool v :=
    Program.mem_demands_iff hpool
  have hnone : (program.demands pool).find? b.lacks = none ↔
      ∀ v, program.reads pool v → (b.lookup v).isSome := by
    simp only [List.find?_eq_none, hmem, Bindings.lacks, Bool.not_eq_true,
      Option.isNone_eq_false_iff]
  have hrun := Program.evaluate_of_find? hfits b m
  refine ⟨hmem, ⟨fun ⟨z, m', hok⟩ ↦ ?_, fun h ↦ ?_⟩, fun v hv hlack ↦ ?_, fun m' hfault ↦ ?_⟩
  · exact hnone.1 (Program.find?_demands_of_evaluate_eq_ok hok)
  · rw [hnone.2 h] at hrun
    exact hrun
  · rcases hfind : (program.demands pool).find? b.lacks with _ | w
    · have hsome := hnone.1 hfind v hv
      rw [hlack] at hsome
      cases hsome
    · rw [hfind] at hrun
      obtain ⟨m', herror⟩ := hrun
      exact ⟨w, m', rfl, herror⟩
  · rcases program.evaluate_of_fits hfits b m with ⟨z, n, hok⟩ | ⟨v, n, -, herror⟩
    · cases hok.symm.trans hfault
    · cases herror.symm.trans hfault

/-- A constant that adds the selected point to one that it finds on the stack. -/
def Pool.borrowing : Pool where
  complexes := ⟨#[.varying ⟨[], [.load .selected, .binary .add .complex]⟩], by decide⟩

/-- A program that leaves a point for the constant to find. -/
def Program.lending : Program where
  source := []
  code := [.load .current, .load .current, .complex 0, .binary .add .complex, .load .previous,
    .binary .add .complex]

/-- Before there is a term, and with no point selected, two variables are missing. The one that the
constant loads is missed. -/
theorem evaluate_of_demands_of_lending :
    Program.lending.fits .borrowing ∧
      ∃ m, Program.lending.evaluate .borrowing (.atStart ⟨1, 2⟩ none) {} =
        .error (.missing .selected) m := by
  have hfits : Program.lending.fits .borrowing := by decide +kernel
  have hacyclic : Pool.borrowing.Acyclic := by
    refine Pool.acyclic_of_lt fun slot k ⟨program, hslot, hk⟩ ↦ ?_
    match slot with
    | 0 =>
      cases hslot
      simp at hk
    | slot + 1 => cases hslot
  obtain ⟨-, -, hmissed, -⟩ := evaluate_of_demands .borrowing hacyclic .lending hfits
    (.atStart ⟨1, 2⟩ none) {}
  obtain ⟨v, m, hfirst, herror⟩ := hmissed .previous (by decide) rfl
  obtain rfl : .selected = v := Option.some.inj ((by decide : _ = some _).symm.trans hfirst)
  exact ⟨hfits, m, herror⟩

end OrbitPlot
