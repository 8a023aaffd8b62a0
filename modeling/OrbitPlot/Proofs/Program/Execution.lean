import OrbitPlot.Proofs.Formula.Interning
import OrbitPlot.Proofs.Program.Frame

/-!
# Running the code of an expression

The code of an expression leaves one more value, the one that the expression has if its numbers and
brackets denote what their slots yield, and changes nothing below it.

What a slot yields does not depend on what the machine remembers, as long as that was worked out
from the same pool: a run changes what is remembered, but not what `pointGiven` answers. The
induction over an expression therefore fixes one such answer, `point`, and lets the memory vary.

## Main statements

* `Expr.computes`: what the code of an expression does, given what its slots yield.
* `Pool.yields_of_sound`: what the slots of a sound pool yield.
* `Expr.run_program`: the two together.
-/

namespace OrbitPlot

open Machine

/-! ## What slots and expressions yield -/

/-- The point that a complex slot yields. -/
def Pool.pointAt (pool : Pool) (b : Bindings) (slot : Nat) : Option Point :=
  match pool.complexes.get? slot with
  | some (.fixed z) => some z
  | some (.varying program) => (program.value pool b).toOption
  | none => none

/-- The point that a complex slot yields on a machine that remembers some. -/
def Pool.pointGiven (pool : Pool) (b : Bindings) (known : List (Nat × Point)) (slot : Nat) :
    Option Point :=
  (known.lookup slot).or (pool.pointAt b slot)

theorem Pool.pointGiven_nil (pool : Pool) (b : Bindings) :
    pool.pointGiven b [] = pool.pointAt b := rfl

theorem Pool.pointGiven_cons {pool : Pool} {b : Bindings} {known : List (Nat × Point)} {slot : Nat}
    {z : Point} (h : pool.pointGiven b known slot = some z) :
    pool.pointGiven b ((slot, z) :: known) = pool.pointGiven b known := by
  funext k
  by_cases hk : k = slot
  · rw [hk, h, pointGiven, List.lookup_cons_self, Option.some_or]
  · rw [pointGiven, List.lookup_cons, beq_false_of_ne hk]
    rfl

namespace Expr

/-- The value of an expression in which numbers and brackets denote what their slots yield. -/
def yield (pool : Pool) (b : Bindings) (point : Nat → Option Point) {kind : Kind} :
    Expr kind → Option kind.Value
  | var v => b.lookup v
  | number slot _ => pool.reals.get? slot
  | bracket slot _ _ => point slot
  | abs e => (e.yield pool b point).map Float.abs
  | re e => (e.yield pool b point).map Point.re
  | im e => (e.yield pool b point).map Point.im
  | @binary kind op left right => do
    let x ← left.yield pool b point
    let y ← right.yield pool b point
    return kind.apply op x y

theorem Flat.yield_eq {pool : Pool} {b : Bindings} {point point' : Nat → Option Point}
    {kind : Kind} {e : Expr kind} (h : e.Flat) :
    e.yield pool b point = e.yield pool b point' := by
  induction e with
  | var v => rfl
  | number slot value => rfl
  | bracket slot x y => exact absurd h id
  | abs e ih => rw [yield, yield, ih h]
  | re e ih => rw [yield, yield, ih h]
  | im e ih => rw [yield, yield, ih h]
  | binary op left right ihl ihr => rw [yield, yield, ihl h.1, ihr h.2]

end Expr

/-! ## One more value -/

/-- The machine with one more value on the stack of its kind. -/
def Machine.push (m : Machine) : (kind : Kind) → kind.Value → Machine
  | .real, x => { m with reals := x :: m.reals }
  | .complex, z => { m with points := z :: m.points }

/-- Every variable that an instruction reads has a value. -/
def Instr.Bound (pool : Pool) (b : Bindings) (i : Instr) : Prop :=
  ∀ v, i.reads (pool.slotReads v pool.depth) v → (b.lookup v).isSome

/-- The value of an operator on one value. -/
def UnaryOp.apply : (op : UnaryOp) → op.operandKind.Value → Float
  | .abs => Float.abs
  | .re => Point.re
  | .im => Point.im

/-- A slot yields a point, `point slot`, from any memory in which `point` is what slots yield, and
leaves such a memory. -/
def Pool.Yields (pool : Pool) (b : Bindings) (point : Nat → Option Point)
    (slotValue : Nat → Run Point) (slot : Nat) : Prop :=
  ∃ z, point slot = some z ∧ ∀ known, pool.pointGiven b known = point →
    ∃ known', pool.pointGiven b known' = point ∧
      ∀ rs ps, slotValue slot ⟨rs, ps, known⟩ = .ok z ⟨rs, ps, known'⟩

section

variable {pool : Pool} {b : Bindings} {point : Nat → Option Point} {slotValue : Nat → Run Point}

theorem Instr.runAll_cons {i : Instr} {m m' : Machine} (h : i.run slotValue pool b m = .ok () m')
    (code : List Instr) :
    runAll slotValue pool b (i :: code) m = runAll slotValue pool b code m' := by
  rw [runAll, EStateM.bind_of_eq_ok h]

theorem Instr.run_unary (op : UnaryOp) (e : op.operandKind.Value) (m : Machine) :
    (Instr.unary op).run slotValue pool b (m.push op.operandKind e) =
      .ok () (m.push .real (op.apply e)) := by
  cases op <;> rfl

theorem Instr.run_binary (op : BinaryOp) (kind : Kind) (x y : kind.Value) (m : Machine) :
    (Instr.binary op kind).run slotValue pool b ((m.push kind x).push kind y) =
      .ok () (m.push kind (kind.apply op x y)) := by
  cases kind <;> rfl

/-- Running the code of an expression puts its value on top, whatever comes after. -/
def Expr.Computes (pool : Pool) (b : Bindings) (point : Nat → Option Point)
    (slotValue : Nat → Run Point) {kind : Kind} (e : Expr kind) : Prop :=
  ∃ z, e.yield pool b point = some z ∧ ∀ known, pool.pointGiven b known = point →
    ∃ known', pool.pointGiven b known' = point ∧ ∀ rest rs ps,
      Instr.runAll slotValue pool b (e.code ++ rest) ⟨rs, ps, known⟩ =
        Instr.runAll slotValue pool b rest ((⟨rs, ps, known'⟩ : Machine).push kind z)

namespace Expr

theorem Computes.unary (op : UnaryOp) {e : Expr op.operandKind}
    (h : e.Computes pool b point slotValue) :
    (Expr.unary op e).Computes pool b point slotValue := by
  obtain ⟨z, hz, hrun⟩ := h
  refine ⟨op.apply z, ?_, fun known hknown ↦ ?_⟩
  · cases op <;> exact congrArg _ hz
  · obtain ⟨known', hknown', hrest⟩ := hrun known hknown
    refine ⟨known', hknown', fun rest rs ps ↦ ?_⟩
    have hcode : (Expr.unary op e).code ++ rest = e.code ++ .unary op :: rest := by
      cases op <;> exact List.append_assoc _ _ _
    rw [hcode, hrest]
    exact Instr.runAll_cons (Instr.run_unary op z _) rest

theorem Computes.binary {op : BinaryOp} {kind : Kind} {l r : Expr kind}
    (hl : l.Computes pool b point slotValue) (hr : r.Computes pool b point slotValue) :
    (Expr.binary op l r).Computes pool b point slotValue := by
  obtain ⟨x, hx, hrunl⟩ := hl
  obtain ⟨y, hy, hrunr⟩ := hr
  refine ⟨kind.apply op x y, by rw [yield, hx, hy]; rfl, fun known hknown ↦ ?_⟩
  -- the right side finds what the left side has remembered
  obtain ⟨known₁, hknown₁, hl⟩ := hrunl known hknown
  obtain ⟨known₂, hknown₂, hr⟩ := hrunr known₁ hknown₁
  refine ⟨known₂, hknown₂, fun rest rs ps ↦ ?_⟩
  have hcode : (Expr.binary op l r).code ++ rest =
      l.code ++ (r.code ++ .binary op kind :: rest) := by
    simp [code]
  rw [hcode, hl]
  cases kind with
  | real =>
    rw [push, hr]
    exact Instr.runAll_cons (Instr.run_binary op .real x y ⟨rs, ps, known₂⟩) rest
  | complex =>
    rw [push, hr]
    exact Instr.runAll_cons (Instr.run_binary op .complex x y ⟨rs, ps, known₂⟩) rest

/-- An expression is computed by its code if its numbers are there, its variables have values, and
its complex slots yield points. -/
theorem computes {kind : Kind} {e : Expr kind} (hstored : e.Stored pool)
    (hbound : ∀ i ∈ e.code, i.Bound pool b)
    (hslot : ∀ slot, .complex slot ∈ e.code → pool.Yields b point slotValue slot) :
    e.Computes pool b point slotValue := by
  induction e with
  | var v =>
    have hv := hbound (.load v) (List.mem_singleton_self _) v (decide_eq_true rfl)
    obtain ⟨z, hz⟩ := Option.isSome_iff_exists.1 hv
    refine ⟨z, hz, fun known hknown ↦ ⟨known, hknown, fun rest rs ps ↦ ?_⟩⟩
    refine Instr.runAll_cons ?_ rest
    rw [Instr.run, hz]
    rfl
  | number slot value =>
    obtain ⟨x, hx⟩ := Option.isSome_iff_exists.1 hstored
    refine ⟨x, hx, fun known hknown ↦ ⟨known, hknown, fun rest rs ps ↦ ?_⟩⟩
    refine Instr.runAll_cons ?_ rest
    rw [Instr.run, hx]
    rfl
  | bracket slot x y =>
    obtain ⟨z, hz, hrun⟩ := hslot slot (List.mem_singleton_self _)
    refine ⟨z, hz, fun known hknown ↦ ?_⟩
    obtain ⟨known', hknown', hval⟩ := hrun known hknown
    refine ⟨known', hknown', fun rest rs ps ↦ ?_⟩
    refine Instr.runAll_cons ?_ rest
    rw [Instr.run, EStateM.bind_of_eq_ok (hval rs ps)]
    rfl
  | abs e ih =>
    refine Computes.unary .abs (ih hstored (fun i hi ↦ ?_) fun slot hi ↦ ?_)
    · exact hbound i (List.mem_append_left _ hi)
    · exact hslot slot (List.mem_append_left _ hi)
  | re e ih =>
    refine Computes.unary .re (ih hstored (fun i hi ↦ ?_) fun slot hi ↦ ?_)
    · exact hbound i (List.mem_append_left _ hi)
    · exact hslot slot (List.mem_append_left _ hi)
  | im e ih =>
    refine Computes.unary .im (ih hstored (fun i hi ↦ ?_) fun slot hi ↦ ?_)
    · exact hbound i (List.mem_append_left _ hi)
    · exact hslot slot (List.mem_append_left _ hi)
  | binary op left right ihl ihr =>
    have hleft {i} (hi : i ∈ left.code) : i ∈ (Expr.binary op left right).code :=
      List.mem_append_left _ (List.mem_append_left _ hi)
    have hright {i} (hi : i ∈ right.code) : i ∈ (Expr.binary op left right).code :=
      List.mem_append_left _ (List.mem_append_right _ hi)
    refine Computes.binary (ihl hstored.1 (fun i hi ↦ ?_) fun slot hi ↦ ?_)
      (ihr hstored.2 (fun i hi ↦ ?_) fun slot hi ↦ ?_)
    · exact hbound i (hleft hi)
    · exact hslot slot (hleft hi)
    · exact hbound i (hright hi)
    · exact hslot slot (hright hi)

theorem Flat.not_mem_code {kind : Kind} {e : Expr kind} (h : e.Flat) (slot : Nat) :
    .complex slot ∉ e.code := by
  induction e with
  | var v => simp [code]
  | number slot value => simp [code]
  | bracket slot x y => exact absurd h id
  | abs e ih => simpa [code] using ih h
  | re e ih => simpa [code] using ih h
  | im e ih => simpa [code] using ih h
  | binary op left right ihl ihr => simpa [code] using ⟨ihl h.1, ihr h.2⟩

end Expr

/-! ## Brackets and their slots -/

/-- The program of a bracket with flat parts leaves the point made of the values of its parts,
however its complex slots may behave. -/
theorem Program.runAll_bracket (point : Nat → Option Point) (slotValue : Nat → Run Point)
    {x y : Expr .real} (hx : x.Flat) (hy : y.Flat)
    (hxs : x.Stored pool) (hys : y.Stored pool)
    (hbound : ∀ i ∈ (Program.bracket x y).code, i.Bound pool b) :
    ∃ re im, x.yield pool b point = some re ∧ y.yield pool b point = some im ∧
      ∀ known, pool.pointGiven b known = point → ∃ known', pool.pointGiven b known' = point ∧
        ∀ rs ps, Instr.runAll slotValue pool b (Program.bracket x y).code ⟨rs, ps, known⟩ =
          .ok () ⟨rs, ⟨re, im⟩ :: ps, known'⟩ := by
  obtain ⟨re, hre, hrunx⟩ : x.Computes pool b point slotValue :=
    Expr.computes hxs
      (fun i hi ↦ hbound i (List.mem_append_left _ (List.mem_append_left _ hi)))
      fun slot hi ↦ absurd hi (hx.not_mem_code slot)
  obtain ⟨im, him, hruny⟩ : y.Computes pool b point slotValue :=
    Expr.computes hys
      (fun i hi ↦ hbound i (List.mem_append_left _ (List.mem_append_right _ hi)))
      fun slot hi ↦ absurd hi (hy.not_mem_code slot)
  refine ⟨re, im, hre, him, fun known hknown ↦ ?_⟩
  obtain ⟨known₁, hknown₁, hx⟩ := hrunx known hknown
  obtain ⟨known₂, hknown₂, hy⟩ := hruny known₁ hknown₁
  refine ⟨known₂, hknown₂, fun rs ps ↦ ?_⟩
  rw [bracket, List.append_assoc, hx, push, hy]
  rfl

theorem Instr.bound_of_slot {slot : Nat} {program : Program}
    (hslot : pool.complexes.get? slot = some (.varying program))
    (hflat : ∀ k, .complex k ∉ program.code) (hbound : (Instr.complex slot).Bound pool b) :
    ∀ i ∈ program.code, i.Bound pool b := by
  intro i hi v hv
  refine hbound v ?_
  obtain ⟨d, hd⟩ := Pool.exists_depth_eq_succ hslot
  have hreads : i.reads (pool.slotReads v d) v := by
    cases i with
    | complex k => exact absurd hi (hflat k)
    | _ => exact hv
  rw [Instr.reads, hd, Pool.slotReads]
  simp only [hslot]
  exact List.any_eq_true.2 ⟨i, hi, hreads⟩

theorem Program.not_mem_bracket_code {x y : Expr .real} (hx : x.Flat) (hy : y.Flat) (slot : Nat) :
    .complex slot ∉ (Program.bracket x y).code := by
  simp [bracket, hx.not_mem_code slot, hy.not_mem_code slot]

theorem Program.evaluate_of_run {program : Program} {z : Point} {rs : List Float} {ps : List Point}
    {known : List (Nat × Point)} (h : program.run pool b {} = .ok () ⟨rs, z :: ps, known⟩)
    (m : Machine) : program.evaluate pool b m = .ok z ⟨rs, ps, known⟩ :=
  EStateM.bind_eq_ok_iff.2 ⟨(), {}, rfl, EStateM.bind_eq_ok_iff.2 ⟨(), _, h, rfl⟩⟩

theorem Program.value_bracket {x y : Expr .real} (hx : x.Flat) (hy : y.Flat)
    (hxs : x.Stored pool) (hys : y.Stored pool)
    (hbound : ∀ i ∈ (Program.bracket x y).code, i.Bound pool b) :
    ∃ re im, x.yield pool b (pool.pointAt b) = some re ∧ y.yield pool b (pool.pointAt b) = some im ∧
      (Program.bracket x y).value pool b = .ok ⟨re, im⟩ := by
  obtain ⟨re, im, hre, him, hrun⟩ := runAll_bracket (pool.pointAt b) (pool.slotValue b pool.depth)
    hx hy hxs hys hbound
  obtain ⟨known, -, hrun⟩ := hrun [] rfl
  refine ⟨re, im, hre, him, ?_⟩
  rw [value, evaluate_of_run (hrun [] [])]

/-- A slot of a sound pool has a point, which it yields unless another one is remembered for it. -/
private theorem Pool.pointAt_of_sound (hsound : pool.Sound) {slot : Nat} {c : Constant}
    (hslot : pool.complexes.get? slot = some c) (hbound : (Instr.complex slot).Bound pool b)
    (depth : Nat) :
    ∃ z, pool.pointAt b slot = some z ∧ ∀ known, known.lookup slot = none →
      ∃ known', pool.pointGiven b known' = pool.pointGiven b known ∧
        ∀ rs ps, pool.slotValue b (depth + 1) slot ⟨rs, ps, known⟩ = .ok z ⟨rs, ps, known'⟩ := by
  cases c with
  | fixed z =>
    refine ⟨z, by simp only [pointAt, hslot], fun known hknown ↦ ⟨known, rfl, fun rs ps ↦ ?_⟩⟩
    exact slotValue_fixed hknown hslot
  | varying program =>
    obtain ⟨x, y, rfl, hx, hy, hxs, hys⟩ := hsound hslot
    have hcode := Instr.bound_of_slot hslot (Program.not_mem_bracket_code hx hy) hbound
    obtain ⟨re, im, hre, him, hvalue⟩ := Program.value_bracket hx hy hxs hys hcode
    have hpoint : pool.pointAt b slot = some ⟨re, im⟩ := by
      simp only [pointAt, hslot, hvalue]
      rfl
    refine ⟨⟨re, im⟩, hpoint, fun known hknown ↦ ?_⟩
    -- the parts are flat, so what slots yield matters neither to the run nor to the value
    obtain ⟨re', im', hre', him', hrun⟩ := Program.runAll_bracket (pool.pointGiven b known)
      (pool.slotValue b depth) hx hy hxs hys hcode
    obtain rfl : re' = re := Option.some.inj ((hre'.symm.trans hx.yield_eq).trans hre)
    obtain rfl : im' = im := Option.some.inj ((him'.symm.trans hy.yield_eq).trans him)
    obtain ⟨known', hknown', hrun⟩ := hrun known rfl
    have hgiven : pool.pointGiven b known' slot = some ⟨re', im'⟩ := by
      rw [hknown', pointGiven, hknown, hpoint]
      rfl
    refine ⟨(slot, ⟨re', im'⟩) :: known', (pointGiven_cons hgiven).trans hknown', fun rs ps ↦ ?_⟩
    rw [slotValue_varying hknown hslot, EStateM.bind_of_eq_ok (hrun rs ps)]
    rfl

theorem Pool.yields_of_sound (hsound : pool.Sound) {slot : Nat}
    (hslot : (pool.complexes.get? slot).isSome) (hbound : (Instr.complex slot).Bound pool b)
    (known₀ : List (Nat × Point)) (depth : Nat) :
    pool.Yields b (pool.pointGiven b known₀) (pool.slotValue b (depth + 1)) slot := by
  obtain ⟨c, hc⟩ := Option.isSome_iff_exists.1 hslot
  obtain ⟨w, hw, hrun⟩ := pointAt_of_sound hsound hc hbound depth
  -- a memory decides the point of a slot only by what it remembers for that very slot
  have hpoint (known) : pool.pointGiven b known slot = some ((known.lookup slot).getD w) := by
    rw [pointGiven, hw, Option.or_some]
  refine ⟨(known₀.lookup slot).getD w, hpoint known₀, fun known hknown ↦ ?_⟩
  have hsame := congrFun hknown slot
  rw [hpoint, hpoint, Option.some.injEq] at hsame
  rw [← hsame]
  cases hlookup : known.lookup slot with
  | some z => exact ⟨known, hknown, fun rs ps ↦ slotValue_of_known hlookup⟩
  | none =>
    obtain ⟨known', hknown', hrun⟩ := hrun known hlookup
    exact ⟨known', hknown'.trans hknown, hrun⟩

/-! ## Programs of expressions -/

theorem Expr.Stored.isSome_get? {kind : Kind} {e : Expr kind} (h : e.Stored pool) {slot : Nat}
    (hslot : .complex slot ∈ e.code) : (pool.complexes.get? slot).isSome := by
  induction e with
  | var v => simp [code] at hslot
  | number k value => simp [code] at hslot
  | bracket k x y =>
    obtain rfl : slot = k := by simpa [code] using hslot
    exact h
  | abs e ih => exact ih h (by simpa [code] using hslot)
  | re e ih => exact ih h (by simpa [code] using hslot)
  | im e ih => exact ih h (by simpa [code] using hslot)
  | binary op left right ihl ihr =>
    rcases (by simpa [code] using hslot : _ ∨ _) with hslot | hslot
    · exact ihl h.1 hslot
    · exact ihr h.2 hslot

/-- In a sound pool that stores a complex expression, its program puts the value of the expression
on top, whatever the machine holds and remembers. -/
theorem Expr.run_program {e : Expr .complex} (hsound : pool.Sound) (hstored : e.Stored pool)
    (hbound : ∀ i ∈ e.code, i.Bound pool b) (known : List (Nat × Point)) :
    ∃ z known', e.yield pool b (pool.pointGiven b known) = some z ∧
      ∀ rs ps, e.program.run pool b ⟨rs, ps, known⟩ = .ok () ⟨rs, z :: ps, known'⟩ := by
  have hslots : ∀ slot, .complex slot ∈ e.code →
      pool.Yields b (pool.pointGiven b known) (pool.slotValue b pool.depth) slot := by
    intro slot hslot
    have huse := hstored.isSome_get? hslot
    obtain ⟨c, hc⟩ := Option.isSome_iff_exists.1 huse
    obtain ⟨d, hd⟩ := Pool.exists_depth_eq_succ hc
    rw [hd]
    exact Pool.yields_of_sound hsound huse (hbound _ hslot) known d
  obtain ⟨z, hz, hrun⟩ := computes hstored hbound hslots
  obtain ⟨known', -, hrun⟩ := hrun known rfl
  refine ⟨z, known', hz, fun rs ps ↦ ?_⟩
  rw [Program.run, program, ← List.append_nil e.code, hrun]
  rfl

end

end OrbitPlot
