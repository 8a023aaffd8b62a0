import OrbitPlot.Program.Pool

/-!
# Running programs

A machine holds the two stacks and the values of the varying constants met so far; each of those is
worked out once in an evaluation and remembered. A machine serves for one evaluation after another
and is cleared before each, so what it did earlier, or how an earlier evaluation ended, does not
show.

A varying constant runs on top of the stacks it finds. Following slots is bounded by
`Pool.depth`, which cuts off nothing but constants that need themselves.
-/

namespace OrbitPlot

/-! ## Variables and faults -/

/-- The values of the variables during one evaluation. -/
structure Bindings where
  /-- The point being drawn. -/
  current : Point
  /-- The point chosen by the user, if one was. -/
  selected : Option Point
  /-- The first term, once there is one. -/
  first : Option Point
  /-- The term before, once there is one. -/
  previous : Option Point
  deriving DecidableEq, Repr

namespace Bindings

/-- What the first term may read: no other term exists. -/
def atStart (current : Point) (selected : Option Point) : Bindings :=
  ⟨current, selected, none, none⟩

/-- What a later term may read. -/
def later (current : Point) (selected : Option Point) (first previous : Point) : Bindings :=
  ⟨current, selected, some first, some previous⟩

/-- Every variable is zero. -/
def zero : Bindings := later .zero (some .zero) .zero .zero

/-- The value of a variable. -/
def lookup (b : Bindings) : Variable → Option Point
  | .current => some b.current
  | .selected => b.selected
  | .first => b.first
  | .previous => b.previous

end Bindings

/-- Why a program has no value. -/
inductive Fault where
  /-- It reads a variable that has no value. -/
  | missing (v : Variable)
  /-- It takes a value from an empty stack, names an empty slot, or needs itself. -/
  | malformed
  deriving DecidableEq, Repr

/-! ## The machine -/

/-- The state of a computation. -/
structure Machine where
  /-- The stack of real numbers, its top first. -/
  reals : List Float := []
  /-- The stack of points, its top first. -/
  points : List Point := []
  /-- The varying constants worked out so far, by slot. -/
  known : List (Nat × Point) := []
  deriving Inhabited

namespace Machine

/-- A step of the machine. The state is kept even if the step fails. -/
abbrev Run := EStateM Fault Machine

/-- Empties the machine. -/
def reset : Run Unit := fun _ ↦ .ok () {}

/-- Puts a real number on its stack. -/
def pushReal (x : Float) : Run Unit := fun m ↦ .ok () { m with reals := x :: m.reals }

/-- Puts a point on its stack. -/
def pushPoint (z : Point) : Run Unit := fun m ↦ .ok () { m with points := z :: m.points }

/-- Takes the top real number. -/
def popReal : Run Float := fun m ↦
  match m.reals with
  | x :: reals => .ok x { m with reals }
  | [] => .error .malformed m

/-- Takes the top point. -/
def popPoint : Run Point := fun m ↦
  match m.points with
  | z :: points => .ok z { m with points }
  | [] => .error .malformed m

/-- Remembers the value of a varying constant. -/
def remember (slot : Nat) (z : Point) : Run Unit := fun m ↦
  .ok () { m with known := (slot, z) :: m.known }

/-- A value that has to be there. -/
def require {α : Type} (fault : Fault) : Option α → Run α
  | some x => pure x
  | none => throw fault

end Machine

open Machine

/-! ## Instructions and slots -/

/-- Runs an instruction, given the values of complex slots. -/
def Instr.run (slotValue : Nat → Run Point) (pool : Pool) (b : Bindings) : Instr → Run Unit
  | load v => do pushPoint (← require (.missing v) (b.lookup v))
  | real slot => do pushReal (← require .malformed (pool.reals.get? slot))
  | complex slot => do pushPoint (← slotValue slot)
  | binary op .real => do
    let y ← popReal
    let x ← popReal
    pushReal (op.apply x y)
  | binary op .complex => do
    let w ← popPoint
    let z ← popPoint
    pushPoint (op.apply z w)
  | unary .abs => do pushReal (← popReal).abs
  | unary .re => do pushReal (← popPoint).re
  | unary .im => do pushReal (← popPoint).im
  | pair => do
    let im ← popReal
    let re ← popReal
    pushPoint ⟨re, im⟩

/-- Runs instructions one after another. -/
def Instr.runAll (slotValue : Nat → Run Point) (pool : Pool) (b : Bindings) :
    List Instr → Run Unit
  | [] => pure ()
  | i :: code => do
    i.run slotValue pool b
    runAll slotValue pool b code

/-- The value of a complex slot. A varying constant is run if it is not known yet, and may itself
name slots down to `depth` levels. -/
def Pool.slotValue (pool : Pool) (b : Bindings) : (depth slot : Nat) → Run Point
  | depth, slot => fun m ↦
    match m.known.lookup slot with
    | some z => .ok z m
    | none =>
      match depth, pool.complexes.get? slot with
      | _, some (.fixed z) => .ok z m
      | depth + 1, some (.varying program) =>
        (do
          Instr.runAll (pool.slotValue b depth) pool b program.code
          let z ← popPoint
          remember slot z
          return z : Run Point) m
      | _, _ => .error .malformed m

namespace Program

/-- Runs a program from wherever the machine stands. -/
def run (pool : Pool) (b : Bindings) (program : Program) : Run Unit :=
  Instr.runAll (pool.slotValue b pool.depth) pool b program.code

/-- The value of a program, the point it leaves on top. That it leaves nothing else is not looked
at here, but see `fits`. -/
def evaluate (pool : Pool) (b : Bindings) (program : Program) : Run Point := do
  reset
  program.run pool b
  popPoint

/-- Tries a program out, all variables being zero, and tells whether it leaves one point and no
real number. -/
def test (pool : Pool) (program : Program) : Run Bool := fun _ ↦
  match program.run pool .zero {} with
  | .ok () m => .ok (m.reals.isEmpty && m.points.length == 1) m
  | .error _ m => .ok false m

/-! ### On a new machine -/

/-- The value of a program, whatever a machine did before. -/
def value (pool : Pool) (b : Bindings) (program : Program) : Except Fault Point :=
  match program.evaluate pool b {} with
  | .ok z _ => .ok z
  | .error fault _ => .error fault

/-- Whether a program leaves one point and no real number. -/
def fits (pool : Pool) (program : Program) : Bool :=
  match program.test pool {} with
  | .ok fit _ => fit
  | .error _ _ => false

/-- The machine's past does not show in a value. -/
theorem evaluate_eq_evaluate_new (pool : Pool) (b : Bindings) (program : Program) (m : Machine) :
    program.evaluate pool b m = program.evaluate pool b {} := rfl

theorem test_eq_test_new (pool : Pool) (program : Program) (m : Machine) :
    program.test pool m = program.test pool {} := rfl

end Program

end OrbitPlot
