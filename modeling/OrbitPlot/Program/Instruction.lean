import OrbitPlot.Formula.Symbol
import OrbitPlot.Point
import OrbitPlot.Text.Basic

/-!
# Programs in postfix order

A term is run as a row of instructions on two stacks, one of real numbers and one of points.
Operands come before their operator, so a program needs no jumps and no names; numbers are taken
from the slots of a pool that several programs may share.
-/

namespace OrbitPlot

/-- One step of a program. -/
inductive Instr where
  /-- Put the value of a variable on the stack of points. -/
  | load (v : Variable)
  /-- Put a real number from its slot on the stack of real numbers. -/
  | real (slot : Nat)
  /-- Put a point from its slot on the stack of points. -/
  | complex (slot : Nat)
  /-- Take a right and then a left operand of this kind, and put the result back. -/
  | binary (op : BinaryOp) (kind : Kind)
  /-- Take an operand and put a real number back. -/
  | unary (op : UnaryOp)
  /-- Take an imaginary and then a real part, and put the point back. -/
  | pair
  deriving DecidableEq, Repr

/-- The code of a term together with its spelling in normal form. -/
structure Program where
  /-- The term as text. -/
  source : Text
  /-- The instructions in the order in which they run. -/
  code : List Instr
  deriving DecidableEq, Repr

end OrbitPlot
