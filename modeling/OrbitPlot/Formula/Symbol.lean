/-!
# The letters of a formula

A formula is spelled with single letters and signs: four letters name values of the sequence, three
are operators on one value, and three signs join two values. Each alphabet comes with the character
of every member and with the member of every character that has one.

Every value is either a real number or a complex one, which is its `Kind`.
-/

namespace OrbitPlot

/-! ## Kinds -/

/-- What sort of number a part of a formula stands for. -/
inductive Kind where
  /-- A real number. -/
  | real
  /-- A complex number. -/
  | complex
  deriving DecidableEq, Repr

/-- The kind in words, as messages have it. -/
def Kind.describe : Kind → String
  | .real => "a real number"
  | .complex => "a complex number"

/-! ## Variables -/

/-- A value that changes from point to point or from term to term. -/
inductive Variable where
  /-- The point being drawn. -/
  | current
  /-- The term before this one. -/
  | previous
  /-- The first term of the sequence. -/
  | first
  /-- A point chosen by the user. -/
  | selected
  deriving DecidableEq, Repr

namespace Variable

/-- All variables, in the order in which they are listed for a reader. -/
def all : List Variable := [current, previous, first, selected]

/-- The letter of a variable. -/
def char : Variable → Char
  | current => 'c'
  | previous => 'p'
  | first => 'f'
  | selected => 'u'

/-- The variable that a letter names. -/
def ofChar? (c : Char) : Option Variable := all.find? (·.char = c)

/-- Whether a variable has a value before the sequence has begun. -/
def knownAtStart : Variable → Bool
  | current | selected => true
  | previous | first => false

theorem ofChar?_eq_some_iff {c : Char} {v : Variable} : ofChar? c = some v ↔ c = v.char := by
  constructor
  · intro h
    simpa [eq_comm] using List.find?_some h
  · rintro rfl
    cases v <;> rfl

end Variable

/-! ## Operators -/

/-- An operator between two values of one kind. -/
inductive BinaryOp where
  /-- The sum. -/
  | add
  /-- The left value less the right one. -/
  | sub
  /-- The product. -/
  | mul
  deriving DecidableEq, Repr

namespace BinaryOp

/-- All operators that join two values. -/
def all : List BinaryOp := [add, sub, mul]

/-- The sign of an operator. -/
def char : BinaryOp → Char
  | add => '+'
  | sub => '-'
  | mul => '*'

/-- The operator that a sign stands for. -/
def ofChar? (c : Char) : Option BinaryOp := all.find? (·.char = c)

/-- The value of an operator, for any type with the three operations. -/
@[inline]
def apply {α : Type} [Add α] [Sub α] [Mul α] : BinaryOp → α → α → α
  | add, x, y => x + y
  | sub, x, y => x - y
  | mul, x, y => x * y

theorem ofChar?_eq_some_iff {c : Char} {op : BinaryOp} :
    ofChar? c = some op ↔ c = op.char := by
  constructor
  · intro h
    simpa [eq_comm] using List.find?_some h
  · rintro rfl
    cases op <;> rfl

end BinaryOp

/-- An operator on one value; the result is always real. -/
inductive UnaryOp where
  /-- The absolute value of a real number. -/
  | abs
  /-- The real part of a complex number. -/
  | re
  /-- The imaginary part of a complex number. -/
  | im
  deriving DecidableEq, Repr

namespace UnaryOp

/-- All operators on one value. -/
def all : List UnaryOp := [abs, re, im]

/-- The letter of an operator. -/
def char : UnaryOp → Char
  | abs => 'a'
  | re => 'r'
  | im => 'i'

/-- The operator that a letter stands for. -/
def ofChar? (c : Char) : Option UnaryOp := all.find? (·.char = c)

/-- The kind of value an operator works on. -/
def operandKind : UnaryOp → Kind
  | abs => .real
  | re | im => .complex

theorem ofChar?_eq_some_iff {c : Char} {op : UnaryOp} :
    ofChar? c = some op ↔ c = op.char := by
  constructor
  · intro h
    simpa [eq_comm] using List.find?_some h
  · rintro rfl
    cases op <;> rfl

end UnaryOp

end OrbitPlot
