import OrbitPlot.Numeral.Writing
import OrbitPlot.Program.Instruction

/-!
# Expressions

What a term means, once it has been understood: a tree whose type says whether it stands for a real
or a complex number, so that no tree is ill-typed. A tree has a spelling in normal form, code in
postfix order, and a value.

Numbers and brackets carry both what they are and the slot they were given. The code uses only the
slot and the value uses only the number, so that sharing slots is something to be proved harmless
rather than something assumed.
-/

namespace OrbitPlot

/-- An expression for a number of some kind. -/
inductive Expr : Kind → Type where
  /-- The value of a variable. -/
  | var (v : Variable) : Expr .complex
  /-- A number, kept in a slot. -/
  | number (slot : Nat) (value : Float) : Expr .real
  /-- A point in brackets, kept in a slot. -/
  | bracket (slot : Nat) (x y : Expr .real) : Expr .complex
  /-- The absolute value. -/
  | abs (e : Expr .real) : Expr .real
  /-- The real part. -/
  | re (e : Expr .complex) : Expr .real
  /-- The imaginary part. -/
  | im (e : Expr .complex) : Expr .real
  /-- Two expressions of one kind joined by an operator. -/
  | binary {kind : Kind} (op : BinaryOp) (left right : Expr kind) : Expr kind

/-- The numbers of a kind. -/
abbrev Kind.Value : Kind → Type
  | .real => Float
  | .complex => Point

/-- The value of an operator between two numbers of a kind. -/
def Kind.apply : (kind : Kind) → BinaryOp → kind.Value → kind.Value → kind.Value
  | .real => BinaryOp.apply (α := Float)
  | .complex => BinaryOp.apply (α := Point)

namespace Expr

/-- The text of a bracket with two parts. -/
def bracketText (x y : Text) : Text := '[' :: x ++ ',' :: y ++ [']']

/-- The spelling in normal form: as in the text that was read, with each number written as short
as possible. -/
def source {kind : Kind} : Expr kind → Text
  | var v => [v.char]
  | number _ value => Numeral.plain.float value
  | bracket _ x y => bracketText x.source y.source
  | abs e => UnaryOp.abs.char :: e.source
  | re e => UnaryOp.re.char :: e.source
  | im e => UnaryOp.im.char :: e.source
  | binary op left right => left.source ++ op.char :: right.source

/-- The code in postfix order. -/
def code {kind : Kind} : Expr kind → List Instr
  | var v => [.load v]
  | number slot _ => [.real slot]
  | bracket slot _ _ => [.complex slot]
  | abs e => e.code ++ [.unary .abs]
  | re e => e.code ++ [.unary .re]
  | im e => e.code ++ [.unary .im]
  | @binary kind op left right => left.code ++ right.code ++ [.binary op kind]

/-- Whether a variable occurs. -/
def varies {kind : Kind} : Expr kind → Bool
  | var _ => true
  | number _ _ => false
  | bracket _ x y => x.varies || y.varies
  | abs e => e.varies
  | re e => e.varies
  | im e => e.varies
  | binary _ left right => left.varies || right.varies

/-- The value, given that of each variable. -/
def value (env : Variable → Point) {kind : Kind} : Expr kind → kind.Value
  | var v => env v
  | number _ value => value
  | bracket _ x y => ⟨x.value env, y.value env⟩
  | abs e => (e.value env).abs
  | re e => (e.value env).re
  | im e => (e.value env).im
  | @binary kind op left right => kind.apply op (left.value env) (right.value env)

/-- The program of an expression. -/
def program {kind : Kind} (e : Expr kind) : Program := ⟨e.source, e.code⟩

end Expr

/-- The program of a bracket, which makes a point of its two parts. -/
def Program.bracket (x y : Expr .real) : Program :=
  ⟨Expr.bracketText x.source y.source, x.code ++ y.code ++ [.pair]⟩

end OrbitPlot
