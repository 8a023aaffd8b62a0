import OrbitPlot.Formula.Sweep
import OrbitPlot.Formula.Token
import OrbitPlot.Numeral.Reading
import OrbitPlot.Recurrence.Basic

/-!
# Reading recurrences

From the text of a formula to its recurrence. The tokens of a term become a row, every number and
bracket being given its slot on the way, and the sweeps make one expression of the row. So slots
are filled in the order of the text, and a formula with too many numbers is refused for that before
its operators are looked at.

The two parts of a bracket are terms of their own and must be real. A bracket in which no variable
occurs is worked out at once; any other is kept as a program. Brackets inside brackets never get
far: the comma of the inner one would have divided the outer one already.
-/

namespace OrbitPlot

namespace Interning

/-- A step that interns nothing. -/
def lift {α : Type} : Except FormulaError α → Interning α
  | .ok x => pure x
  | .error e => throw e

end Interning

open Interning

/-! ## Rows -/

/-- The expression of a number, with its slot. -/
def Expr.readNumber (text : Text) : Interning (Expr .real) :=
  match Numeral.float? text with
  | some value => do return .number (← Pool.internReal value) value
  | none => throw (.notNumber text)

/-- The member of a row that a token makes, given how brackets are read. At the start of a sequence
some variables may not be used. -/
def Item.ofToken (bracket : Text → Interning (Expr .complex)) (atStart : Bool) :
    Token → Interning Item
  | .binary op => return .binary op
  | .unary op => return .unary op
  | .var v =>
    if atStart && !v.knownAtStart then throw (.notYetDefined v) else return .operand ⟨.var v⟩
  | .numeral text => do return .operand ⟨← Expr.readNumber text⟩
  | .bracketed text => do return .operand ⟨← bracket text⟩

/-- The operand that a row of tokens stands for. -/
def Operand.ofTokens (bracket : Text → Interning (Expr .complex)) (atStart : Bool)
    (tokens : List Token) : Interning Operand := do
  let row ← tokens.mapM (Item.ofToken bracket atStart)
  lift (Item.combine row)

/-! ## Brackets -/

/-- A bracket without its opening and closing ends, however many there are. -/
def Text.unbracketed (text : Text) : Text :=
  ((text.dropWhile (· = '[')).reverse.dropWhile (· = ']')).reverse

/-- One part of the bracket `whole`. -/
def Expr.readPart (bracket : Text → Interning (Expr .complex)) (atStart : Bool)
    (whole text : Text) : Interning (Expr .real) := do
  let tokens ← lift (Token.scan text)
  if tokens.isEmpty then throw (.notPair whole)
  match ← Operand.ofTokens bracket atStart tokens with
  | ⟨(e : Expr .real)⟩ => return e
  | ⟨(_ : Expr .complex)⟩ => throw (.complexPart text)

/-- The constant of a bracket with the given parts: its value if no variable occurs in it. -/
def Constant.ofParts (pool : Pool) (whole : Text) (x y : Expr .real) :
    Except FormulaError Constant :=
  if x.varies || y.varies then .ok (.varying (.bracket x y))
  else
    match (Program.bracket x y).value pool .zero with
    | .ok z => .ok (.fixed z)
    | .error _ => .error (.notPair whole)

/-- The expression of a bracket, with its slot, other brackets being read down to `depth` levels
inside it. -/
def Expr.readBracket (atStart : Bool) : (depth : Nat) → Text → Interning (Expr .complex)
  | 0, text => throw (.notPair text)
  | depth + 1, text =>
    match text.unbracketed.splitOn ',' with
    | [left, right] => do
      let x ← readPart (readBracket atStart depth) atStart text left
      let y ← readPart (readBracket atStart depth) atStart text right
      let constant ← lift (Constant.ofParts (← get) text x y)
      return .bracket (← Pool.internComplex constant) x y
    | _ => throw (.notPair text)

/-! ## Terms and formulas -/

/-- The program of a term, which must be complex. One level of brackets is all that a term has. -/
def Program.ofTokens (atStart : Bool) (tokens : List Token) : Interning Program := do
  match ← Operand.ofTokens (Expr.readBracket atStart 1) atStart tokens with
  | ⟨(e : Expr .complex)⟩ => return e.program
  | ⟨(e : Expr .real)⟩ => throw (.notComplex e.source)

/-- The programs of the first and the next term. -/
def Program.ofTerms (first next : List Token) : Interning (Program × Program) := do
  let first ← Program.ofTokens true first
  let next ← Program.ofTokens false next
  return (first, next)

/-- The recurrence that a formula describes. -/
def Recurrence.read (text : Text) : Except FormulaError Recurrence := do
  let (first, next) ← Token.scanTerms text
  match Program.ofTerms first next {} with
  | .ok (first, next) pool => ofPrograms pool first next
  | .error e _ => throw e

end OrbitPlot
