import OrbitPlot.Formula.Error

/-!
# Tokens

A formula is two terms with a semicolon between them, and a term is a row of tokens. Only what can
be seen without understanding the tokens is refused here: the number of semicolons, brackets that
do not match, and operators at either end of a term.

Scanning goes by structural recursion on the text, from its end: a run of other characters grows
at its front, so that it always comes out as one token. A bracket is taken whole and not looked
into; `spelling` gives every token its characters back.
-/

namespace OrbitPlot

/-! ## Tokens and characters -/

/-- A unit of a term. -/
inductive Token where
  /-- A sign between two values. -/
  | binary (op : BinaryOp)
  /-- A letter in front of a value. -/
  | unary (op : UnaryOp)
  /-- The letter of a variable. -/
  | var (v : Variable)
  /-- A bracket with all that is in it, both ends included. -/
  | bracketed (text : Text)
  /-- A run of other characters, which ought to be a number. -/
  | numeral (text : Text)
  deriving DecidableEq, Repr

/-- What a character is, outside brackets. -/
inductive Mark where
  /-- It opens a bracket. -/
  | opening
  /-- It closes a bracket. -/
  | closing
  /-- It is a sign between two values. -/
  | binary (op : BinaryOp)
  /-- It is an operator in front of a value. -/
  | unary (op : UnaryOp)
  /-- It is a variable. -/
  | var (v : Variable)
  /-- It has no meaning of its own. -/
  | other
  deriving DecidableEq, Repr

/-- The mark that a character makes. -/
def Mark.ofChar (c : Char) : Mark :=
  if c = '[' then .opening
  else if c = ']' then .closing
  else
    match BinaryOp.ofChar? c, UnaryOp.ofChar? c, Variable.ofChar? c with
    | some op, _, _ => .binary op
    | none, some op, _ => .unary op
    | none, none, some v => .var v
    | none, none, none => .other

namespace Token

/-- The characters a token stands for. -/
def spelling : Token → Text
  | binary op => [op.char]
  | unary op => [op.char]
  | var v => [v.char]
  | bracketed text => text
  | numeral text => text

/-! ## Scanning a term -/

/-- A character without meaning goes to the front of the run that follows it, or starts one. -/
def extend (c : Char) : List Token → List Token
  | numeral text :: tokens => numeral (c :: text) :: tokens
  | tokens => numeral [c] :: tokens

mutual

/-- The tokens of a text that starts outside brackets. -/
def outside : Text → Except FormulaError (List Token)
  | [] => .ok []
  | c :: rest =>
    match Mark.ofChar c with
    | .opening => do
      let (body, tokens) ← inside rest
      return bracketed (c :: body) :: tokens
    | .closing => .error .unopenedBracket
    | .binary op => do
      if rest.isEmpty then throw (.nothingOnRight op)
      return binary op :: (← outside rest)
    | .unary op => do
      if rest.isEmpty then throw (.noOperand op)
      return unary op :: (← outside rest)
    | .var v => do return var v :: (← outside rest)
    | .other => do return extend c (← outside rest)

/-- The remainder of a bracket, up to its closing end, and the tokens after it. -/
def inside : Text → Except FormulaError (Text × List Token)
  | [] => .error .unclosedBracket
  | c :: rest =>
    match Mark.ofChar c with
    | .opening => .error .bracketInBracket
    | .closing => do return ([c], ← outside rest)
    | _ => do
      let (body, tokens) ← inside rest
      return (c :: body, tokens)

end

/-- The tokens of a term. A sign in front of everything else has nothing on its left. -/
def scan (text : Text) : Except FormulaError (List Token) :=
  match text.head?.bind BinaryOp.ofChar? with
  | some op => .error (.nothingOnLeft op)
  | none => outside text

/-! ## The two terms of a formula -/

/-- The first term and the rule for the next term. -/
def splitTerms (text : Text) : Except FormulaError (Text × Text) :=
  match text.splitOn ';' with
  | [] | [_] => .error .noSeparator
  | [first, next] => .ok (first, next)
  | _ => .error .extraSeparator

/-- The variable that a character names, if it has no value before the sequence has begun. -/
def notYetDefined? (c : Char) : Option Variable :=
  (Variable.ofChar? c).filter (!·.knownAtStart)

/-- The tokens of both terms. The letters of values that do not exist yet are refused anywhere in
the first term, even in places where no token could be read. -/
def scanTerms (text : Text) : Except FormulaError (List Token × List Token) := do
  let (first, next) ← splitTerms text
  if let some v := first.findSome? notYetDefined? then throw (.notYetDefined v)
  return (← scan first, ← scan next)

end Token

end OrbitPlot
