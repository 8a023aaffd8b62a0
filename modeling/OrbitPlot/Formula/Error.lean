import OrbitPlot.Formula.Symbol
import OrbitPlot.Text.Basic

/-!
# What can be wrong with a formula

Only the first fault found is reported, because a text that is broken in one way tends to make its
sound parts look broken too.
-/

namespace OrbitPlot

/-- Why a text is not a formula. -/
inductive FormulaError where
  /-- Nothing divides the first term from the rule for the next one. -/
  | noSeparator
  /-- More than one separator. -/
  | extraSeparator
  /-- The first term reads a variable that only has a value later. -/
  | notYetDefined (v : Variable)
  /-- A bracket is opened and not closed. -/
  | unclosedBracket
  /-- A bracket is opened inside another. -/
  | bracketInBracket
  /-- A bracket is closed that was not opened. -/
  | unopenedBracket
  /-- An operator has no left operand. -/
  | nothingOnLeft (op : BinaryOp)
  /-- An operator has no right operand. -/
  | nothingOnRight (op : BinaryOp)
  /-- An operator has no operand. -/
  | noOperand (op : UnaryOp)
  /-- An operator meets an operand of the wrong kind. -/
  | wrongKind (op : UnaryOp) (found : Kind)
  /-- An operator joins a real and a complex number. -/
  | mixedKinds (op : BinaryOp)
  /-- A term is a real number, or empty. -/
  | notComplex (text : Text)
  /-- Several values stand side by side with nothing to join them. -/
  | unjoined (text : Text)
  /-- There are more different real numbers than slots. -/
  | tooManyReals
  /-- There are more different complex numbers than slots. -/
  | tooManyComplexes
  /-- The program of the first term does not leave one complex number. -/
  | firstUnfit
  /-- The program of the next term does not leave one complex number. -/
  | nextUnfit
  /-- A run of characters is not a number. -/
  | notNumber (text : Text)
  /-- A bracket does not hold two parts. -/
  | notPair (text : Text)
  /-- A part of a bracket is complex. -/
  | complexPart (text : Text)
  deriving DecidableEq, Repr

namespace FormulaError

/-- What is wrong, in a sentence. -/
def message : FormulaError → String
  | noSeparator =>
    "There was no semicolon to separate the first term from the rule for the next term."
  | extraSeparator => "Only one semicolon is permitted."
  | notYetDefined v =>
    s!"Cannot use the character {v.char} when defining the first term."
  | unclosedBracket => "A '[' was opened but never closed."
  | bracketInBracket =>
    "Defining a complex number inside another complex number is not permitted."
  | unopenedBracket => "A ']' was found with no '[' before it."
  | nothingOnLeft op => s!"The operator '{op.char}' has nothing on its left."
  | nothingOnRight op => s!"The operator '{op.char}' has nothing on its right."
  | noOperand op => s!"The operator '{op.char}' has nothing to operate on."
  | wrongKind op found =>
    s!"The operator '{op.char}' cannot be applied to {found.describe}."
  | mixedKinds op =>
    s!"The operator '{op.char}' must join two real numbers or two complex numbers."
  | notComplex text => s!"The result of '{String.ofList text}' is not a complex number."
  | unjoined text => s!"'{String.ofList text}' contains values with no operator between them."
  | tooManyReals => "Up to 10 unique normal numbers can be defined."
  | tooManyComplexes => "Up to 10 unique complex numbers can be defined."
  | firstUnfit => "The result of the first term is not a complex number."
  | nextUnfit => "The result of the rule for the next term is not a complex number."
  | notNumber text => s!"'{String.ofList text}' is not a valid number."
  | notPair text => s!"'{String.ofList text}' must have the form [x,y]."
  | complexPart text =>
    s!"'{String.ofList text}' must be a real number to be part of a complex number."

/-- The message for someone who typed the formula in. -/
def report (e : FormulaError) : String := "The given formula is invalid.\n" ++ e.message

end FormulaError

end OrbitPlot
