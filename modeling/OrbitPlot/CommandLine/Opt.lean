import OrbitPlot.Numeral.Reading
import OrbitPlot.Picture.StopRule

/-!
# Options of the command line

Everything that can be asked for on the command line, with how it is spelled, whether a value goes
with it, which value it has if none is given, and which values it takes. A value that is not taken
is answered with a complaint.
-/

namespace OrbitPlot

/-- An option of the command line. -/
inductive Opt where
  /-- The file to write. -/
  | output
  /-- The formula to draw. -/
  | formula
  /-- The name of the fractal to draw. -/
  | fractal
  /-- Whether to draw the Julia companion. -/
  | julia
  /-- The size of the image. -/
  | size
  /-- The point at the bottom left. -/
  | leftLower
  /-- The point at the top right. -/
  | rightUpper
  /-- Whether to turn the real axis round. -/
  | invertReal
  /-- Whether to turn the imaginary axis round. -/
  | invertImag
  /-- The cap on the length of orbits. -/
  | iterations
  /-- The selected point. -/
  | point
  /-- The stopping rule. -/
  | trap
  /-- The radius of the circle. -/
  | radius
  /-- How fast the color of the circle fades. -/
  | gradient
  /-- The thickness of axes and diagonals. -/
  | thickness
  deriving DecidableEq, Repr

namespace Opt

/-- All options, in the order in which they are checked. -/
def all : List Opt :=
  [output, formula, fractal, julia, size, leftLower, rightUpper, invertReal, invertImag,
    iterations, point, trap, radius, gradient, thickness]

/-! ## Spelling -/

/-- The name of an option, which follows two dashes. -/
def name : Opt → String
  | output => "output"
  | formula => "formula"
  | fractal => "fractal"
  | julia => "julia"
  | size => "size"
  | leftLower => "leftlower"
  | rightUpper => "rightupper"
  | invertReal => "invert-real"
  | invertImag => "invert-imag"
  | iterations => "iterations"
  | point => "point"
  | trap => "trap"
  | radius => "radius"
  | gradient => "gradient"
  | thickness => "thickness"

/-- The letter of an option, which follows one dash. -/
def letter? : Opt → Option Char
  | output => some 'o'
  | formula => some 'f'
  | fractal => some 'n'
  | julia => some 'j'
  | size => some 's'
  | leftLower => some 'l'
  | rightUpper => some 'r'
  | iterations => some 'i'
  | point => some 'u'
  | trap => some 't'
  | invertReal | invertImag | radius | gradient | thickness => none

/-- The option with a name. -/
def named? (text : Text) : Option Opt := all.find? fun o ↦ o.name.toList = text

/-- The option with a letter. -/
def ofLetter? (c : Char) : Option Opt := all.find? fun o ↦ o.letter? = some c

/-- Whether a value goes with an option. -/
def takesValue : Opt → Bool
  | julia | invertReal | invertImag => false
  | _ => true

/-- Whether a value may look like an option, as numbers with a sign do. -/
def takesDashes : Opt → Bool
  | leftLower | rightUpper | point => true
  | _ => false

/-- An option as messages have it. -/
def shown (o : Opt) : String :=
  if o.takesValue then s!"--{o.name} <{o.name}>" else s!"--{o.name}"

/-! ## Values -/

/-- The value of an option that is not given. -/
def default? : Opt → Option String
  | size => some "600x600"
  | leftLower => some "-2.5,-1.6"
  | rightUpper => some "1.5,1.6"
  | iterations => some "100"
  | trap => some "default"
  | _ => none

/-- The names of stopping rules that are taken. -/
def trapNames : List String := ["default", "circle", "axis", "diagonal"]

/-- A size in pixels. -/
def readSize? (text : Text) : Option (Nat × Nat) :=
  Numeral.pair? (Numeral.naturalBelow? UInt16.size) 'x' text

/-- What is wrong with a value that has to be a pair of real numbers. -/
def pointComplaint? (complaint : String) (text : Text) : Option String :=
  if (Numeral.pair? Numeral.float? ',' text).isSome then none else some complaint

/-- What is wrong with a value that has to be a positive finite number. -/
def positiveComplaint? (notNumber notPositive : String) (text : Text) : Option String :=
  match Numeral.float? text with
  | some x => if x.isFinite && 0 < x then none else some notPositive
  | none => some notNumber

/-- What is wrong with a number of iterations. -/
def iterationsComplaint? (text : Text) : Option String :=
  match Numeral.integer32? text with
  | some n =>
    if 1 ≤ n ∧ n ≤ 1000000 then none else some "Iteration count must be between 1 and 1000000"
  | none => some "Could not parse iteration count"

/-- What is wrong with the value of an option. -/
def complaint? : Opt → Text → Option String
  | size, text =>
    if (readSize? text).isSome then none else some "Could not parse output image size"
  | leftLower, text => pointComplaint? "Could not parse left lower corner" text
  | rightUpper, text => pointComplaint? "Could not parse right upper corner" text
  | iterations, text => iterationsComplaint? text
  | point, text => pointComplaint? "Could not parse selected point" text
  | radius, text => positiveComplaint? "Could not parse radius" "Radius must be positive" text
  | gradient, text =>
    positiveComplaint? "Could not parse gradient" "Gradient must be positive" text
  | thickness, text =>
    positiveComplaint? "Could not parse thickness" "Thickness must be positive" text
  | _, _ => none

end Opt

end OrbitPlot
