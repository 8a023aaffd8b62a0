import OrbitPlot.Catalogue
import OrbitPlot.CommandLine.Arguments
import OrbitPlot.Picture.Render
import OrbitPlot.Recurrence.Reading

/-!
# A session

What the command line does with its arguments, from their text to the picture or to the message
that explains why there is none. Nothing is written here: the answer is either what to say, or an
image together with the place to write it to.

The values of options were looked at when the arguments were read, and are read here once more for
what they say. `Opt.complaint?` answers exactly those that would not be understood.
-/

namespace OrbitPlot

/-! ## Failures -/

/-- Why no picture was made although the arguments make sense. -/
inductive Failure where
  /-- The formula has no meaning. -/
  | formula (e : FormulaError)
  /-- The window cannot be drawn. -/
  | window (e : WindowError)
  /-- A value is not understood. -/
  | argument (what : String) (text : Text)
  /-- There is no fractal with this name. -/
  | unknownFractal (name : Text)
  /-- The formula has no Julia companion. -/
  | noJuliaCompanion (formula : Text)
  /-- The file cannot be written. -/
  | notWritten (cause : String)
  deriving DecidableEq, Repr

namespace Failure

/-- What went wrong, in a sentence. -/
def message : Failure → String
  | formula e => e.message
  | window e => e.message
  | argument what text => s!"Could not parse the {what}: '{String.ofList text}'"
  | unknownFractal name => s!"No built-in fractal is called '{String.ofList name}'."
  | noJuliaCompanion text =>
    s!"'{String.ofList text}' does not end in +c, so it has no Julia set."
  | notWritten cause => s!"Could not write the image: {cause}"

/-- The report to the user. -/
def report : Failure → String
  | formula e => e.report
  | failure => "Render failure: " ++ failure.message

end Failure

/-! ## What is to be drawn -/

namespace Arguments

variable (a : Arguments)

/-- The value of an option, read in some way. -/
def parsed {α : Type} (read? : Text → Option α) (o : Opt) (what : String) : Except Failure α :=
  let text := (a.value? o).getD []
  match read? text with
  | some x => .ok x
  | none => .error (.argument what text)

/-- The real number that an option gives. -/
def float? (o : Opt) : Option Float := (a.value? o).bind Numeral.float?

/-- The formula to draw, or the Julia companion of it. -/
def formulaText : Except Failure Text := do
  let formula ←
    match a.value? .formula with
    | some formula => pure formula
    | none =>
      let name := (a.value? .fractal).getD Fractal.mandelbrot.name.toList
      match Fractal.named? name with
      | some f => pure f.formula.toList
      | none => throw (.unknownFractal name)
  if a.has .julia then
    match juliaCompanion? formula with
    | some companion => return companion
    | none => throw (.noJuliaCompanion formula)
  return formula

/-- The window to draw. -/
def window : Except Failure Window := do
  let bottomLeft ← a.parsed Point.read? .leftLower "left lower corner"
  let topRight ← a.parsed Point.read? .rightUpper "right upper corner"
  let window := Window.ofCorners bottomLeft topRight
  let window := if a.has .invertReal then window.mirrorReal else window
  return if a.has .invertImag then window.mirrorImag else window

/-- The stopping rule, with the measures that are given in place of the usual ones. -/
def rule : StopRule :=
  match ((a.value? .trap).bind StopRule.named?).getD .escape with
  | .escape => .escape
  | .circle radius gradient =>
    .circle ((a.float? .radius).getD radius) ((a.float? .gradient).getD gradient)
  | .axes thickness => .axes ((a.float? .thickness).getD thickness)
  | .diagonals thickness => .diagonals ((a.float? .thickness).getD thickness)

/-- How sequences are followed. -/
def settings : Settings where
  cap := (((a.value? .iterations).bind (Numeral.naturalBelow? UInt64.size)).getD 100).toUInt64
  selected := (a.value? .point).bind Point.read?
  rule := a.rule

/-- The picture, in which the selected point is marked. -/
def picture : Except Failure Image := do
  let formula ← a.formulaText
  let r ← (Recurrence.read formula).mapError .formula
  let (width, height) ← a.parsed Opt.readSize? .size "image size"
  let window ← a.window
  let plane ← (Plane.make width.toUInt64 height.toUInt64 window).mapError .window
  let settings := a.settings
  let (image, _) := r.render settings plane (fun _ ↦ false) (.filled width height .black)
  match settings.selected with
  | some z => return (image.mark? plane z .pureRed).getD image
  | none => return image

/-- The file to write. -/
def path : Text := (a.value? .output).getD "fractal.ppm".toList

end Arguments

/-! ## What is said and done -/

/-- Text for the user, and the code that the program ends with. -/
structure Answer where
  /-- What is said. -/
  output : String := ""
  /-- What is said about a failure. -/
  errors : String := ""
  /-- Zero if all went well. -/
  code : UInt8 := 0
  deriving DecidableEq, Repr

namespace Answer

/-- The answer to a failure. -/
def ofFailure (failure : Failure) : Answer := { errors := failure.report ++ "\n", code := 1 }

/-- The line that names the program and its version. -/
def version : String := "fractal 0.1.0\n"

/-- A summary of the options. -/
def help : String :=
  version ++ String.join (Opt.all.map fun o ↦ "    " ++ o.shown ++ "\n")

/-- The answer to arguments that ask for no picture. -/
def ofStop : Stop → Answer
  | .version => { output := version }
  | .help => { output := help }
  | stop => { errors := "error: " ++ complaint stop ++ "\n", code := 1 }
where
  /-- What is wrong with the arguments. -/
  complaint : Stop → String
    | .unexpected argument =>
      s!"Found argument '{String.ofList argument}' which wasn't expected, " ++
        "or isn't valid in this context"
    | .outputMissing =>
      s!"The following required arguments were not provided:\n    {Opt.output.shown}"
    | .noValue o => s!"The argument '{o.shown}' requires a value but none was supplied"
    | .conflict o other => s!"The argument '{o.shown}' cannot be used with '{other.shown}'"
    | .notOffered o value =>
      s!"'{String.ofList value}' isn't a valid value for '{o.shown}'\n\t[possible values: " ++
        ", ".intercalate Opt.trapNames ++ "]"
    | .invalid o complaint => s!"Invalid value for '{o.shown}': {complaint}"
    | .repeated o =>
      s!"The argument '{o.shown}' was provided more than once, " ++
        "but cannot be used multiple times"
    | .version | .help => ""

end Answer

/-- What a session comes to. -/
inductive Session where
  /-- There is only something to say. -/
  | say (answer : Answer)
  /-- There is an image to write. -/
  | write (path : Text) (image : Image)

namespace Session

/-- The session for a list of arguments. -/
def ofArguments (arguments : List Text) : Session :=
  match Arguments.read arguments with
  | .error stop => .say (.ofStop stop)
  | .ok a =>
    match a.picture with
    | .error failure => .say (.ofFailure failure)
    | .ok image => .write a.path image

/-- The answer after an image was written, or after that failed for some cause. -/
def answer : Option String → Answer
  | none => {}
  | some cause => .ofFailure (.notWritten cause)

end Session

end OrbitPlot
