import OrbitPlot.CommandLine.Session
import OrbitPlot.Picture.Pixmap

/-!
# The program

Reads the arguments, writes the image that they ask for, and says what there is to say. All
decisions are made in `Session`.
-/

namespace OrbitPlot

/-- The cause of a failed attempt to write a file, with its number where the system gives one. -/
def writeCause : IO.Error → String
  | .noFileOrDirectory _ code details | .permissionDenied (some _) code details
  | .inappropriateType (some _) code details | .resourceExhausted (some _) code details
  | .inappropriateType none code details | .permissionDenied none code details
  | .resourceExhausted none code details | .otherError code details
  | .invalidArgument none code details | .invalidArgument (some _) code details =>
    s!"{details} (os error {code})"
  | e => toString e

/-- Carries a session out. -/
def Session.run : Session → IO Answer
  | .say answer => return answer
  | .write path image => do
    try
      IO.FS.writeBinFile (String.ofList path) image.toPixmap
      return Session.answer none
    catch e => return Session.answer (some (writeCause e))

end OrbitPlot

open OrbitPlot in
/-- Draws the picture that the arguments describe. -/
def main (arguments : List String) : IO UInt32 := do
  let answer ← (Session.ofArguments (arguments.map String.toList)).run
  IO.print answer.output
  IO.eprint answer.errors
  return answer.code.toUInt32
