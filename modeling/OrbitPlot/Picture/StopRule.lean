import OrbitPlot.Picture.Color
import OrbitPlot.Point

/-!
# Stopping rules

A sequence is followed until a stopping rule ends it, and the point it belongs to is then colored
by the same rule. The plain rule stops when a sequence has plainly escaped to infinity, and colors
by how long that took. The traps stop when a sequence comes near some figure, and color by how near
it came.

A sequence that is followed to the end of its allowance, one step more than the cap, was never
stopped and has a color of its own.
-/

namespace OrbitPlot

/-- When a sequence is stopped. -/
inductive StopRule where
  /-- When it is two away from the origin. -/
  | escape
  /-- When it is no farther than `radius` from the origin. The color fades `gradient` times as fast
  as the distance grows. -/
  | circle (radius gradient : Float)
  /-- When it is no farther than `thickness` from one of the axes. -/
  | axes (thickness : Float)
  /-- When its parts differ in magnitude by no more than `thickness`. -/
  | diagonals (thickness : Float)
  deriving DecidableEq, Repr

namespace StopRule

/-! ## The rules with their usual measures -/

/-- The usual circle. -/
def usualCircle : StopRule := circle 0.25 4

/-- The usual pair of axes. -/
def usualAxes : StopRule := axes 0.05

/-- The usual pair of diagonals. -/
def usualDiagonals : StopRule := diagonals 0.05

/-- The rule with a given name, in upper or lower case. -/
def named? (name : Text) : Option StopRule :=
  match String.ofList (name.map Char.toLower) with
  | "default" => some escape
  | "circle" => some usualCircle
  | "axis" | "axis-cross" => some usualAxes
  | "diagonal" | "diagonal-cross" => some usualDiagonals
  | _ => none

/-- What to say of a name that no rule has. -/
def unknownMessage (name : Text) : String := s!"Unknown orbit trap '{String.ofList name}'"

/-! ## Stopping -/

/-- By how much the parts of a point differ in magnitude. -/
def diagonalDistance (z : Point) : Float := (z.re.abs - z.im.abs).abs

/-- Whether a sequence is stopped at a point. -/
def stops : StopRule → Point → Bool
  | escape, z => 4 ≤ z.normSq
  | circle radius _, z => z.modulus ≤ radius
  | axes thickness, z => z.re.abs ≤ thickness || z.im.abs ≤ thickness
  | diagonals thickness, z => diagonalDistance z ≤ thickness

/-! ## Colors -/

/-- The shade of a sequence that escaped after `count` steps: white at once, and darker by the
third of the cap. -/
def escapeShade (count cap : UInt64) : Color :=
  let n := count.toFloat
  let most := cap.toFloat
  if count = 0 then .white
  else if n < most / 3 then .gray 192
  else if n < most * 2 / 3 then .gray 128
  else .gray 64

/-- The smaller of two numbers, or the one that is a number. -/
def smaller (x y : Float) : Float := if x.isNaN then y else if y < x then y else x

/-- The color of a point whose sequence ended at `z` after `count` steps. -/
def color (rule : StopRule) (z : Point) (count cap : UInt64) : Color :=
  if cap < count then
    match rule with
    | escape | circle _ _ => .black
    | axes _ => .white
    | diagonals _ => .pureBlue
  else
    match rule with
    | escape => escapeShade count cap
    | circle _ gradient =>
      let shade := Color.level (1 - smaller (gradient * z.modulus) 1)
      ⟨shade, 255, shade⟩
    | axes thickness =>
      let fade := Color.level (smaller z.re.abs z.im.abs / thickness)
      ⟨255, fade, fade⟩
    | diagonals thickness =>
      let fade := Color.level (1 - diagonalDistance z / thickness)
      ⟨fade, fade, 255⟩

end StopRule

end OrbitPlot
