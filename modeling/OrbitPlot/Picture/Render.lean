import OrbitPlot.Picture.Image
import OrbitPlot.Recurrence.Orbit

/-!
# Drawing recurrences

A picture is drawn row by row from the top, each pixel in the color of the point it stands for.
Pixels whose points have no orbit keep the color they had. Before every row the caller may stop the
drawing; what is finished by then stays.
-/

namespace OrbitPlot

/-- How a drawing ended. -/
inductive Outcome where
  /-- Every row was drawn. -/
  | complete
  /-- The drawing was stopped before the row with this number. -/
  | stopped (rows : Nat)
  deriving DecidableEq, Repr

/-- An unfinished drawing: the image and the machine that works on it. -/
abbrev Drawing := Image × Machine

namespace Recurrence

variable (r : Recurrence) (s : Settings) (plane : Plane)

/-- Draws one pixel. -/
def drawPixel (row : Nat) (d : Drawing) (column : Nat) : Drawing :=
  let (color?, machine) := r.color s (plane.point ⟨column.toUInt64, row.toUInt64⟩) d.2
  match color? with
  | some color => (d.1.paint column row color, machine)
  | none => (d.1, machine)

/-- Draws the first `width` pixels of a row. -/
def drawRow (width row : Nat) (d : Drawing) : Drawing :=
  (List.range width).foldl (r.drawPixel s plane row) d

/-- Draws rows one after another, unless the caller has stopped the drawing. -/
def drawRows (stopped : Nat → Bool) (width : Nat) : List Nat → Drawing → Image × Outcome
  | [], d => (d.1, .complete)
  | row :: rows, d =>
    if stopped row then (d.1, .stopped row)
    else drawRows stopped width rows (r.drawRow s plane width row d)

/-- Draws as much of the plane as fits into the image. -/
def render (stopped : Nat → Bool) (image : Image) : Image × Outcome :=
  r.drawRows s plane stopped (min plane.width.toNat image.width)
    (List.range (min plane.height.toNat image.height)) (image, {})

/-- The orbits of some points, all followed on one machine. -/
def orbitsOf : List Point → Machine → List (Option Orbit)
  | [], _ => []
  | z :: points, m =>
    let (o, m) := r.orbit s z m
    o :: orbitsOf points m

/-- The orbit of every pixel, row by row from the top. -/
def orbits : List (Option Orbit) := r.orbitsOf s (plane.pixels.map plane.point) {}

end Recurrence

end OrbitPlot
