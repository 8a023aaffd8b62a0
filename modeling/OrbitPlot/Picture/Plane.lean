import OrbitPlot.Point

/-!
# The plane behind a picture

A window is the part of the complex plane on show, given by the values at its four edges; an axis
is turned round by exchanging two of them. A plane lays a grid of pixels over a window. Pixels are
counted from the top left corner, and each stands for the point at its own top left corner.

Coordinates and sizes are words of 64 bits.
-/

namespace OrbitPlot

/-! ## Windows -/

/-- The values at the edges of a picture. -/
structure Window where
  /-- The real part at the left edge. -/
  left : Float
  /-- The real part at the right edge. -/
  right : Float
  /-- The imaginary part at the lower edge. -/
  bottom : Float
  /-- The imaginary part at the upper edge. -/
  top : Float
  deriving DecidableEq, Repr

/-- Why a window cannot be drawn. -/
inductive WindowError where
  /-- An edge is infinite or not a number. -/
  | notFinite
  /-- There is no width. -/
  | noWidth
  /-- There is no height. -/
  | noHeight
  /-- The picture has no pixels. -/
  | noPixels (width height : UInt64)
  deriving DecidableEq, Repr

/-- What is wrong with a window, in a sentence. -/
def WindowError.message (e : WindowError) : String :=
  "Cannot use these bounds to display a set: " ++
    match e with
    | notFinite => "every edge must be a finite number"
    | noWidth => "the left and right edges are the same"
    | noHeight => "the top and bottom edges are the same"
    | noPixels width height => s!"cannot draw on a {width}x{height} image"

namespace Window

/-- The window shown unless another is asked for. -/
def usual : Window := ⟨-2.5, 1.5, -1.6, 1.6⟩

/-- The window between the point at the bottom left and the point at the top right. -/
def ofCorners (bottomLeft topRight : Point) : Window :=
  ⟨bottomLeft.re, topRight.re, bottomLeft.im, topRight.im⟩

/-- Turns the real axis round. -/
def mirrorReal (w : Window) : Window := { w with left := w.right, right := w.left }

/-- Turns the imaginary axis round. -/
def mirrorImag (w : Window) : Window := { w with bottom := w.top, top := w.bottom }

/-- Whether real parts grow to the left. -/
def realMirrored (w : Window) : Bool := w.right < w.left

/-- Whether imaginary parts grow downwards. -/
def imagMirrored (w : Window) : Bool := w.top < w.bottom

/-- The window itself, if its edges are finite and opposite ones differ. -/
def check (w : Window) : Except WindowError Unit :=
  if !(w.left.isFinite && w.right.isFinite && w.bottom.isFinite && w.top.isFinite) then
    .error .notFinite
  else if w.left == w.right then .error .noWidth
  else if w.bottom == w.top then .error .noHeight
  else .ok ()

@[simp] theorem mirrorReal_mirrorReal (w : Window) : w.mirrorReal.mirrorReal = w := rfl

@[simp] theorem mirrorImag_mirrorImag (w : Window) : w.mirrorImag.mirrorImag = w := rfl

end Window

/-! ## Planes -/

/-- A place in a picture, counted from the top left. -/
structure Pixel where
  /-- The column. -/
  x : UInt64
  /-- The row. -/
  y : UInt64
  deriving DecidableEq, Repr

/-- A window with a grid of pixels over it. -/
structure Plane where
  /-- How many columns there are. -/
  width : UInt64
  /-- How many rows there are. -/
  height : UInt64
  /-- The window behind the grid. -/
  window : Window
  /-- How much the real part grows from one column to the next. -/
  stepX : Float
  /-- How much the imaginary part grows from one row to the next. -/
  stepY : Float
  deriving DecidableEq, Repr

namespace Plane

/-- The grid with the given size over a window. -/
def make (width height : UInt64) (window : Window) : Except WindowError Plane := do
  window.check
  if width = 0 || height = 0 then throw (.noPixels width height)
  let stepX := (window.right - window.left) / width.toFloat
  let stepY := (window.bottom - window.top) / height.toFloat
  return { width, height, window, stepX, stepY }

/-- The point that a pixel stands for. -/
def point (p : Plane) (q : Pixel) : Point :=
  ⟨p.window.left + q.x.toFloat * p.stepX, p.window.top + q.y.toFloat * p.stepY⟩

/-- The pixel that a point falls on, unless it lies beyond one of the edges. -/
def pixel? (p : Plane) (z : Point) : Option Pixel :=
  let across := (z.re - p.window.left) / p.stepX
  let down := (z.im - p.window.top) / p.stepY
  if across < 0 || p.width.toFloat ≤ across || down < 0 || p.height.toFloat ≤ down then none
  else some ⟨across.toUInt64, down.toUInt64⟩

/-- All pixels, row by row from the top. -/
def pixels (p : Plane) : List Pixel :=
  (List.range p.height.toNat).flatMap fun row ↦
    (List.range p.width.toNat).map fun column ↦ ⟨column.toUInt64, row.toUInt64⟩

end Plane

end OrbitPlot
