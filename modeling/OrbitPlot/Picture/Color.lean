/-!
# Colors

A color has three channels of eight bits. Shades are computed as fractions of full brightness;
`Color.level` makes a channel of one.
-/

namespace OrbitPlot

/-- A color. -/
structure Color where
  /-- The red channel. -/
  red : UInt8
  /-- The green channel. -/
  green : UInt8
  /-- The blue channel. -/
  blue : UInt8
  deriving DecidableEq, Inhabited, Repr

namespace Color

/-- A color without hue. -/
def gray (level : UInt8) : Color := ⟨level, level, level⟩

/-- No light at all. -/
def black : Color := gray 0

/-- All channels full. -/
def white : Color := gray 255

/-- Only the red channel. -/
def pureRed : Color := ⟨255, 0, 0⟩

/-- Only the blue channel. -/
def pureBlue : Color := ⟨0, 0, 255⟩

/-- The nearest whole number to `x`, which lies between 0 and 255; a half counts as more. The
difference to the part before the point is exact, so nothing is rounded twice. -/
def nearest (x : Float) : UInt8 :=
  let whole := x.toUInt8
  if 0.5 ≤ x - whole.toFloat then whole + 1 else whole

/-- The channel for a fraction of full brightness. Fractions below zero count as zero, as does what
is not a number, and those above one as one. -/
def level (fraction : Float) : UInt8 :=
  nearest ((if 0 < fraction then if fraction < 1 then fraction else 1 else 0) * 255)

end Color

end OrbitPlot
