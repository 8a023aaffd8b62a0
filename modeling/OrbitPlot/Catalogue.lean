import OrbitPlot.Formula.Token
import OrbitPlot.Text.Alphanumeric

/-!
# Known fractals

A few formulas have names, so that nobody has to type them. Names are compared without regard to
case, blanks and punctuation.

A formula that ends by adding the current point has a Julia companion, which adds the selected
point instead: where the former asks how the sequences of different rules behave, the latter asks
how different sequences of one rule do.
-/

namespace OrbitPlot

/-- A formula with a name. -/
structure Fractal where
  /-- The name, as it is shown. -/
  name : String
  /-- The formula. -/
  formula : String
  deriving DecidableEq, Repr

namespace Fractal

/-- The set of points whose sequence of squares and sums stays near the origin. -/
def mandelbrot : Fractal := ⟨"Mandelbrot", "c;p*p+c"⟩

/-- The same, after each term has been folded into the first quadrant. -/
def burningShip : Fractal := ⟨"Burning Ship", "c;[arp,aip]*[arp,aip]+c"⟩

/-- The same, with the folded term also taken away from its square. -/
def buffalo : Fractal := ⟨"Buffalo", "c;[arp,aip]*[arp,aip]-[arp,aip]+c"⟩

/-- All fractals with names. -/
def all : List Fractal := [mandelbrot, burningShip, buffalo]

/-- The small form of a character. Names are spelled in ASCII, so it only matters which characters
have a small form in ASCII: the capitals, and the sign for the unit of temperature. -/
def small (c : Char) : Char := if c = '\u212a' then 'k' else c.toLower

/-- What of a name counts in comparisons. -/
def key (name : Text) : Text := (name.filter Text.isAlphanumeric).map small

/-- The fractal with a name. -/
def named? (name : Text) : Option Fractal := all.find? fun f ↦ key f.name.toList = key name

end Fractal

/-- The formula of the Julia companion, for a formula whose rule ends by adding the current
point. -/
def juliaCompanion? (formula : Text) : Option Text :=
  match Token.splitTerms formula with
  | .ok (_, rule) =>
    (Text.dropEnding "+c".toList rule).map fun body ↦ "c;".toList ++ body ++ "+u".toList
  | .error _ => none

end OrbitPlot
