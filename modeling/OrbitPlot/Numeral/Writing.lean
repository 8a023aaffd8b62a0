import OrbitPlot.Numeral.Decimal
import OrbitPlot.Text.Basic

/-!
# Writing real numbers

A number is written with the fewest digits that read back to it. The digits are found on decimal
grids: the points of the grid `10 ^ exponent` are its multiples, and a coarser grid means fewer
digits. If any point of a grid reads back to the number, then so does one of the number's two
neighbours on that grid, because the numbers that read back to it form an interval. So the first
grid, from coarse to fine, that has a neighbour reading back gives the shortest spelling.

## Main statement

`Decimal.toFloat_of_onGrid`: what is found on a grid reads back to the number it was found for.
-/

namespace OrbitPlot

/-! ## The shortest decimal -/

namespace Decimal

/-- The two neighbours of `b` on the grid `10 ^ exponent`, the nearer one first; of two that are
equally near, the larger. -/
def neighbours (b : Binary) (exponent : Int) : List Decimal :=
  let above := b.mantissa * Nat.pow 2 b.exponent.toNat * Nat.pow 10 (-exponent).toNat
  let below := Nat.pow 2 (-b.exponent).toNat * Nat.pow 10 exponent.toNat
  let floor := above / below
  if 2 * (above % below) < below then [⟨floor, exponent⟩, ⟨floor + 1, exponent⟩]
  else [⟨floor + 1, exponent⟩, ⟨floor, exponent⟩]

/-- The point of a grid that spells `x`, if the grid has one. -/
def onGrid? (x : Float) (exponent : Int) : Option Decimal :=
  (neighbours (.ofFloat x) exponent).find? fun d ↦ decide (d.toFloat = x)

/-- A grid too coarse for `b`: `b` is below `2 ^ n` for this `n`, and `30103 / 100000` is a little
more than the logarithm of two. -/
def coarsest (b : Binary) : Int :=
  Int.fdiv ((b.mantissa.log2 + 1 + b.exponent) * 30103) 100000 + 1

/-- The shortest decimal that reads back to the positive finite number `x`, and of several the
nearest. Seventeen digits are always enough, and the search allows for two grids too coarse. -/
def shortest (x : Float) : Decimal :=
  let start := coarsest (.ofFloat x)
  ((List.range 21).findSome? fun i : Nat ↦ onGrid? x (start - i)).getD (Binary.ofFloat x).toDecimal

theorem toFloat_of_onGrid {x : Float} {exponent : Int} {d : Decimal}
    (h : onGrid? x exponent = some d) : d.toFloat = x := by
  simpa using List.find?_some h

end Decimal

/-! ## Laying the digits out -/

namespace Numeral

/-- How digits and point are arranged. -/
structure Layout where
  /-- The least place before the point, negative behind it, that a number written out in full may
  start at. -/
  lowest : Int
  /-- The greatest such place. -/
  highest : Int
  /-- How many digits follow the point at least, in a number written out in full. -/
  decimals : Nat

/-- Numbers of a formula are written out in full from `0.0001` up to sixteen places before the
point, with at least one digit behind it; others as one digit, a fraction, and an exponent. -/
def plain : Layout := ⟨-3, 16, 1⟩

/-- The digits of a whole number without its trailing zeros, and how many of those there were. -/
def significant (n : Nat) : Text × Nat :=
  let digits := (Nat.toDigits 10 n).reverse
  ((digits.dropWhile (· = '0')).reverse, (digits.takeWhile (· = '0')).length)

/-- The text of a whole number with a sign if it is negative. -/
def ofInt : Int → Text
  | .ofNat n => Nat.toDigits 10 n
  | .negSucc n => '-' :: Nat.toDigits 10 (n + 1)

/-- The value `0.digits * 10 ^ place`, written with an exponent. -/
def scientific (digits : Text) (place : Int) : Text :=
  let fraction := digits.drop 1
  digits.take 1 ++ (if fraction.isEmpty then [] else '.' :: fraction) ++ 'e' :: ofInt (place - 1)

namespace Layout

variable (l : Layout)

/-- Digits and zeros behind the point, as many as the layout asks for. -/
def fraction (digits : Text) : Text := digits ++ List.replicate (l.decimals - digits.length) '0'

/-- The value `0.digits * 10 ^ place`, written out in full. -/
def full (digits : Text) (place : Int) : Text :=
  if place ≤ 0 then
    '0' :: '.' :: l.fraction (List.replicate (-place).toNat '0' ++ digits)
  else
    digits.take place.toNat ++ List.replicate (place.toNat - digits.length) '0' ++
      '.' :: l.fraction (digits.drop place.toNat)

/-- The text of a decimal. -/
def decimal (d : Decimal) : Text :=
  let (digits, zeros) := significant d.digits
  let place := digits.length + (zeros + d.exponent)
  if l.lowest ≤ place ∧ place ≤ l.highest then l.full digits place
  else scientific digits place

/-- The text of a number that is not negative. -/
def magnitude (x : Float) : Text :=
  if x.isInf then "inf".toList
  else if x == 0 then l.full [] 1
  else l.decimal (.shortest x)

/-- The text of a number. A negative zero shows its sign. -/
def float (x : Float) : Text :=
  if x.isNaN then "NaN".toList
  else if x.toBits = x.abs.toBits then l.magnitude x
  else '-' :: l.magnitude x.abs

end Layout

end Numeral

end OrbitPlot
