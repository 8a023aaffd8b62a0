/-!
# Decimal numbers and floating-point numbers

A finite double is `mantissa * 2 ^ exponent`; a decimal number is `digits * 10 ^ exponent`. This
file goes from each to the other: `Decimal.toFloat` rounds to the nearest double, and
`Binary.ofFloat` takes a double apart without rounding.

The sign is kept apart on both sides, since a double has two zeros.
-/

namespace OrbitPlot

/-! ## Decimals -/

/-- The number `digits * 10 ^ exponent`. -/
structure Decimal where
  /-- The digits, read as one whole number. -/
  digits : Nat
  /-- Where the point stands, counted from the last digit. -/
  exponent : Int
  deriving DecidableEq, Repr

/-- The double nearest to a decimal, the one with an even mantissa if two are equally near. -/
def Decimal.toFloat (d : Decimal) : Float :=
  match d.exponent with
  | .ofNat e => Float.ofScientific d.digits false e
  | .negSucc e => Float.ofScientific d.digits true (e + 1)

/-! ## Doubles -/

/-- The number `mantissa * 2 ^ exponent`. -/
structure Binary where
  /-- The mantissa, a whole number. -/
  mantissa : Nat
  /-- The weight of its last bit. -/
  exponent : Int
  deriving DecidableEq, Repr

/-- The weight of the leading one of a mantissa, which is not stored: 52 bits follow it. -/
def Binary.leadingOne : Nat := 0x10000000000000

/-- How many exponents can be stored, in 11 bits. -/
def Binary.exponents : Nat := 0x800

/-- The magnitude of a finite double. A stored exponent of zero marks a subnormal, whose mantissa
has no leading one. -/
def Binary.ofFloat (x : Float) : Binary :=
  let bits := x.toBits.toNat
  let fraction := bits % leadingOne
  let stored := bits / leadingOne % exponents
  if stored = 0 then ⟨fraction, -1074⟩ else ⟨fraction + leadingOne, Int.ofNat stored - 1075⟩

/-- The decimal that equals a binary number. One always exists, since two divides ten. -/
def Binary.toDecimal (b : Binary) : Decimal :=
  match b.exponent with
  | .ofNat e => ⟨b.mantissa * Nat.pow 2 e, 0⟩
  | .negSucc e => ⟨b.mantissa * Nat.pow 5 (e + 1), .negSucc e⟩

end OrbitPlot
