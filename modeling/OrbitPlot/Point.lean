import OrbitPlot.Numeral.Reading

/-!
# Points of the complex plane

The values that sequences run through: complex numbers whose parts are doubles. Sums, differences
and products are the textbook ones, each operation rounded on its own, so that a sequence takes the
same values wherever it is computed.
-/

namespace OrbitPlot

/-- A complex number. -/
structure Point where
  /-- The real part. -/
  re : Float
  /-- The imaginary part. -/
  im : Float
  deriving DecidableEq, Inhabited, Repr

namespace Point

/-- The origin. -/
def zero : Point := ⟨0, 0⟩

/-! ## Arithmetic -/

instance : Add Point := ⟨fun z w ↦ ⟨z.re + w.re, z.im + w.im⟩⟩

instance : Sub Point := ⟨fun z w ↦ ⟨z.re - w.re, z.im - w.im⟩⟩

instance : Mul Point := ⟨fun z w ↦ ⟨z.re * w.re - z.im * w.im, z.re * w.im + z.im * w.re⟩⟩

/-- Equality of the parts as numbers: the two zeros agree, and nothing agrees with not-a-number. -/
def agrees (z w : Point) : Bool := z.re == w.re && z.im == w.im

/-! ## Distance from the origin -/

/-- The square of the modulus. -/
def normSq (z : Point) : Float := z.re * z.re + z.im * z.im

/-- The hypotenuse of a right triangle with legs `long` and `short`, where neither square
overflows or underflows. The root of the rounded sum of squares is corrected by one Newton step,
whose residual is arranged so that little of it cancels. -/
def hypotenuse (long short : Float) : Float :=
  let root := (long * long + short * short).sqrt
  let residual :=
    if root ≤ 2 * short then
      let excess := root - short
      long * (2 * excess - long) + (excess - 2 * (long - short)) * excess
    else
      let excess := root - long
      2 * excess * (long - 2 * short) + ((4 * excess - short) * short + excess * excess)
  root - residual / (2 * root)

/-- The greatest power of two whose square stays well within range. -/
def longLimit : Float := Float.ofNat (Nat.pow 2 511)

/-- The least power of two whose square keeps all its bits. -/
def shortLimit : Float := 1 / Float.ofNat (Nat.pow 2 459)

/-- The factor that brings legs beyond the limits back between them. -/
def rescale : Float := Float.ofNat (Nat.pow 2 600)

/-- A leg this many times shorter than the other no longer shows in the hypotenuse. -/
def negligible : Float := 1 / Float.ofNat (Nat.pow 2 54)

/-- The modulus. It is infinite as soon as one part is, even if the other is not a number. A leg
that is lost against the other leaves the longer one; very long and very short legs are scaled, so
that their squares stay in range. -/
def modulus (z : Point) : Float :=
  let x := z.re.abs
  let y := z.im.abs
  if x.isInf || y.isInf then 1 / 0
  else
    let long := if x < y then y else x
    let short := if x < y then x else y
    if short ≤ long * negligible then long + short
    else if longLimit < long then hypotenuse (long / rescale) (short / rescale) * rescale
    else if short < shortLimit then hypotenuse (long * rescale) (short * rescale) / rescale
    else hypotenuse long short

end Point

/-- A point written as its two parts with a comma between them. -/
def Point.read? (text : Text) : Option Point :=
  (Numeral.pair? Numeral.float? ',' text).map fun (re, im) ↦ ⟨re, im⟩

end OrbitPlot
