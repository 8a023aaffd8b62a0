import OrbitPlot.Text.Basic
import OrbitPlot.Numeral.Decimal

/-!
# Reading numbers

What a text has to look like to be a number, and which number it then is. Whole numbers are digits
with an optional sign; real numbers may have a point, an exponent, and the names of the infinities
and of not-a-number in any case. Nothing else is let through: no blanks, no digit separators.
-/

namespace OrbitPlot

namespace Numeral

/-! ## Whole numbers -/

/-- The value of a run of digits, most significant first. -/
def digitsValue (digits : Text) : Nat :=
  digits.foldl (fun value c ↦ 10 * value + (c.toNat - '0'.toNat)) 0

/-- A nonempty run of digits and nothing else. -/
def digits? (text : Text) : Option Nat :=
  if text.isEmpty || !text.all Char.isDigit then none else some (digitsValue text)

/-- A whole number that cannot be negative: even `-0` is refused. -/
def natural? : Text → Option Nat
  | '+' :: text => digits? text
  | text => digits? text

/-- A whole number with an optional sign. -/
def integer? : Text → Option Int
  | '-' :: text => (digits? text).map fun n ↦ -(n : Int)
  | text => (natural? text).map Int.ofNat

/-- A whole number below `bound`. -/
def naturalBelow? (bound : Nat) (text : Text) : Option Nat :=
  (natural? text).filter (· < bound)

/-- A whole number that fits into a word of 32 bits with a sign. -/
def integer32? (text : Text) : Option Int :=
  (integer? text).filter fun n ↦ -0x80000000 ≤ n && n < 0x80000000

/-! ## Real numbers -/

/-- The exponent that ends a numeral: nothing, or `e` and a whole number. -/
def exponent? : Text → Option Int
  | [] => some 0
  | c :: rest => if c = 'e' ∨ c = 'E' then integer? rest else none

/-- A numeral without a sign: digits with at most one point among them, at least one digit, and an
optional exponent. -/
def decimal? (text : Text) : Option Decimal :=
  let whole := text.takeWhile Char.isDigit
  let (fraction, rest) : Text × Text :=
    match text.dropWhile Char.isDigit with
    | '.' :: rest => (rest.takeWhile Char.isDigit, rest.dropWhile Char.isDigit)
    | rest => ([], rest)
  if whole.isEmpty && fraction.isEmpty then none
  else (exponent? rest).map fun e ↦ ⟨digitsValue (whole ++ fraction), e - fraction.length⟩

/-- A real number without a sign: a numeral or one of the three names. -/
def magnitude? (text : Text) : Option Float :=
  match String.ofList (text.map Char.toLower) with
  | "inf" | "infinity" => some (1 / 0)
  | "nan" => some (0 / 0)
  | _ => (decimal? text).map Decimal.toFloat

/-- A real number with an optional sign. -/
def float? : Text → Option Float
  | '-' :: text => (magnitude? text).map Float.neg
  | '+' :: text => magnitude? text
  | text => magnitude? text

/-! ## Pairs -/

/-- Two values with a separator between them. The first separator counts; a further one has to be
part of the second value. -/
def pair? {α : Type} (read? : Text → Option α) (separator : Char) (text : Text) :
    Option (α × α) := do
  let (left, right) ← text.cut separator
  return (← read? left, ← read? right)

end Numeral

end OrbitPlot
