import PathAlgebra.Text.Basic

/-!
# Shortest decimals

The shortest decimal that reads back as a given binary number, and its text. A finite binary
number is a mantissa times a power of two; the numbers that round to it fill an interval around
it, whose ends belong to it when the mantissa is even. For one digit, two digits and so on, the
two neighbours of the number on the grid of that many digits are tried, and the first one in the
interval is the answer, the nearer one when both are, and the even one
of two equally near ones.
-/

set_option autoImplicit false

namespace PathAlgebra

/-- A natural number times a power of ten. -/
structure Decimal where
  digits : Nat
  exponent : Int
  deriving DecidableEq

/-- A natural number times a power of two. The gap to the next smaller number is half as wide
as the gap above when `narrowBelow` holds. -/
structure Binary where
  mantissa : Nat
  exponent : Int
  narrowBelow : Bool
  deriving DecidableEq

/-- How a decimal is written: the exponents of the leading digit for which it is written without
an exponent, the mark of an exponent, and its least number of digits. -/
structure DecimalFormat where
  leastPositional : Int
  greatestPositional : Int
  mark : Char
  exponentWidth : Nat

namespace Binary

/-- The mantissa and the exponent of the magnitude of a finite floating-point number. -/
def ofFloat (x : Float) : Binary :=
  let bits : Nat := x.toBits.toNat
  let fraction : Nat := bits % Nat.pow 2 52
  let field : Nat := bits / Nat.pow 2 52 % Nat.pow 2 11
  if field = 0 then ⟨fraction, -1074, false⟩
  else ⟨Nat.pow 2 52 + fraction, (field : Int) - 1075, fraction == 0 && field != 1⟩

/-- The factors above and below the line of `base` to the power `e`. -/
def powerRatio (base : Nat) (e : Int) : Nat × Nat := (Nat.pow base e.toNat, Nat.pow base (-e).toNat)

/-- Four times the number over the denominator `scale`: the numerator of the number, of the lower
and of the upper end of its interval. -/
def numerators (b : Binary) : Nat × Nat × Nat :=
  let unit := (powerRatio 2 (b.exponent - 2)).1
  let middle := 4 * b.mantissa
  (middle * unit, (middle - if b.narrowBelow then 1 else 2) * unit, (middle + 2) * unit)

/-- The denominator of `numerators`. -/
def scale (b : Binary) : Nat := (powerRatio 2 (b.exponent - 2)).2

/-- Whether a decimal lies in the interval of numbers that round to the binary number. -/
def rounds (b : Binary) (x : Decimal) : Bool :=
  let (above, below) := powerRatio 10 x.exponent
  let (_, low, high) := b.numerators
  let value := x.digits * above * b.scale
  if b.mantissa % 2 = 0 then low * below ≤ value && value ≤ high * below
  else low * below < value && value < high * below

/-- The largest multiple of a power of ten that is not above the number. -/
def floorAt (b : Binary) (e : Int) : Nat :=
  let (above, below) := powerRatio 10 e
  b.numerators.1 * below / (b.scale * above)

/-- Whether the number is nearer to `n + 1` than to `n` in units of a power of ten; halfway, the
even one counts as nearer. -/
def nearerAbove (b : Binary) (n : Nat) (e : Int) : Bool :=
  let (above, below) := powerRatio 10 e
  let halfway := (2 * n + 1) * above * b.scale
  let number := 2 * b.numerators.1 * below
  halfway < number || (halfway == number && n % 2 == 1)

/-- The power of ten of the leading digit: a bound from above is lowered until the number reaches
it. -/
def leadingExponent (b : Binary) : Nat → Int → Int
  | 0, e => e
  | n + 1, e => if b.floorAt e = 0 then b.leadingExponent n (e - 1) else e

/-- The neighbour of the number on the grid of a power of ten that rounds to it, if there is
one. -/
def neighbour? (b : Binary) (e : Int) : Option Decimal :=
  let n := b.floorAt e
  match b.rounds ⟨n, e⟩, b.rounds ⟨n + 1, e⟩ with
  | true, false => some ⟨n, e⟩
  | false, true => some ⟨n + 1, e⟩
  | true, true => some (if b.nearerAbove n e then ⟨n + 1, e⟩ else ⟨n, e⟩)
  | false, false => none

/-- The first grid, from a power of ten downwards, with a neighbour that rounds to the number. -/
def firstNeighbour (b : Binary) : Nat → Int → Decimal
  | 0, e => ⟨b.floorAt e, e⟩
  | n + 1, e => (b.neighbour? e).getD (b.firstNeighbour n (e - 1))

/-- The shortest decimal that rounds to a number other than zero. Seventeen digits always
suffice. -/
def shortest (b : Binary) : Decimal :=
  b.firstNeighbour 17 (b.leadingExponent 640 309)

end Binary

namespace Decimal

/-- The digits of a number without the zeros at their end. -/
def significantDigits (n : Nat) : Text :=
  match ((Nat.toDigits 10 n).reverse.dropWhile (· == '0')).reverse with
  | [] => ['0']
  | ds => ds

/-- A number with at least `width` digits. -/
def padded (width n : Nat) : Text :=
  let ds := Nat.toDigits 10 n
  List.replicate (width - ds.length) '0' ++ ds

/-- A text of digits with a point after the first `n`, filled up with zeros on either side so
that both parts have a digit. -/
def withPoint (ds : Text) (n : Int) : Text :=
  if n ≤ 0 then "0.".toList ++ List.replicate (-n).toNat '0' ++ ds
  else
    let whole := ds.take n.toNat
    let rest := ds.drop n.toNat
    whole ++ List.replicate (n.toNat - whole.length) '0' ++ ['.'] ++
      if rest = [] then ['0'] else rest

/-- The text of a decimal in a format. -/
def render (format : DecimalFormat) (x : Decimal) : Text :=
  let ds := significantDigits x.digits
  let leading := x.exponent + (Nat.toDigits 10 x.digits).length - 1
  if format.leastPositional ≤ leading ∧ leading ≤ format.greatestPositional then
    withPoint ds (leading + 1)
  else
    ds.take 1 ++ (if ds.length = 1 then [] else '.' :: ds.drop 1) ++ [format.mark] ++
      (if leading < 0 then ['-'] else ['+']) ++ padded format.exponentWidth leading.natAbs

/-- The text of a floating-point number in a format. -/
def renderFloat (format : DecimalFormat) (x : Float) : Text :=
  if x.isNaN then "nan".toList
  else
    let sign := if x.toBits.toNat / Nat.pow 2 63 = 1 then ['-'] else []
    if x.isInf then sign ++ "inf".toList
    else if (Binary.ofFloat x).mantissa = 0 then sign ++ "0.0".toList
    else sign ++ (Binary.ofFloat x).shortest.render format

end Decimal

end PathAlgebra
