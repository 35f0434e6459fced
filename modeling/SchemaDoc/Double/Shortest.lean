import SchemaDoc.Double.Basic

/-!
# The shortest decimal that reads back

Every nonzero `Double` has an interval of reals that round to it. `Double.shortest` takes the
coarsest decimal grid that has a point in this interval, and on it the point nearest to the
number; a tie goes to the even digit. Only the two neighbours of the number on a grid need to be
tried, since a grid with a point in the interval has one of them there. All comparisons are
between natural numbers.
-/
namespace SchemaDoc

/-- The decimal number `digits * 10 ^ exponent`. -/
structure Decimal where
  digits : Nat
  exponent : Int
deriving DecidableEq, Repr

namespace Double

/-- How a decimal grid lies over a number: a grid point `d` and a multiple `m` of a quarter of the
number's last place compare as `d * point` and `m * quarter`. -/
structure Grid where
  point : Nat
  quarter : Nat

/-- The grid of the multiples of `10 ^ g`. -/
def grid (x : Double) (g : Int) : Grid :=
  { point := Nat.pow 10 g.toNat * Nat.pow 2 (2 - x.exponent).toNat
    quarter := Nat.pow 10 (-g).toNat * Nat.pow 2 (x.exponent - 2).toNat }

/-- The lower end of the rounding interval in quarters of the last place. Just above a power of
two the next number down is half as far away. -/
def lowQuarters (x : Double) : Nat :=
  if x.significand = Nat.pow 2 52 ∧ -1074 < x.exponent then 4 * x.significand - 1
  else 4 * x.significand - 2

def highQuarters (x : Double) : Nat := 4 * x.significand + 2

/-- A grid point lies in the rounding interval; the ends belong to it when the significand is
even. -/
def roundsFrom (x : Double) (s : Grid) (d : Nat) : Bool :=
  let low := x.lowQuarters * s.quarter
  let high := x.highQuarters * s.quarter
  let p := d * s.point
  if x.significand % 2 = 0 then low ≤ p && p ≤ high else low < p && p < high

/-- The greatest grid point not above the number. -/
def floorPoint (x : Double) (s : Grid) : Nat := 4 * x.significand * s.quarter / s.point

/-- The neighbour of the number on the grid that is nearer, a tie going to the even one. -/
def nearerPoint (x : Double) (s : Grid) : Nat :=
  let d := x.floorPoint s
  let value := 4 * x.significand * s.quarter
  let below := value - d * s.point
  let above := (d + 1) * s.point - value
  if below < above then d else if above < below then d + 1 else if d % 2 = 0 then d else d + 1

/-- The grid point that stands for the number on a grid, if the grid has one. -/
def pointOn? (x : Double) (s : Grid) : Option Nat :=
  let near := x.nearerPoint s
  if x.roundsFrom s near then some near
  else
    let d := x.floorPoint s
    let far := if near = d then d + 1 else d
    if x.roundsFrom s far then some far else none

/-- The exponent of the leading decimal digit of a nonzero number: an estimate from the bit length,
put right by comparison. -/
def leadingExponent (x : Double) : Int :=
  let estimate := ((Nat.log2 x.significand : Int) + x.exponent) * 30103 / 100000
  let atLeast (k : Int) : Bool := (x.grid k).point ≤ 4 * x.significand * (x.grid k).quarter
  if atLeast (estimate + 1) then estimate + 1
  else if atLeast estimate then estimate
  else estimate - 1

/-- Tries grids of `count` more lengths, from the coarser to the finer. -/
def shortestFrom (x : Double) : Nat → Int → Decimal
  | 0, g => ⟨x.nearerPoint (x.grid g), g⟩
  | count + 1, g =>
    match x.pointOn? (x.grid g) with
    | some d => ⟨d, g⟩
    | none => x.shortestFrom count (g - 1)

/-- The shortest decimal among those that round to the number, and of these the nearest. Seventeen
digits always suffice. -/
def shortest (x : Double) : Decimal := x.shortestFrom 16 x.leadingExponent

end Double

namespace Decimal

/-- The significant digits without zeros at the end, at least one. -/
def significantDigits (x : Decimal) : List Char :=
  match ((Nat.toDigits 10 x.digits).reverse.dropWhile (· == '0')).reverse with
  | [] => ['0']
  | ds => ds

/-- The exponent of the leading digit. -/
def leadingExponent (x : Decimal) : Int := x.exponent + (Nat.toDigits 10 x.digits).length - 1

/-- Which leading exponents are written with all places, the others being written with a power
of ten. -/
structure Style where
  leastPositional : Int
  greatestPositional : Int

/-- All places, with at least one digit on either side of the point. -/
def positional (digits : List Char) (leading : Int) : List Char :=
  if leading < 0 then
    '0' :: '.' :: (List.replicate (-leading - 1).toNat '0' ++ digits)
  else
    let places := leading.toNat + 1
    if digits.length ≤ places then
      digits ++ List.replicate (places - digits.length) '0' ++ ['.', '0']
    else digits.take places ++ '.' :: digits.drop places

/-- One digit before the point, then a signed power of ten; no point without a digit after it. -/
def scientific (digits : List Char) (leading : Int) : List Char :=
  let power := 'e' :: (if leading < 0 then '-' else '+') :: Nat.toDigits 10 leading.natAbs
  match digits with
  | [] => power
  | [d] => d :: power
  | d :: ds => d :: '.' :: (ds ++ power)

/-- The text of a decimal in a style. -/
def chars (style : Style) (x : Decimal) : List Char :=
  let leading := x.leadingExponent
  if style.leastPositional ≤ leading ∧ leading ≤ style.greatestPositional then
    positional x.significantDigits leading
  else scientific x.significantDigits leading

end Decimal

namespace Double

/-- The shortest text of a number in a style; zero is `0.0`, and a minus sign stands before the
negative numbers, negative zero among them. -/
def chars (style : Decimal.Style) (x : Double) : List Char :=
  let magnitude := if x.isZero then ['0', '.', '0'] else x.shortest.chars style
  if x.negative then '-' :: magnitude else magnitude

end Double

end SchemaDoc
