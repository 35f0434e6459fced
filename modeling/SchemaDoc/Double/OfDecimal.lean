import SchemaDoc.Double.Basic

/-!
# Decimal numerals as floating point numbers

A numeral `significand * 10 ^ exponent` is converted in two roundings: the significand to its
nearest number, then one product or quotient with the nearest number to the power of ten. So the
result need not be the nearest number to the numeral. Powers past `10 ^ 308` have no number: such
an exponent is out of range for a nonzero significand, and such a divisor is divided out in steps.
-/
namespace SchemaDoc.Double

/-- The largest power of ten that is used as a factor. -/
def greatestPower : Nat := 308

/-- Divides by `10 ^ 308` up to `steps` times, ending early at zero. -/
def divideDown : Nat → Double → Option Double
  | 0, x => some x
  | steps + 1, x =>
    if x.isZero then some x
    else do (← x.div? (← powerOfTen? greatestPower)) |> divideDown steps

/-- The number for `significand * 10 ^ exponent`, or `none` when it is out of range. -/
def ofDecimal? (significand : Nat) (exponent : Int) : Option Double := do
  let x ← ofNat? significand
  let k := exponent.natAbs
  if 0 ≤ exponent then
    if k ≤ greatestPower then x.mul? (← powerOfTen? k)
    else if x.isZero then some x else none
  else
    let steps := (k - 1) / greatestPower
    let y ← divideDown steps x
    y.div? (← powerOfTen? (k - steps * greatestPower))

end SchemaDoc.Double
