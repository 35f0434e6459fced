/-!
# Floating point numbers of 64 bits, exactly

A `Double` is a finite binary64 number given by its sign, its integer significand and its binary
exponent, in the one normal form the format has for it; so equal structures are equal numbers with
equal signs, and no operation here goes through machine floats. `Double.ofRatio?` rounds a ratio
of natural numbers to the nearest representable number, ties to the even significand, and gives
`none` past the largest one; conversion, product and quotient are that one rounding applied to an
exact ratio. `Binary64` adds the infinities and the value that is no number.
-/
namespace SchemaDoc

/-- The pairs that stand for a magnitude: a subnormal has the least exponent and fewer than 53
bits, every other magnitude has exactly 53 bits. -/
def Double.Canonical (significand : Nat) (exponent : Int) : Prop :=
  (significand < Nat.pow 2 53 ∧ exponent = -1074) ∨
    (Nat.pow 2 52 ≤ significand ∧ significand < Nat.pow 2 53 ∧ -1074 ≤ exponent ∧ exponent ≤ 971)

instance (significand : Nat) (exponent : Int) : Decidable (Double.Canonical significand exponent) :=
  inferInstanceAs (Decidable (_ ∨ _))

/-- The finite number `± significand * 2 ^ exponent`. Zero keeps its sign. -/
structure Double where
  negative : Bool
  significand : Nat
  exponent : Int
  canonical : Double.Canonical significand exponent
deriving DecidableEq

namespace Double

/-- Zero, with a sign. -/
def zero (negative : Bool) : Double := ⟨negative, 0, -1074, by decide⟩

def isZero (x : Double) : Bool := x.significand == 0

/-- The same magnitude with the given sign. -/
def withSign (negative : Bool) (x : Double) : Double := { x with negative }

/-- Numeric equality: the two zeros are equal. -/
def equal (x y : Double) : Bool := x == y || (x.isZero && y.isZero)

/-- A pair in normal form as a number; a pair that is not in normal form has none. -/
def ofParts? (negative : Bool) (significand : Nat) (exponent : Int) : Option Double :=
  if h : Canonical significand exponent then some ⟨negative, significand, exponent, h⟩ else none

/-- The ratio `num / den` as a multiple of `2 ^ exponent`: `num / (den * 2 ^ exponent)` again as a
ratio of natural numbers. -/
def scaledRatio (num den : Nat) (exponent : Int) : Nat × Nat :=
  if 0 ≤ exponent then (num, den * Nat.pow 2 exponent.toNat)
  else (num * Nat.pow 2 (-exponent).toNat, den)

/-- The quotient rounded to the nearest natural number, a half to the even neighbour. -/
def divHalfEven (num den : Nat) : Nat :=
  let q := num / den
  let r := num % den
  if 2 * r < den then q else if den < 2 * r then q + 1 else if q % 2 = 0 then q else q + 1

/-- The exponent at which a nonzero ratio has 53 bits before the point, or the least exponent if
that is larger. The difference of the bit lengths is one too large when the leading bits of the
numerator are the smaller ones, which the quotient shows. -/
def roundingExponent (num den : Nat) : Int :=
  let guess : Int := (Nat.log2 num : Int) - Nat.log2 den - 52
  let scaled := scaledRatio num den guess
  let exact := if scaled.1 / scaled.2 < Nat.pow 2 52 then guess - 1 else guess
  max exact (-1074)

/-- The nearest number to `± num / den` for a positive `den`, ties to the even significand, or
`none` when that is past the largest number. -/
def ofRatio? (negative : Bool) (num den : Nat) : Option Double :=
  if num = 0 then some (zero negative) else
    let exponent := roundingExponent num den
    let scaled := scaledRatio num den exponent
    let significand := divHalfEven scaled.1 scaled.2
    if significand = Nat.pow 2 53 then ofParts? negative (Nat.pow 2 52) (exponent + 1)
    else ofParts? negative significand exponent

/-- The nearest number to a natural number. -/
def ofNat? (n : Nat) : Option Double := ofRatio? false n 1

/-- The nearest number to an integer. Zero is positive. -/
def ofInt? (n : Int) : Option Double := ofRatio? (n < 0) n.natAbs 1

/-- The magnitude as a ratio of natural numbers. -/
def ratio (x : Double) : Nat × Nat :=
  if 0 ≤ x.exponent then (x.significand * Nat.pow 2 x.exponent.toNat, 1)
  else (x.significand, Nat.pow 2 (-x.exponent).toNat)

/-- The product, rounded once. -/
def mul? (x y : Double) : Option Double :=
  ofRatio? (x.negative != y.negative) (x.ratio.1 * y.ratio.1) (x.ratio.2 * y.ratio.2)

/-- The quotient by a number other than zero, rounded once. -/
def div? (x y : Double) : Option Double :=
  ofRatio? (x.negative != y.negative) (x.ratio.1 * y.ratio.2) (x.ratio.2 * y.ratio.1)

/-- The nearest number to a power of ten; there is one up to the exponent 308. -/
def powerOfTen? (k : Nat) : Option Double := ofRatio? false (Nat.pow 10 k) 1

/-- The value, if it is an integer. -/
def toInt? (x : Double) : Option Int :=
  if x.ratio.1 % x.ratio.2 = 0 then
    let magnitude : Int := (x.ratio.1 / x.ratio.2 : Nat)
    some (if x.negative then -magnitude else magnitude)
  else none

end Double

/-- A binary64 value: a finite number, an infinity or no number at all. -/
inductive Binary64 where
  | finite (value : Double)
  | infinite (negative : Bool)
  | undefined
deriving DecidableEq

namespace Binary64

/-- The finite number, if the value is one. -/
def finite? : Binary64 → Option Double
  | finite x => some x
  | _ => none

/-- The nearest value to an integer. -/
def ofInt (n : Int) : Binary64 :=
  match Double.ofInt? n with
  | some x => finite x
  | none => infinite (n < 0)

end Binary64

end SchemaDoc
