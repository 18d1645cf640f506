set_option autoImplicit false

/-! # Binary numbers of 64 bits

A binary floating-point number is kept as its 64 bits: the sign, eleven bits of exponent and
fifty-two of fraction. A finite one has the magnitude `significand * 2 ^ scale` in units of
`2 ^ (-1074)`, the least positive magnitude, so magnitudes are natural numbers. The other direction
is `nearest`: the magnitude closest to a quotient of naturals, in the same units.
-/

namespace GraphQuery.Number

/-- A binary floating-point number, by its bits. -/
structure Binary64 where
  bits : UInt64
deriving DecidableEq

namespace Binary64

/-- Powers are those of natural numbers, whatever other powers are known. -/
local instance power : Pow Nat Nat := instPowNat

/-! ## Fields

From the top, the bits are the sign, the exponent field and the fraction. An exponent field with
all bits set is left to what is not finite: the two infinities, with fraction zero, and the
numbers that are not numbers, with any other fraction. Zero of either sign has all bits but the
sign clear. -/

/-- Whether the sign bit is set. -/
def negative (x : Binary64) : Bool := 2 ^ (63 : Nat) ≤ x.bits.toNat

def exponentField (x : Binary64) : Nat := x.bits.toNat / 2 ^ (52 : Nat) % 2 ^ (11 : Nat)

def fraction (x : Binary64) : Nat := x.bits.toNat % 2 ^ (52 : Nat)

/-- Neither infinite nor not-a-number. -/
def isFinite (x : Binary64) : Bool := x.exponentField != 2047

/-- Not a number: all exponent bits set and a fraction other than zero. -/
def isNaN (x : Binary64) : Bool := x.exponentField == 2047 && x.fraction != 0

def isZero (x : Binary64) : Bool := x.bits.toNat % 2 ^ (63 : Nat) == 0

/-- Equality of numbers: not-a-number differs from everything, and the two zeros are equal. -/
def numEq (x y : Binary64) : Bool :=
  !x.isNaN && !y.isNaN && (x == y || (x.isZero && y.isZero))

/-! ## Magnitudes

The least two exponent fields have the same scale. With the field at zero there is no leading
bit, so the magnitudes below the least normal one go down to zero in even steps. -/

/-- The significand of a finite number: the fraction, with its leading bit where the exponent
field is not zero. -/
def significand (x : Binary64) : Nat :=
  if x.exponentField = 0 then x.fraction else 2 ^ (52 : Nat) + x.fraction

/-- The number of doublings of the least positive magnitude. -/
def scale (x : Binary64) : Nat := x.exponentField - 1

/-! ## Rounding to the nearest number

All rounding is done once, on a quotient of naturals, with ties to the even significand. Reading
a decimal, reading an integer and turning a number of 32 bits into one of 64 only have to say
which quotient they mean. -/

/-- The natural number nearest to `num / den`; of two equally near ones the even one. -/
def roundHalfEven (num den : Nat) : Nat :=
  let low := num / den
  let twice := 2 * (num % den)
  if twice < den then low
  else if den < twice then low + 1
  else if low % 2 = 0 then low else low + 1

/-- The bits of the magnitude nearest to `num / den` units. The significand takes fifty-three bits;
one that rounds up to the next power of two carries into the exponent field by itself. What is
beyond the greatest finite magnitude is infinite. -/
def nearestBits (num den : Nat) : Nat :=
  let doublings := (num / den).log2 - 52
  min (doublings * 2 ^ (52 : Nat) + roundHalfEven num (den * 2 ^ doublings)) (2047 * 2 ^ (52 : Nat))

/-- The number of the given sign nearest to `num / den` units. -/
def nearest (negative : Bool) (num den : Nat) : Binary64 :=
  ⟨UInt64.ofNat ((if negative then 2 ^ (63 : Nat) else 0) + nearestBits num den)⟩

/-- The number nearest to `± digits * 10 ^ exponent`. -/
def ofDecimal (negative : Bool) (digits : Nat) (exponent : Int) : Binary64 :=
  nearest negative (digits * 10 ^ exponent.toNat * 2 ^ (1074 : Nat)) (10 ^ (-exponent).toNat)

def ofInt (n : Int) : Binary64 := ofDecimal (decide (n < 0)) n.natAbs 0

/-- The number with the value of a binary number of 32 bits, which has eight exponent bits and
twenty-three of fraction; not-a-number keeps its fraction at the upper end and becomes quiet. -/
def ofBinary32 (bits : UInt32) : Binary64 :=
  let negative : Bool := 2 ^ (31 : Nat) ≤ bits.toNat
  let exponent := bits.toNat / 2 ^ (23 : Nat) % 2 ^ (8 : Nat)
  let fraction := bits.toNat % 2 ^ (23 : Nat)
  if exponent = 255 then
    -- the fraction moves up by the difference in width
    let quiet := if fraction = 0 then 0 else 2 ^ (51 : Nat) ||| (fraction * 2 ^ (29 : Nat))
    ⟨UInt64.ofNat ((if negative then 2 ^ (63 : Nat) else 0) + 2047 * 2 ^ (52 : Nat) + quiet)⟩
  else
    let significand := if exponent = 0 then fraction else 2 ^ (23 : Nat) + fraction
    nearest negative (significand * 2 ^ (exponent - 1 + 925)) 1

end Binary64

end GraphQuery.Number
