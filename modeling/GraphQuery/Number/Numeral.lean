import GraphQuery.Number.Decimal

set_option autoImplicit false

/-! # Numerals

The written form of integers and floating-point numbers. A floating-point numeral always has a
fraction or an exponent, which keeps it apart from an integer numeral.

Magnitudes within a range are written with a point among the digits, all others with an exponent.
The range is a parameter of the layout; the literals of a query have the one named here.
-/

namespace GraphQuery.Number

def naturalNumeral (n : Nat) : List Char := Nat.toDigits 10 n

/-- An integer in decimal digits, with a minus sign below zero. -/
def integerNumeral (n : Int) : List Char :=
  if n < 0 then '-' :: naturalNumeral n.natAbs else naturalNumeral n.natAbs

/-- Where a floating-point numeral is written positionally: from `10 ^ least` on and below
`10 ^ beyond`. -/
structure PositionalRange where
  least : Int
  beyond : Int

/-- Floating-point literals of a query are positional from a ten-thousandth on and below ten to the
sixteenth. -/
def literalRange : PositionalRange where
  least := -4
  beyond := 16

/-- Digits with a point after the leading `whole` of them, at least one digit on each side. -/
def positional (digits : List Char) (whole : Int) : List Char :=
  if whole ≤ 0 then '0' :: '.' :: (List.replicate (-whole).toNat '0' ++ digits)
  else if digits.length ≤ whole.toNat then
    digits ++ List.replicate (whole.toNat - digits.length) '0' ++ ['.', '0']
  else digits.take whole.toNat ++ '.' :: digits.drop whole.toNat

/-- Digits with a point after the first, if more follow, and the exponent of the first. -/
def exponential (digits : List Char) (exponent : Int) : List Char :=
  let fraction := digits.drop 1
  digits.take 1 ++ (if fraction.isEmpty then [] else '.' :: fraction) ++
    'e' :: integerNumeral exponent

/-- A decimal laid out with the given range of positional writing. -/
def Decimal.numeral (range : PositionalRange) (d : Decimal) : List Char :=
  let digits := naturalNumeral d.digits
  let leading : Int := d.exponent + digits.length - 1
  if range.least ≤ leading ∧ leading < range.beyond then positional digits (leading + 1)
  else exponential digits leading

/-- The numeral of a finite floating-point number. -/
def floatNumeral (x : Binary64) : List Char :=
  let magnitude := if x.isZero then ['0', '.', '0'] else x.shortest.numeral literalRange
  if x.negative then '-' :: magnitude else magnitude

theorem naturalNumeral_ne_nil (n : Nat) : naturalNumeral n ≠ [] := by
  simp [naturalNumeral]

end GraphQuery.Number
