import GraphQuery.Number.Binary64

set_option autoImplicit false

/-! # Shortest decimals

The decimal that stands for a binary number is the one with the fewest digits among all decimals
that round to the number, and of those the closest to it; of two equally close ones the greater.

Every magnitude, every halfway point between two magnitudes and every decimal tried is a whole
number of *ticks* of `10 ^ (-1076)`, so the search is exact arithmetic on naturals.
-/

namespace GraphQuery.Number

/-- The number `digits * 10 ^ exponent`. -/
structure Decimal where
  digits : Nat
  exponent : Int
deriving DecidableEq

namespace Decimal

/-- The same number without zeros at the end of its digits. -/
def trimmed (digits : Nat) (exponent : Int) : Decimal :=
  if h : digits ≠ 0 ∧ digits % 10 = 0 then trimmed (digits / 10) (exponent + 1)
  else ⟨digits, exponent⟩
termination_by digits
decreasing_by omega

end Decimal

@[inherit_doc Binary64.power]
local instance Decimal.power : Pow Nat Nat := instPowNat

namespace Binary64

/-! ## Ticks

A tick is small enough for all points of interest: a quarter of the gap above a number is a whole
number of ticks at every exponent. The numbers that round to a given one lie between two halfway
points, `lowerEnd` and `upperEnd`; the lower one is closer where the gap below is only half as
wide. -/

/-- A quarter of the gap between a finite number and the next magnitude, in ticks. -/
def quarterGap (x : Binary64) : Nat := 2 ^ x.scale * 5 ^ (1074 : Nat) * 25

/-- The magnitude of a finite number in ticks. -/
def ticks (x : Binary64) : Nat := 4 * x.significand * x.quarterGap

/-- Whether the magnitude below is nearer than the magnitude above: the least significand of an
exponent, except at the least exponent. -/
def narrowBelow (x : Binary64) : Bool := x.fraction == 0 && decide (1 < x.exponentField)

/-- The halfway point to the magnitude below, in ticks. -/
def lowerEnd (x : Binary64) : Nat :=
  x.ticks - (if x.narrowBelow then 1 else 2) * x.quarterGap

def upperEnd (x : Binary64) : Nat := x.ticks + 2 * x.quarterGap

/-- Whether a number of ticks rounds to the magnitude of a finite number. A halfway point goes to
the even significand. -/
def attracts (x : Binary64) (t : Nat) : Bool :=
  if x.significand % 2 = 0 then decide (x.lowerEnd ≤ t ∧ t ≤ x.upperEnd)
  else decide (x.lowerEnd < t ∧ t < x.upperEnd)

/-! ## The search

The grids are tried from the coarsest to the finest, and the first that has a multiple which
rounds to the number wins: the fewest digits count first, and closeness only decides between the
two neighbours of the number on one grid. -/

/-- The closest multiple of `10 ^ place` ticks that rounds to a finite number. One of the two
neighbours of the number on that grid does if any multiple does. -/
def closestOnGrid (x : Binary64) (place : Nat) : Option Nat :=
  let step := 10 ^ place
  let low := x.ticks / step
  match x.attracts (low * step), x.attracts ((low + 1) * step) with
  -- of two equally close neighbours the greater one
  | true, true => some (if 2 * x.ticks < (2 * low + 1) * step then low else low + 1)
  | true, false => some low
  | false, true => some (low + 1)
  | false, false => none

/-- The decimal that stands for the magnitude of a finite number other than zero. Seventeen digits
identify every number; the exact value in ticks is what is left if they did not. -/
def shortest (x : Binary64) : Decimal :=
  let leading := (Nat.toDigits 10 x.ticks).length - 1
  -- from one digit on, each time on a grid that is finer by one digit
  let found := (List.range 17).findSome? fun more =>
    let place := leading - more
    (x.closestOnGrid place).map fun n => Decimal.trimmed n ((place : Int) - 1076)
  found.getD (Decimal.trimmed x.ticks (-1076))

end Binary64

end GraphQuery.Number
