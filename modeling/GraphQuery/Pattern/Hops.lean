import GraphQuery.Error.Structure

set_option autoImplicit false

/-! # Hop ranges

How many relationships a relationship of variable length may stand for. A missing bound leaves that
side open.

Only `between` can go wrong. One bound alone, two equal bounds or none are ranges whatever the
numbers are, zero included.
-/

namespace GraphQuery

/-- A range of hop counts. -/
structure Hops where
  least? : Option Nat
  most? : Option Nat
deriving DecidableEq

namespace Hops

def exactly (n : Nat) : Hops := ⟨some n, some n⟩

def atLeast (n : Nat) : Hops := ⟨some n, none⟩

def atMost (n : Nat) : Hops := ⟨none, some n⟩

def any : Hops := ⟨none, none⟩

/-- A range with both bounds, which must be in order. -/
def between (least most : Nat) : Except StructureError Hops :=
  if most < least then .error (.hopRange least most) else .ok ⟨some least, some most⟩

end Hops

end GraphQuery
