import GraphQuery.Expr.Basic

set_option autoImplicit false

/-! # Precedence

How tightly the outermost operator of an expression binds. The levels are ordered from the loosest,
`OR`, to atoms.

A level is compared by its `rank`. Whatever is neither an operator nor a boolean group is an
atom: a variable, a property, a literal, a call, a list. An atom needs brackets nowhere.
-/

namespace GraphQuery

/-- A level of binding strength. -/
inductive Precedence where
  | or
  | xor
  | and
  | comparison
  | not
  | additive
  | multiplicative
  | power
  | atom
deriving DecidableEq

namespace Precedence

/-- The place of a level, from the loosest to the tightest. -/
def rank : Precedence → Nat
  | .or => 0
  | .xor => 1
  | .and => 2
  | .comparison => 3
  | .not => 4
  | .additive => 5
  | .multiplicative => 6
  | .power => 7
  | .atom => 8

instance : LT Precedence := ⟨fun p q => p.rank < q.rank⟩
instance : LE Precedence := ⟨fun p q => p.rank ≤ q.rank⟩
instance (p q : Precedence) : Decidable (p < q) := inferInstanceAs (Decidable (p.rank < q.rank))
instance (p q : Precedence) : Decidable (p ≤ q) := inferInstanceAs (Decidable (p.rank ≤ q.rank))

end Precedence

def Arithmetic.precedence : Arithmetic → Precedence
  | .add | .subtract => .additive
  | .multiply | .divide | .modulo => .multiplicative
  | .power => .power

def Connective.precedence : Connective → Precedence
  | .and => .and
  | .or => .or
  | .xor => .xor

/-- The level of the outermost operator of an expression. -/
def Expr.precedence : Expr → Precedence
  | .compare .. | .isNull .. => .comparison
  | .arith op _ _ => op.precedence
  | .group op _ => op.precedence
  | .not _ => .not
  | _ => .atom

end GraphQuery
