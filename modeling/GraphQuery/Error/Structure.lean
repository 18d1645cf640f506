set_option autoImplicit false

/-! # Faults of patterns and expressions

What can be wrong with the parts of a query before they are put into a clause. Positions count the
elements of a pattern from zero.
-/

namespace GraphQuery

/-- The number of arguments that a function takes. -/
structure Arity where
  least : Nat
  most? : Option Nat
deriving DecidableEq

/-- An arity in words. -/
def Arity.text (a : Arity) : String :=
  match a.most? with
  | some most => if most = a.least then toString most else toString a.least ++ ".." ++ toString most
  | none => "at least " ++ toString a.least

/-- A malformed pattern or expression. -/
inductive StructureError where
  | emptyPattern
  | startsWithRelationship
  | endsWithRelationship (position : Nat)
  | consecutiveNodes (position next : Nat)
  | consecutiveRelationships (position next : Nat)
  | hopRange (least most : Nat)
  | tooFewOperands (operator : String) (found : Nat)
  | functionName (name : String)
  | functionArity (name : String) (expected : Arity) (found : Nat)
  | distinctNotAggregate (name : String)
deriving DecidableEq

/-- The wording of a fault. -/
def StructureError.message : StructureError → String
  | .emptyPattern => "Pattern is empty (a pattern needs at least one node)"
  | .startsWithRelationship =>
      "Pattern must start with a node, found a relationship at position 0"
  | .endsWithRelationship position =>
      "Pattern must end with a node, found a relationship at position " ++ toString position
  | .consecutiveNodes position next =>
      "Two consecutive nodes at positions " ++ toString position ++ " and " ++ toString next ++
        " (a relationship must separate them)"
  | .consecutiveRelationships position next =>
      "Two consecutive relationships at positions " ++ toString position ++ " and " ++
        toString next ++ " (a node must separate them)"
  | .hopRange least most =>
      "Invalid hop range: minimum hops (" ++ toString least ++
        ") cannot be greater than maximum hops (" ++ toString most ++ ")"
  | .tooFewOperands operator found =>
      operator ++ " needs at least 2 operands, got " ++ toString found
  | .functionName name =>
      "Invalid function name: '" ++ name ++
        "' (expected an identifier, optionally dot-separated)"
  | .functionArity name expected found =>
      "Function " ++ name ++ "() takes " ++ expected.text ++ " argument(s), got " ++
        toString found
  | .distinctNotAggregate name =>
      "Function " ++ name ++ "() is not an aggregate and cannot take DISTINCT"

end GraphQuery
