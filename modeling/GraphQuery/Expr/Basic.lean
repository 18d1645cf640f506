import GraphQuery.Error.Structure
import GraphQuery.Variable

set_option autoImplicit false

/-! # Expressions

The expressions of the query language as trees. A boolean group joins its operands by one
connective. `Expr.and` and `Expr.or` extend a group of their connective and otherwise start a new
one; `Expr.allOf` and `Expr.anyOf` need two operands at least.
-/

namespace GraphQuery

inductive Comparison where
  | equal
  | notEqual
  | less
  | greater
  | lessOrEqual
  | greaterOrEqual
  | contains
  | startsWith
  | endsWith
  | member
  | regex
deriving DecidableEq

inductive Arithmetic where
  | add
  | subtract
  | multiply
  | divide
  | modulo
  | power
deriving DecidableEq

inductive Connective where
  | and
  | or
  | xor
deriving DecidableEq

/-- The keyword of a connective. -/
def Connective.text : Connective → String
  | .and => "AND"
  | .or => "OR"
  | .xor => "XOR"

/-- An expression. -/
inductive Expr where
  | var (v : Variable)
  | property (v : Variable) (key : String)
  | param (p : Param)
  | literal (value : Value)
  | list (items : List Expr)
  | map (entries : List (String × Expr))
  | compare (op : Comparison) (left right : Expr)
  | isNull (operand : Expr) (negated : Bool)
  | arith (op : Arithmetic) (left right : Expr)
  | group (op : Connective) (operands : List Expr)
  | not (operand : Expr)
  | call (name : String) (distinct : Bool) (args : List Expr)

namespace Expr

/-! ## Boolean groups

The four functions come in pairs over a connective, and `extend` and `groupOf` say what the two
of a pair have in common. Extending looks at the left operand only: a group on the right becomes
one operand of the new group, whatever its connective. -/

/-- An expression with one more operand: at the end of its own group if it is a group of that
connective, and in a new group with it otherwise. -/
def extend (op : Connective) (e operand : Expr) : Expr :=
  match e with
  | .group op' operands =>
      if op' = op then .group op (operands ++ [operand]) else .group op [e, operand]
  | _ => .group op [e, operand]

/-- The conjunction with one more operand. -/
def and (e operand : Expr) : Expr := e.extend .and operand

/-- The disjunction with one more operand. -/
def or (e operand : Expr) : Expr := e.extend .or operand

/-- The group of at least two operands. -/
def groupOf (op : Connective) (operands : List Expr) : Except StructureError Expr :=
  if operands.length < 2 then .error (.tooFewOperands op.text operands.length)
  else .ok (.group op operands)

def allOf (operands : List Expr) : Except StructureError Expr := groupOf .and operands

def anyOf (operands : List Expr) : Except StructureError Expr := groupOf .or operands

/-! ## Equality

Equality is decided by structure and not up to meaning: a group and the same group in other
brackets are different, and so are a call and the same call with its arguments in another order. -/

mutual

/-- Whether two expressions are equal: the same tree over the same variables and parameters, with
equal literals. Floating-point literals are equal as numbers are. -/
def equal : Expr → Expr → Bool
  | .var v, .var w => v == w
  | .property v k, .property w l => v == w && k == l
  | .param p, .param q => p == q
  | .literal a, .literal b => a.equal b
  | .list as, .list bs => equalItems as bs
  | .map as, .map bs => equalEntries as bs
  | .compare op a b, .compare op' a' b' => op == op' && equal a a' && equal b b'
  | .isNull a n, .isNull a' n' => equal a a' && n == n'
  | .arith op a b, .arith op' a' b' => op == op' && equal a a' && equal b b'
  | .group op as, .group op' bs => op == op' && equalItems as bs
  | .not a, .not b => equal a b
  | .call f d as, .call g d' bs => f == g && d == d' && equalItems as bs
  | _, _ => false

/-- Whether two lists hold equal expressions. -/
def equalItems : List Expr → List Expr → Bool
  | [], [] => true
  | a :: as, b :: bs => equal a b && equalItems as bs
  | _, _ => false

/-- Whether two lists hold equal expressions under the same keys. -/
def equalEntries : List (String × Expr) → List (String × Expr) → Bool
  | [], [] => true
  | (k, a) :: as, (l, b) :: bs => k == l && equal a b && equalEntries as bs
  | _, _ => false

end

end Expr

end GraphQuery
