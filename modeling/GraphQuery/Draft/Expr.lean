import GraphQuery.Draft.Value
import GraphQuery.Expr.Precedence

set_option autoImplicit false

/-! # Drafts of expressions

Where an operand needs brackets:

* an operand of a comparison, or of `IS NULL`, if it binds more loosely than addition: comparisons
  do not chain;
* the left operand of an arithmetic operator if it binds more loosely, the right one also if it
  binds equally;
* an operand of a boolean group if it is a group of another connective, or any other expression
  that binds more loosely;
* the operand of `NOT` if it binds more loosely than `NOT`.
-/

namespace GraphQuery

open Draft

/-! ## Operators

An operator is a draft of its own, so that `STARTS WITH` and `ENDS WITH` can be two words with a
blank between them. -/

def Comparison.draft : Comparison → Draft
  | .equal => [mark "="]
  | .notEqual => [mark "<>"]
  | .less => [mark "<"]
  | .greater => [mark ">"]
  | .lessOrEqual => [mark "<="]
  | .greaterOrEqual => [mark ">="]
  | .contains => words ["CONTAINS"]
  | .startsWith => words ["STARTS", "WITH"]
  | .endsWith => words ["ENDS", "WITH"]
  | .member => words ["IN"]
  | .regex => [mark "=~"]

def Arithmetic.draft : Arithmetic → Draft
  | .add => [mark "+"]
  | .subtract => [mark "-"]
  | .multiply => [mark "*"]
  | .divide => [mark "/"]
  | .modulo => [mark "%"]
  | .power => [mark "^"]

def Draft.binary (left op right : Draft) : Draft := left ++ space :: (op ++ space :: right)

/-! ## Brackets

Both tests look at the level of the operand alone, except that a boolean group also compares
connectives: a group inside a group of its own connective stays bare, as the flattening of
`Expr.and` and `Expr.or` would have made it. -/

/-- Whether an operand of a comparison needs brackets. -/
def Expr.needsParensInComparison (e : Expr) : Bool := e.precedence < .additive

/-- Whether an operand of a boolean group needs brackets. -/
def Expr.needsParensInGroup (op : Connective) : Expr → Bool
  | .group op' _ => op' != op
  | e => e.precedence < op.precedence

/-! ## Expressions

The recursion goes through the lists of an expression with functions of their own, one for the
items of a list or the arguments of a call, one for the operands of a group and one for entries. -/

namespace Expr

mutual

/-- The draft of an expression. -/
def draft : Expr → Draft
  | .var v => [.var v]
  | .property v key => [.var v, mark ".", name .propertyKey key]
  | .param p => [mark "$", .param p]
  | .literal value => value.draft
  | .list items => brackets (commas (draftItems items))
  | .map entries => braces (commas (draftEntries .mapKey entries))
  | .compare op left right =>
      binary (parensIf left.needsParensInComparison left.draft) op.draft
        (parensIf right.needsParensInComparison right.draft)
  | .isNull operand negated =>
      parensIf operand.needsParensInComparison operand.draft ++
        space :: words (if negated then ["IS", "NOT", "NULL"] else ["IS", "NULL"])
  | .arith op left right =>
      -- chains are read from the left: an operand of the same level needs brackets on the right
      binary (parensIf (left.precedence < op.precedence) left.draft) op.draft
        (parensIf (right.precedence ≤ op.precedence) right.draft)
  | .group op operands => [space, word op.text, space].intercalate (draftOperands op operands)
  | .not operand => word "NOT" :: space :: parensIf (operand.precedence < .not) operand.draft
  | .call name distinct args =>
      word name :: parens ((if distinct then [word "DISTINCT", space] else []) ++
        commas (draftItems args))

def draftItems : List Expr → List Draft
  | [] => []
  | e :: es => e.draft :: draftItems es

/-- The drafts of the operands of a boolean group. -/
def draftOperands (op : Connective) : List Expr → List Draft
  | [] => []
  | e :: es => parensIf (e.needsParensInGroup op) e.draft :: draftOperands op es

def draftEntries (role : NameRole) : List (String × Expr) → List Draft
  | [] => []
  | (k, e) :: es => entry role k e.draft :: draftEntries role es

end

end Expr

end GraphQuery
