import GraphQuery.Clause.Basic

set_option autoImplicit false

/-! # Equality of clauses

Clauses are equal part by part, with expressions compared by `Expr.equal` and nodes, relationships
and variables by what they are.

Two statements that are equal in this sense need not have one text: floating-point literals are
compared as numbers are, so the two zeros are equal and are written differently.
-/

namespace GraphQuery

instance {α : Type} [BEq α] : BEq (OneOrMore α) := ⟨fun xs ys => xs.toList == ys.toList⟩

instance : BEq Expr := ⟨Expr.equal⟩

instance : BEq Item := ⟨fun a b => a.expr == b.expr && a.alias? == b.alias?⟩

instance : BEq Projection := ⟨fun a b => a.distinct == b.distinct && a.items == b.items⟩

instance : BEq SortItem := ⟨fun a b => a.expr == b.expr && a.descending == b.descending⟩

instance : BEq Assignment :=
  ⟨fun a b => a.target == b.target && a.key == b.key && a.value == b.value⟩

/-- Whether two clauses are equal. -/
def Clause.equal : Clause → Clause → Bool
  | .matching o ps, .matching o' ps' => o == o' && ps == ps'
  | .filter e, .filter e' => e == e'
  | .projecting p, .projecting p' => p == p'
  | .returning p, .returning p' => p == p'
  | .orderBy is, .orderBy is' => is == is'
  | .skip e, .skip e' => e == e'
  | .limit e, .limit e' => e == e'
  | .unwind e a, .unwind e' a' => e == e' && a == a'
  | .create ps, .create ps' => ps == ps'
  | .merge p, .merge p' => p == p'
  | .set as, .set as' => as == as'
  | .delete d ts, .delete d' ts' => d == d' && ts == ts'
  | _, _ => false

instance : BEq Clause := ⟨Clause.equal⟩

end GraphQuery
