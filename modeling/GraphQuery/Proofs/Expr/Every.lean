import GraphQuery.Expr.Function
import GraphQuery.Name.Reserved
import GraphQuery.Proofs.Expr.Induction
import GraphQuery.Statement.Basic

set_option autoImplicit false

/-! # Conditions on all expressions

`Expr.Every p e` says that `p` holds of an expression and of every expression in it, and
`Statement.Every p st` that it holds of every expression in a statement. Two conditions matter:

* `Expr.Named`, which holds throughout every expression that can be made: calls are checked when
  they are made, so the names of their functions are dotted identifiers;
* `Expr.Readable`, without which a text cannot be read back: a group of a single operand looks like
  that operand, and a function whose name has a reserved part looks like an operator or a literal.
-/

namespace GraphQuery

namespace Expr

/-- A condition that holds of an expression and of every expression in it. -/
def Every (p : Expr → Prop) : Expr → Prop
  | .var v => p (.var v)
  | .property v key => p (.property v key)
  | .param q => p (.param q)
  | .literal value => p (.literal value)
  | .list items => p (.list items) ∧ ∀ e ∈ items, e.Every p
  | .map entries => p (.map entries) ∧ ∀ e ∈ entries, e.2.Every p
  | .compare op left right => p (.compare op left right) ∧ left.Every p ∧ right.Every p
  | .isNull operand negated => p (.isNull operand negated) ∧ operand.Every p
  | .arith op left right => p (.arith op left right) ∧ left.Every p ∧ right.Every p
  | .group op operands => p (.group op operands) ∧ ∀ e ∈ operands, e.Every p
  | .not operand => p (.not operand) ∧ operand.Every p
  | .call name distinct args => p (.call name distinct args) ∧ ∀ e ∈ args, e.Every p
decreasing_by
  all_goals simp_wf
  all_goals first
    | omega
    | (have hmem := List.sizeOf_lt_of_mem ‹_›; omega)
    | (have hmem := sizeOf_value_lt_of_mem ‹_›; omega)

variable {p q : Expr → Prop}

theorem Every.self {e : Expr} (h : e.Every p) : p e := by
  cases e with
  | var v | property v key | param q | literal value => simpa [Every] using h
  | list es | map es | compare op l r | isNull e n | arith op l r | group op es | not e
  | call f d es =>
      rw [Every] at h
      exact h.1

theorem every_of_forall (h : ∀ e, p e) (e : Expr) : e.Every p := by
  induction e with
  | var v | property v key | param q | literal value =>
      rw [Every]
      exact h _
  | list es ih | map es ih | group op es ih | call f d es ih =>
      rw [Every]
      exact ⟨h _, ih⟩
  | compare op l r ihl ihr | arith op l r ihl ihr =>
      rw [Every]
      exact ⟨h _, ihl, ihr⟩
  | isNull e n ih | not e ih =>
      rw [Every]
      exact ⟨h _, ih⟩

theorem Every.mono (hpq : ∀ e, p e → q e) {e : Expr} (h : e.Every p) : e.Every q := by
  induction e with
  | var v | property v key | param q | literal value =>
      rw [Every] at h ⊢
      exact hpq _ h
  | list es ih | map es ih | group op es ih | call f d es ih =>
      rw [Every] at h ⊢
      exact ⟨hpq _ h.1, fun e he => ih e he (h.2 e he)⟩
  | compare op l r ihl ihr | arith op l r ihl ihr =>
      rw [Every] at h ⊢
      exact ⟨hpq _ h.1, ihl h.2.1, ihr h.2.2⟩
  | isNull e n ih | not e ih =>
      rw [Every] at h ⊢
      exact ⟨hpq _ h.1, ih h.2⟩

theorem Every.and {p q : Expr → Prop} {e : Expr} (hp : e.Every p) (hq : e.Every q) :
    e.Every fun e => p e ∧ q e := by
  induction e with
  | var v | property v key | param q | literal value =>
      rw [Every] at hp hq ⊢
      exact ⟨hp, hq⟩
  | list es ih | map es ih | group op es ih | call f d es ih =>
      rw [Every] at hp hq ⊢
      exact ⟨⟨hp.1, hq.1⟩, fun e he => ih e he (hp.2 e he) (hq.2 e he)⟩
  | compare op l r ihl ihr | arith op l r ihl ihr =>
      rw [Every] at hp hq ⊢
      exact ⟨⟨hp.1, hq.1⟩, ihl hp.2.1 hq.2.1, ihr hp.2.2 hq.2.2⟩
  | isNull e n ih | not e ih =>
      rw [Every] at hp hq ⊢
      exact ⟨⟨hp.1, hq.1⟩, ih hp.2 hq.2⟩

/-- A condition that does not look at groups holds of all expressions in a group with a further
operand if it holds of those in the group and of those in the operand. -/
theorem every_extend_iff {p : Expr → Prop} (hp : ∀ op es, p (.group op es)) (op : Connective)
    (e operand : Expr) : (e.extend op operand).Every p ↔ e.Every p ∧ operand.Every p := by
  have hpair : (Expr.group op [e, operand]).Every p ↔ e.Every p ∧ operand.Every p := by
    simp [Every, hp]
  cases e with
  | group op' operands =>
      simp only [extend]
      split
      · simp [Every, hp, or_imp, forall_and]
      · exact hpair
  | _ => exact hpair

/-! ## The names of functions -/

/-- The name of a call is a dotted identifier. -/
def Named : Expr → Prop
  | .call name _ _ => Name.isDotted name = true
  | _ => True

/-! ## Readable expressions -/

/-- A group has two operands at least, and no part of the name of a function is a reserved word. -/
def Readable : Expr → Prop
  | .group _ operands => 2 ≤ operands.length
  | .call name _ _ => Name.isDotted name = true ∧
      ∀ part ∈ Name.dotParts name.toList, Name.isReserved (String.ofList part) = false
  | _ => True

theorem Readable.named {e : Expr} (h : e.Readable) : e.Named := by
  cases e with
  | call f d es => exact h.1
  | _ => trivial

end Expr

/-! ## Statements

The expressions of a clause are listed, not collected by a recursion of their own: the property
values of its patterns, its items, conditions, sort items, numbers of rows and assigned values.
Each of them is then looked through with `Expr.Every`. -/

def Properties.exprs (ps : Properties) : List Expr := ps.map Prod.snd

def Segment.exprs (s : Segment) : List Expr :=
  Properties.exprs s.relationship.properties ++ Properties.exprs s.node.properties

def Pattern.exprs (p : Pattern) : List Expr :=
  Properties.exprs p.start.properties ++ p.segments.flatMap Segment.exprs

/-- The expressions that stand in a clause. -/
def Clause.exprs : Clause → List Expr
  | .matching _ patterns | .create patterns => patterns.toList.flatMap Pattern.exprs
  | .filter e | .skip e | .limit e => [e]
  | .projecting projection | .returning projection => projection.items.toList.map Item.expr
  | .orderBy items => items.toList.map SortItem.expr
  | .unwind source _ => [source]
  | .merge pattern => pattern.exprs
  | .set assignments => assignments.toList.map Assignment.value
  | .delete _ _ => []

def Clause.Every (p : Expr → Prop) (c : Clause) : Prop := ∀ e ∈ c.exprs, e.Every p

def Statement.Every (p : Expr → Prop) (st : Statement) : Prop := ∀ c ∈ st.clauses, c.Every p

theorem Statement.Every.mono {p q : Expr → Prop} (hpq : ∀ e, p e → q e) {st : Statement}
    (h : st.Every p) : st.Every q :=
  fun c hc e he => (h c hc e he).mono hpq

end GraphQuery
