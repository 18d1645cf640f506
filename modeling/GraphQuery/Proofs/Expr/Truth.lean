import GraphQuery.Proofs.Tree.Expr

set_option autoImplicit false

/-! # The truth of conditions

A condition is true, false or null. A boolean group folds its operands by the connective of Kleene's
logic, and every other expression has whatever value it is given. One more operand joins the value
that is there already (`Expr.truth_extend`), and as the connectives are associative the tree of a
condition has the value of the condition (`Expr.truth_tree`), though the tree does not tell which of
its operands came from groups in the group.
-/

namespace GraphQuery

/-- A truth value. -/
inductive Truth where
  | true
  | false
  | null
deriving DecidableEq

namespace Truth

def and : Truth → Truth → Truth
  | .false, _ | _, .false => .false
  | .true, .true => .true
  | _, _ => .null

def or : Truth → Truth → Truth
  | .true, _ | _, .true => .true
  | .false, .false => .false
  | _, _ => .null

def xor : Truth → Truth → Truth
  | .null, _ | _, .null => .null
  | .true, .true | .false, .false => .false
  | _, _ => .true

end Truth

/-! ## Connectives

A false operand decides a conjunction and a true one a disjunction, even if another operand is
null; an exclusive disjunction is null as soon as one operand is. All three are associative, and
`true` or `false` is a unit, so a group has a value whatever the number of its operands is. -/

namespace Connective

def apply : Connective → Truth → Truth → Truth
  | .and => Truth.and
  | .or => Truth.or
  | .xor => Truth.xor

def unit : Connective → Truth
  | .and => .true
  | .or | .xor => .false

theorem apply_assoc (op : Connective) (a b c : Truth) :
    op.apply (op.apply a b) c = op.apply a (op.apply b c) := by
  cases op <;> cases a <;> cases b <;> cases c <;> rfl

@[simp] theorem unit_apply (op : Connective) (a : Truth) : op.apply op.unit a = a := by
  cases op <;> cases a <;> rfl

@[simp] theorem apply_unit (op : Connective) (a : Truth) : op.apply a op.unit = a := by
  cases op <;> cases a <;> rfl

instance (op : Connective) : Std.Associative op.apply := ⟨op.apply_assoc⟩

def all (op : Connective) (values : List Truth) : Truth := values.foldl op.apply op.unit

@[simp] theorem all_singleton (op : Connective) (a : Truth) : op.all [a] = a := op.unit_apply a

theorem all_append (op : Connective) (as bs : List Truth) :
    op.all (as ++ bs) = op.apply (op.all as) (op.all bs) := by
  have hfrom : bs.foldl op.apply (op.apply (op.all as) op.unit) =
      op.apply (op.all as) (op.all bs) := List.foldl_assoc
  rw [apply_unit] at hfrom
  rw [← hfrom, all, List.foldl_append]
  rfl

end Connective

/-! ## Expressions

What an expression other than a group evaluates to is left to a valuation `v`. So the results
hold for every meaning of comparisons, calls and the rest. -/

namespace Expr

/-- An expression is no boolean group. -/
def Simple (e : Expr) : Prop := ∀ op es, e ≠ .group op es

/-- The value of an expression, given the values of those that are no groups. -/
def truth (v : Expr → Truth) : Expr → Truth
  | .group op operands => op.all (operands.map (truth v))
  | e => v e
decreasing_by
  have hmem := List.sizeOf_lt_of_mem ‹_›
  simp_wf
  omega

theorem truth_of_simple {v : Expr → Truth} {e : Expr} (h : e.Simple) : e.truth v = v e := by
  cases e with
  | group op es => exact absurd rfl (h op es)
  | _ => rw [truth]; exact fun op es hgroup => Expr.noConfusion hgroup

/-- **One more operand joins the value** of what was there, whether a group is extended by it or
begins with it. -/
theorem truth_extend (v : Expr → Truth) (op : Connective) (e operand : Expr) :
    (e.extend op operand).truth v = op.apply (e.truth v) (operand.truth v) := by
  have hpair : (Expr.group op [e, operand]).truth v = op.apply (e.truth v) (operand.truth v) := by
    rw [truth, List.map_cons, List.map_singleton, ← List.singleton_append, op.all_append,
      op.all_singleton, op.all_singleton]
  cases e with
  | group op' operands =>
      simp only [extend]
      split
      next hop =>
          subst hop
          rw [truth, truth, List.map_append, op'.all_append, List.map_singleton,
            op'.all_singleton]
      · exact hpair
  | _ => exact hpair

end Expr

/-! ## Trees

A tree has lost the brackets between a group and a group of the same connective in it. By
associativity this changes no value, and a valuation of expressions carries over to trees as long
as it does not tell expressions of one tree apart. -/

namespace Tree

/-- The value of a tree, given the values of those that are no groups. -/
def truth (w : Tree → Truth) : Tree → Truth
  | .group op operands => op.all (operands.map (truth w))
  | t => w t
decreasing_by
  have hmem := List.sizeOf_lt_of_mem ‹_›
  simp_wf
  omega

/-- Splicing the operands of a tree into a group does not change what they come to. -/
theorem all_spliced (w : Tree → Truth) (op : Connective) (t : Tree) :
    op.all ((t.spliced op).map (truth w)) = t.truth w := by
  cases t with
  | group op' operands =>
      simp only [spliced]
      split
      next hop => rw [hop, truth]
      · exact op.all_singleton _
  | _ => exact op.all_singleton _

end Tree

namespace Expr

/-- Trees have the values of the expressions that they are of. -/
def Agrees (n : Names) (v : Expr → Truth) (w : Tree → Truth) : Prop :=
  ∀ e : Expr, e.Simple → w (e.tree n) = v e

/-- Values can be given to trees if expressions of one tree have one value. -/
theorem exists_agrees {n : Names} {v : Expr → Truth}
    (h : ∀ a b : Expr, a.Simple → b.Simple → a.tree n = b.tree n → v a = v b) :
    ∃ w, Agrees n v w := by
  classical
  refine ⟨fun t => if ht : ∃ e : Expr, e.Simple ∧ e.tree n = t then v ht.choose else .null, ?_⟩
  intro e he
  have ht : ∃ e' : Expr, e'.Simple ∧ e'.tree n = e.tree n := ⟨e, he, rfl⟩
  obtain ⟨hsimple, htree⟩ := ht.choose_spec
  exact (dif_pos ht).trans (h _ e hsimple he htree)

/-- **The tree of a condition has the value of the condition.** -/
theorem truth_tree {n : Names} {v : Expr → Truth} {w : Tree → Truth} (h : Agrees n v w) (e : Expr) :
    (e.tree n).truth w = e.truth v := by
  induction e with
  | group op es ih =>
      rw [tree, Tree.truth, truth]
      induction es with
      | nil => rfl
      | cons e es ihes =>
          obtain ⟨he, hes⟩ := List.forall_mem_cons.mp ih
          rw [List.flatMap_cons, List.map_append, op.all_append, Tree.all_spliced, he, ihes hes,
            List.map_cons, ← List.singleton_append, op.all_append, op.all_singleton]
  | literal value =>
      have hsimple : (Expr.literal value).Simple := by simp [Simple]
      rw [truth_of_simple hsimple, ← h _ hsimple, tree]
      cases value <;> simp [Value.tree, Tree.truth]
  | _ =>
      rw [truth_of_simple (by simp [Simple]), ← h _ (by simp [Simple]), tree]
      simp [Tree.truth]

end Expr

end GraphQuery
