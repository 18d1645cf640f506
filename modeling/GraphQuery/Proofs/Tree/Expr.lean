import GraphQuery.Proofs.Expr.Every
import GraphQuery.Proofs.Print.Expr

set_option autoImplicit false

/-! # Trees

What a reader of an expression can know of it: the expression with names in the place of variables
and parameters, with literal lists and maps as lists and maps of literals, and with the operands of
a group spliced into a group of the same connective around it. Brackets leave no trace in a tree.
-/

namespace GraphQuery

/-- An expression as it is read. -/
inductive Tree where
  | var (name : String)
  | property (name key : String)
  | param (name : String)
  /-- A literal that is no list and no map. -/
  | literal (value : Value)
  | list (items : List Tree)
  | map (entries : List (String × Tree))
  | compare (op : Comparison) (left right : Tree)
  | isNull (operand : Tree) (negated : Bool)
  | arith (op : Arithmetic) (left right : Tree)
  | group (op : Connective) (operands : List Tree)
  | not (operand : Tree)
  | call (name : String) (distinct : Bool) (args : List Tree)

namespace Tree

/-- The operands that a tree gives to a group around it: its own if it is a group of the same
connective, and otherwise itself. -/
def spliced (op : Connective) (t : Tree) : List Tree :=
  match t with
  | .group op' operands => if op' = op then operands else [t]
  | _ => [t]

/-- The tree of some operands with a connective between two of them. -/
def joined (op : Connective) : List Tree → Tree
  | [t] => t
  | ts => .group op ts

theorem spliced_group (op : Connective) (ts : List Tree) : (group op ts).spliced op = ts := by
  simp [spliced]

theorem joined_of_two_le {op : Connective} {ts : List Tree} (h : 2 ≤ ts.length) :
    joined op ts = .group op ts := by
  match ts, h with
  | _ :: _ :: _, _ => rfl

end Tree

/-! ## The tree of an expression

Names are taken from the outside, so the tree is the same for expressions that differ in
identities alone. Groups of groups become one group, and a group with a single operand would be
that operand. -/

/-- The tree of a literal. -/
def Value.tree : Value → Tree
  | .null => .literal .null
  | .boolean b => .literal (.boolean b)
  | .integer n => .literal (.integer n)
  | .float x => .literal (.float x)
  | .string s => .literal (.string s)
  | .list items => .list (items.map tree)
  | .map entries => .map (entries.map fun e => (e.1, e.2.tree))
  | .bytes data => .literal (.bytes data)
decreasing_by
  · have := List.sizeOf_lt_of_mem ‹_›
    simp_wf
    omega
  · have := sizeOf_value_lt_of_mem ‹_›
    simp_wf
    omega

namespace Expr

/-- The tree of an expression with a name for every variable and every parameter. -/
def tree (n : Names) : Expr → Tree
  | .var v => .var (n.var v)
  | .property v key => .property (n.var v) key
  | .param p => .param (n.param p)
  | .literal value => value.tree
  | .list items => .list (items.map (tree n))
  | .map entries => .map (entries.map fun e => (e.1, e.2.tree n))
  | .compare op left right => .compare op (left.tree n) (right.tree n)
  | .isNull operand negated => .isNull (operand.tree n) negated
  | .arith op left right => .arith op (left.tree n) (right.tree n)
  | .group op operands => .group op (operands.flatMap fun e => (e.tree n).spliced op)
  | .not operand => .not (operand.tree n)
  | .call name distinct args => .call name distinct (args.map (tree n))
decreasing_by
  all_goals simp_wf
  all_goals first
    | omega
    | (have hmem := List.sizeOf_lt_of_mem ‹_›; omega)
    | (have hmem := sizeOf_value_lt_of_mem ‹_›; omega)

/-- A tree that is no group of a connective is the only operand it gives. -/
theorem spliced_tree_of_not_group {n : Names} {e : Expr} {op : Connective}
    (h : ∀ es, e ≠ .group op es) : (e.tree n).spliced op = [e.tree n] := by
  cases e with
  | literal value =>
      rw [tree]
      cases value <;> simp [Value.tree, Tree.spliced]
  | group op' es =>
      have hop : op' ≠ op := fun hop => h es (by rw [hop])
      simp [tree, Tree.spliced, hop]
  | _ => simp [tree, Tree.spliced]

/-- Every expression gives some operand, as groups have operands. -/
theorem spliced_tree_ne_nil (n : Names) {e : Expr} (h : e.Every Readable) (op : Connective) :
    (e.tree n).spliced op ≠ [] := by
  induction e with
  | group op' es ih =>
      by_cases hop : op' = op
      · subst hop
        rw [Every] at h
        obtain ⟨e, es', hes⟩ := List.exists_cons_of_length_pos (Nat.lt_of_lt_of_le Nat.two_pos h.1)
        subst hes
        rw [tree, Tree.spliced_group, List.flatMap_cons]
        have he := ih e (List.mem_cons_self ..) (h.2 e (List.mem_cons_self ..))
        exact fun hnil => he (List.append_eq_nil_iff.mp hnil).1
      · rw [spliced_tree_of_not_group (by simpa using hop)]
        exact List.cons_ne_nil _ _
  | _ =>
      rw [spliced_tree_of_not_group (by simp)]
      exact List.cons_ne_nil _ _

/-- A group keeps two operands at least when operands are spliced into it. -/
theorem two_le_length_spliced (n : Names) {op : Connective} {es : List Expr}
    (h : (Expr.group op es).Every Readable) :
    2 ≤ (es.flatMap fun e => (e.tree n).spliced op).length := by
  rw [Every] at h
  obtain ⟨hlength, hes⟩ := h
  obtain ⟨a, b, es, rfl⟩ : ∃ a b es', es = a :: b :: es' := by
    obtain ⟨a, es, rfl⟩ := List.exists_cons_of_length_pos (Nat.lt_of_lt_of_le Nat.two_pos hlength)
    obtain ⟨b, es, rfl⟩ := List.exists_cons_of_length_pos (Nat.lt_of_succ_lt_succ hlength)
    exact ⟨a, b, es, rfl⟩
  have ha := List.length_pos_of_ne_nil (spliced_tree_ne_nil n (hes a (by simp)) op)
  have hb := List.length_pos_of_ne_nil (spliced_tree_ne_nil n (hes b (by simp)) op)
  rw [List.flatMap_cons, List.flatMap_cons, List.length_append, List.length_append]
  omega

/-! ## Literals that can be written

A draft without faults tells that every literal in the expression can be written. Together with
being readable this is all that is needed to read an expression back. -/

/-- A literal is one that can be written: no byte array, no float without a numeral and no empty
key is in it. -/
def Writable : Expr → Prop
  | .literal value => Draft.Sound value.draft
  | _ => True

/-- An expression whose draft has no fault has only literals that can be written. -/
theorem every_writable {e : Expr} (h : Draft.Sound e.draft) : e.Every Writable := by
  induction e with
  | var v | property v key | param p => rw [Every]; trivial
  | literal value => rw [Every]; exact h
  | list items ih =>
      rw [draft, draftItems_eq_map] at h
      rw [Every]
      exact ⟨trivial, fun e he => ih e he (h.of_brackets.of_commas (List.mem_map_of_mem he))⟩
  | map entries ih =>
      rw [draft, draftEntries_eq_map] at h
      rw [Every]
      exact ⟨trivial, fun e he =>
        ih e he (h.of_braces.of_commas (List.mem_map_of_mem he)).of_entry⟩
  | compare op left right ihl ihr | arith op left right ihl ihr =>
      rw [draft] at h
      rw [Every]
      obtain ⟨hl, hr⟩ := h.of_binary
      exact ⟨trivial, ihl hl.of_parensIf, ihr hr.of_parensIf⟩
  | isNull operand negated ih =>
      rw [draft] at h
      rw [Every]
      exact ⟨trivial, ih (Draft.sound_append.mp h).1.of_parensIf⟩
  | group op operands ih =>
      rw [draft, draftOperands_eq_map] at h
      rw [Every]
      exact ⟨trivial, fun e he =>
        ih e he (h.of_intercalate (List.mem_map_of_mem he)).of_parensIf⟩
  | not operand ih =>
      rw [draft] at h
      rw [Every]
      exact ⟨trivial, ih (Draft.sound_cons.mp (Draft.sound_cons.mp h).2).2.of_parensIf⟩
  | call name distinct args ih =>
      rw [draft, draftItems_eq_map] at h
      rw [Every]
      have hargs := (Draft.sound_append.mp (Draft.sound_cons.mp h).2.of_parens).2
      exact ⟨trivial, fun e he => ih e he (hargs.of_commas (List.mem_map_of_mem he))⟩

/-- What an expression has to meet to be read back. -/
def Legible (e : Expr) : Prop := e.Readable ∧ e.Writable

/-- A readable expression whose draft has no fault can be read back. -/
theorem every_legible {e : Expr} (hreadable : e.Every Readable) (hsound : Draft.Sound e.draft) :
    e.Every Legible := hreadable.and (every_writable hsound)

end Expr

end GraphQuery
