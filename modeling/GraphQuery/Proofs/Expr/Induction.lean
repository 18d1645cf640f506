import GraphQuery.Draft.Expr

set_option autoImplicit false

/-! # Induction over values and expressions

Values and expressions hold lists of their own kind, and lists of entries. The principles here give
the hypothesis for every member of such a list; a recursion through a list is justified by the two
lemmas on sizes. The drafts of a list are those of its members.
-/

namespace GraphQuery

/-! ## Sizes -/

section Sizes

variable {α : Type} [SizeOf α]

theorem sizeOf_value_lt_of_mem {e : String × α} {es : List (String × α)} (h : e ∈ es) :
    sizeOf e.2 < sizeOf es := by
  have := List.sizeOf_lt_of_mem h
  rcases e with ⟨k, x⟩
  simp only [Prod.mk.sizeOf_spec] at this ⊢
  omega

end Sizes

/-! ## Values

In the case of a list the hypothesis is for every item, and in the case of a map for the value of
every entry. Keys are strings and need none. -/

namespace Value

@[elab_as_elim, induction_eliminator]
theorem induct {motive : Value → Prop} (null : motive .null) (boolean : ∀ b, motive (.boolean b))
    (integer : ∀ n, motive (.integer n)) (float : ∀ x, motive (.float x))
    (string : ∀ s, motive (.string s))
    (list : ∀ items, (∀ v ∈ items, motive v) → motive (.list items))
    (map : ∀ entries, (∀ e ∈ entries, motive e.2) → motive (.map entries))
    (bytes : ∀ data, motive (.bytes data)) (v : Value) : motive v := by
  refine @Value.rec motive (fun vs => ∀ v ∈ vs, motive v) (fun es => ∀ e ∈ es, motive e.2)
    (fun e => motive e.2)
    null boolean integer float string list map bytes ?_ ?_ ?_ ?_ ?_ v
  · simp
  · intro v vs hv hvs
    exact List.forall_mem_cons.mpr ⟨hv, hvs⟩
  · simp
  · intro e es he hes
    exact List.forall_mem_cons.mpr ⟨he, hes⟩
  · exact fun _ _ h => h

theorem draftItems_eq_map (vs : List Value) : draftItems vs = vs.map draft := by
  induction vs with
  | nil => rfl
  | cons v vs ih => rw [draftItems, ih, List.map_cons]

theorem draftEntries_eq_map (es : List (String × Value)) :
    draftEntries es = es.map fun e => Draft.entry .mapKey e.1 e.2.draft := by
  induction es with
  | nil => rfl
  | cons e es ih => rw [draftEntries, ih, List.map_cons]

end Value

/-! ## Expressions

The three functions for the drafts of lists are maps. With these equations the lemmas on layout,
which speak of maps, apply to the drafts of expressions. -/

namespace Expr

@[elab_as_elim, induction_eliminator]
theorem induct {motive : Expr → Prop} (var : ∀ v, motive (.var v))
    (property : ∀ v key, motive (.property v key)) (param : ∀ p, motive (.param p))
    (literal : ∀ value, motive (.literal value))
    (list : ∀ items, (∀ e ∈ items, motive e) → motive (.list items))
    (map : ∀ entries, (∀ e ∈ entries, motive e.2) → motive (.map entries))
    (compare : ∀ op left right, motive left → motive right → motive (.compare op left right))
    (isNull : ∀ operand negated, motive operand → motive (.isNull operand negated))
    (arith : ∀ op left right, motive left → motive right → motive (.arith op left right))
    (group : ∀ op operands, (∀ e ∈ operands, motive e) → motive (.group op operands))
    (not : ∀ operand, motive operand → motive (.not operand))
    (call : ∀ name distinct args, (∀ e ∈ args, motive e) → motive (.call name distinct args))
    (e : Expr) : motive e := by
  refine @Expr.rec motive (fun es => ∀ e ∈ es, motive e) (fun es => ∀ e ∈ es, motive e.2)
    (fun e => motive e.2)
    var property param literal list map compare isNull arith group not call ?_ ?_ ?_ ?_ ?_ e
  · simp
  · intro e es he hes
    exact List.forall_mem_cons.mpr ⟨he, hes⟩
  · simp
  · intro e es he hes
    exact List.forall_mem_cons.mpr ⟨he, hes⟩
  · exact fun _ _ h => h

theorem draftItems_eq_map (es : List Expr) : draftItems es = es.map draft := by
  induction es with
  | nil => rfl
  | cons e es ih => rw [draftItems, ih, List.map_cons]

theorem draftOperands_eq_map (op : Connective) (es : List Expr) :
    draftOperands op es = es.map fun e => Draft.parensIf (e.needsParensInGroup op) e.draft := by
  induction es with
  | nil => rfl
  | cons e es ih => rw [draftOperands, ih, List.map_cons]

theorem draftEntries_eq_map (role : NameRole) (es : List (String × Expr)) :
    draftEntries role es = es.map fun e => Draft.entry role e.1 e.2.draft := by
  induction es with
  | nil => rfl
  | cons e es ih => rw [draftEntries, ih, List.map_cons]

end Expr

end GraphQuery
