import GraphQuery.Proofs.Parser.RoundTrip
import GraphQuery.Proofs.Tree.Written

set_option autoImplicit false

/-! # Printed expressions are written trees

The tokens of a printed expression are written for its tree (`Expr.fills`), in both grammars. A
printed operand is written for its tree at the level where it stands, and an operand of a group for
the operands that it gives to the group.
-/

namespace GraphQuery

variable {g : Grammar}

/-! ## Sequences

Parts that are laid out with commas are separated by single tokens. -/

namespace Fills

variable {α : Type} {f : α → List Token} {ps : α → List Part} {xs : List α}

/-- What is written for parts with a token between two of them. -/
theorem separated {o : Token} (ho : o.isParen = false) (h : ∀ x ∈ xs, Fills g (ps x) (f x)) :
    Fills g (Part.separated (xs.map ps)) ([o].intercalate (xs.map f)) := by
  cases xs with
  | nil => exact .nil
  | cons x xs =>
      obtain ⟨hx, hxs⟩ := List.forall_mem_cons.mp h
      rw [Part.separated, List.map_cons, List.map_cons, intercalate_cons, intercalate_cons,
        List.flatMap_map, List.flatMap_map]
      exact hx.append ((additive g).flatMap fun y hy => .token ho (hxs y hy))

theorem operands {p : Precedence} {tree : α → Tree} {o : Token} (ho : o.isParen = false)
    (h : ∀ x ∈ xs, Writes g p (tree x) (f x)) :
    Fills g (Part.operands p (xs.map tree)) ([o].intercalate (xs.map f)) := by
  rw [Part.operands, List.map_map]
  exact separated ho fun x hx => fills_operand_iff.mpr (h x hx)

theorem entries {es : List (String × α)} {tree : α → Tree}
    (h : ∀ e ∈ es, Writes g .or (tree e.2) (f e.2)) :
    Fills g (Part.entries (es.map fun e => (e.1, tree e.2)))
      (Token.commas (es.map fun e => Token.entry e.1 (f e.2))) := by
  rw [Part.entries, List.map_map]
  exact separated rfl fun e he => .token rfl (.token rfl (fills_operand_iff.mpr (h e he)))

end Fills

/-! ## Values

The items of a list and the values of a map stand at the loosest level, as they are between
brackets. -/

/-- A value that can be written is written for its tree. -/
theorem Value.fills (g : Grammar) {v : Value} (h : Draft.Sound v.draft) :
    Fills g (v.tree.parts g) v.tokens := by
  induction v with
  | null | boolean b | integer m | float x | string s =>
      rw [tree, tokens]
      exact .token rfl .nil
  | list items ih =>
      rw [draft, draftItems_eq_map] at h
      rw [tree, tokens]
      refine .token rfl (.append (.operands rfl fun v hv => ?_) (.token rfl .nil))
      exact .bare (Nat.zero_le _) (ih v hv (h.of_brackets.of_commas (List.mem_map_of_mem hv)))
  | map entries ih =>
      rw [draft, draftEntries_eq_map] at h
      rw [tree, tokens]
      refine .token rfl (.append (.entries fun e he => ?_) (.token rfl .nil))
      have he' := (h.of_braces.of_commas (List.mem_map_of_mem he)).of_entry
      exact .bare (Nat.zero_le _) (ih e he he')
  | bytes data => simp [draft, noLiteral, Piece.isFault] at h

/-! ## Expressions

Brackets that the printer writes are brackets that may be there, so nothing has to be known about
whether they are needed. -/

namespace Expr

variable {n : Names} {e : Expr}

theorem precedence_tree (n : Names) (e : Expr) : (e.tree n).precedence = e.precedence := by
  cases e with
  | literal v =>
      rw [tree]
      cases v <;> (rw [Value.tree]; rfl)
  | _ =>
      rw [tree]
      rfl

/-- A printed operand is written at a level if it is in brackets where it does not fit. -/
theorem writes_operand (he : Fills g ((e.tree n).parts g) (e.tokens n)) {needed : Bool}
    {q : Precedence} (hfit : needed = false → g.rank q ≤ g.rank e.precedence) :
    Writes g q (e.tree n) (Token.parensIf needed (e.tokens n)) := by
  cases needed with
  | false => exact .bare (by rw [precedence_tree]; exact hfit rfl) he
  | true => exact (Writes.bare (p := .or) (Nat.zero_le _) he).parens q

/-- A printed operand of a group is written for the operands that it gives to the group. -/
theorem fills_spliced (op : Connective) (he : Fills g ((e.tree n).parts g) (e.tokens n)) :
    Fills g (Part.operands (g.below op.precedence) ((e.tree n).spliced op))
      (Token.parensIf (e.needsParensInGroup op) (e.tokens n)) := by
  by_cases hop : ∃ es, e = .group op es
  · obtain ⟨es, rfl⟩ := hop
    have hneeded : (Expr.group op es).needsParensInGroup op = false := by
      simp [needsParensInGroup]
    rw [hneeded, tree, Tree.spliced_group]
    rw [tree] at he
    exact he
  · have hop' : ∀ es, e ≠ .group op es := fun es hes => hop ⟨es, hes⟩
    rw [spliced_tree_of_not_group hop']
    exact fills_operand_iff.mpr (writes_operand he (rank_below_connective_le hop'))

/-- **A printed expression is written for its tree.** -/
theorem fills (g : Grammar) (n : Names) {e : Expr} (h : e.Every Legible) :
    Fills g ((e.tree n).parts g) (e.tokens n) := by
  induction e with
  | var v =>
      rw [tree, tokens]
      exact .token rfl .nil
  | property v key =>
      rw [tree, tokens]
      exact .token rfl (.token rfl (.token rfl .nil))
  | param p =>
      rw [tree, tokens]
      exact .token rfl (.token rfl .nil)
  | literal v =>
      rw [tree, tokens]
      exact v.fills g h.self.2
  | list items ih =>
      rw [Every] at h
      rw [tree, tokens]
      -- between brackets every item fits the loosest level
      refine .token rfl (.append (.operands rfl fun e he => ?_) (.token rfl .nil))
      exact .bare (Nat.zero_le _) (ih e he (h.2 e he))
  | map entries ih =>
      rw [Every] at h
      rw [tree, tokens]
      refine .token rfl (.append (.entries fun e he => ?_) (.token rfl .nil))
      exact .bare (Nat.zero_le _) (ih e he (h.2 e he))
  | compare op left right ihl ihr =>
      rw [Every] at h
      rw [tree, tokens]
      exact .of_writes_append (writes_operand (ihl h.2.1) rank_below_comparison_le)
        (.append (.ofTokens (Token.isParen_comparison op)) (fills_operand_iff.mpr
          (writes_operand (ihr h.2.2) rank_below_comparison_le)))
  | isNull operand negated ih =>
      rw [Every] at h
      rw [tree, tokens]
      refine .of_writes_append (writes_operand (ih h.2) rank_below_comparison_le) (.ofTokens ?_)
      cases negated <;> decide
  | arith op left right ihl ihr =>
      rw [Every] at h
      rw [tree, tokens]
      refine .of_writes_append (writes_operand (ihl h.2.1) rank_arithmetic_le) (.token ?_
        (fills_operand_iff.mpr (writes_operand (ihr h.2.2) rank_below_arithmetic_le)))
      cases op <;> rfl
  | group op operands ih =>
      have hgroup := h
      rw [Every] at h
      rw [tree, tokens, Tree.parts, Part.operands_flatMap]
      -- each operand is written for the operands that it gives to the group
      · exact .separated rfl fun e he => fills_spliced op (ih e he (h.2 e he))
      · exact fun e he => spliced_tree_ne_nil n ((h.2 e he).mono fun _ hl => hl.1) op
  | not operand ih =>
      rw [Every] at h
      rw [tree, tokens]
      exact .token rfl (fills_operand_iff.mpr (writes_operand (ih h.2) rank_not_le))
  | call name distinct args ih =>
      rw [Every] at h
      rw [tree, tokens]
      have hargs : Fills g (Part.operands .or (args.map (tree n)))
          (Token.commas (args.map (tokens n))) :=
        .operands rfl fun e he => .bare (Nat.zero_le _) (ih e he (h.2 e he))
      exact .append (.ofTokens (Token.isParen_function name)) (.bracket _
        (.append (.append (.optional rfl distinct) hargs) (.bracket _ .nil)))

end Expr

end GraphQuery
