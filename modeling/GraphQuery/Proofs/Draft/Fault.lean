import GraphQuery.Proofs.Print.Layout

set_option autoImplicit false

/-! # Faults in drafts

`Draft.EachFault P d` says that `P` holds of every fault in a draft. Laid out drafts have the faults
of their parts, and those of the names that are empty. With a condition that never holds this is
what a sound draft is (`Draft.sound_iff`).
-/

namespace GraphQuery

/-- A condition on the fault of a piece, if it is one. -/
def Piece.Allows (P : RenderError → Prop) : Piece → Prop
  | .fault e => P e
  | .lexeme _ | .var _ | .param _ => True

namespace Draft

def EachFault (P : RenderError → Prop) (d : Draft) : Prop := ∀ p ∈ d, p.Allows P

variable {P : RenderError → Prop} {p : Piece} {d e : Draft} {ds : List Draft}

theorem sound_iff : Sound d ↔ EachFault (fun _ => False) d := by
  refine forall₂_congr fun p _ => ?_
  cases p <;> simp [Piece.isFault, Piece.Allows]

/-! ## Pieces

Only two kinds of pieces can carry a fault: a fault itself, and a name without characters, which
`Draft.name` turns into one. All lemmas here are simp lemmas, so a condition on a laid out draft
is taken apart down to these two. -/

@[simp] theorem allows_lexeme (l : Lexeme) : (Piece.lexeme l).Allows P ↔ True := Iff.rfl

@[simp] theorem allows_var (v : Variable) : (Piece.var v).Allows P ↔ True := Iff.rfl

@[simp] theorem allows_param (q : Param) : (Piece.param q).Allows P ↔ True := Iff.rfl

@[simp] theorem allows_fault (e : RenderError) : (Piece.fault e).Allows P ↔ P e := Iff.rfl

@[simp] theorem allows_word (t : String) : (word t).Allows P ↔ True := Iff.rfl

@[simp] theorem allows_mark (t : String) : (mark t).Allows P ↔ True := Iff.rfl

@[simp] theorem allows_space : space.Allows P ↔ True := Iff.rfl

@[simp] theorem allows_name (role : NameRole) (raw : String) :
    (name role raw).Allows P ↔ (raw = "" → P (.emptyName role)) := by
  unfold name
  split
  next h => simp [String.isEmpty_iff.mp h]
  next h => simp [mt String.isEmpty_iff.mpr h]

/-! ## Layout

Brackets, blanks and commas have no faults of their own. What stands between two drafts is a
parameter where it may have some, and must be free of them. -/

@[simp] theorem eachFault_nil : EachFault P [] ↔ True := by simp [EachFault]

@[simp] theorem eachFault_cons : EachFault P (p :: d) ↔ p.Allows P ∧ EachFault P d :=
  List.forall_mem_cons

@[simp] theorem eachFault_append : EachFault P (d ++ e) ↔ EachFault P d ∧ EachFault P e :=
  List.forall_mem_append

theorem eachFault_flatMap {α : Type} {f : α → Draft} {xs : List α} :
    EachFault P (xs.flatMap f) ↔ ∀ x ∈ xs, EachFault P (f x) :=
  List.forall_mem_flatMap

/-- A separator without faults leaves the faults of what it separates. -/
theorem eachFault_intercalate {sep : Draft} (hsep : EachFault P sep) :
    EachFault P (sep.intercalate ds) ↔ ∀ d ∈ ds, EachFault P d :=
  forall_mem_intercalate hsep

@[simp] theorem eachFault_commas : EachFault P (commas ds) ↔ ∀ d ∈ ds, EachFault P d :=
  eachFault_intercalate (by simp)

@[simp] theorem eachFault_words (ws : List String) : EachFault P (words ws) ↔ True := by
  rw [words_eq_intercalate, eachFault_intercalate (by simp)]
  simp

@[simp] theorem eachFault_parens : EachFault P (parens d) ↔ EachFault P d := by simp [parens]

@[simp] theorem eachFault_parensIf (needed : Bool) :
    EachFault P (parensIf needed d) ↔ EachFault P d := by
  cases needed with
  | false => exact Iff.rfl
  | true => exact eachFault_parens

@[simp] theorem eachFault_brackets : EachFault P (brackets d) ↔ EachFault P d := by simp [brackets]

@[simp] theorem eachFault_braces : EachFault P (braces d) ↔ EachFault P d := by simp [braces]

theorem eachFault_binary {op : Draft} (hop : EachFault P op) :
    EachFault P (binary d op e) ↔ EachFault P d ∧ EachFault P e := by
  simp [binary, hop]

@[simp] theorem eachFault_entry (role : NameRole) (key : String) :
    EachFault P (entry role key d) ↔ (key = "" → P (.emptyName role)) ∧ EachFault P d := by
  simp [entry]

end Draft

end GraphQuery
