import GraphQuery.Proofs.Expr.Induction
import GraphQuery.Proofs.Print.Layout

set_option autoImplicit false

/-! # Printing values and expressions

The text of a value or an expression by recursion on it, with a name for every variable and every
parameter, and the mentions in an expression in the order in which they are printed. Both agree with
its draft.
-/

namespace GraphQuery

/-! ## Operators

An operator has neither names nor faults, so its text is the same for all names. -/

/-- A comparison operator as it is written. -/
def Comparison.print : Comparison → List Char
  | .equal => ['=']
  | .notEqual => ['<', '>']
  | .less => ['<']
  | .greater => ['>']
  | .lessOrEqual => ['<', '=']
  | .greaterOrEqual => ['>', '=']
  | .contains => Text.words ["CONTAINS"]
  | .startsWith => Text.words ["STARTS", "WITH"]
  | .endsWith => Text.words ["ENDS", "WITH"]
  | .member => Text.words ["IN"]
  | .regex => ['=', '~']

/-- An arithmetic operator as it is written. -/
def Arithmetic.print : Arithmetic → List Char
  | .add => ['+']
  | .subtract => ['-']
  | .multiply => ['*']
  | .divide => ['/']
  | .modulo => ['%']
  | .power => ['^']

def Connective.print (op : Connective) : List Char := ' ' :: (op.text.toList ++ [' '])

theorem Comparison.text_draft (n : Names) (op : Comparison) : op.draft.text n = op.print := by
  cases op <;> first | exact Draft.text_words _ | rfl

theorem Comparison.mentions_draft (op : Comparison) : op.draft.mentions = [] := by
  cases op <;> first | exact Draft.mentions_words _ | rfl

theorem Arithmetic.text_draft (n : Names) (op : Arithmetic) : op.draft.text n = op.print := by
  cases op <;> rfl

theorem Arithmetic.mentions_draft (op : Arithmetic) : op.draft.mentions = [] := by
  cases op <;> rfl

/-! ## Values

A value mentions nothing. Its text is that of its draft if nothing in it is without a literal;
where something is, the draft has a fault and the text is not meant. -/

namespace Value

/-- The text of a value. A byte array has none. -/
def print : Value → List Char
  | .null => "NULL".toList
  | .boolean b => (if b then "true" else "false").toList
  | .integer n => Number.integerNumeral n.toInt
  | .float x => Number.floatNumeral x
  | .string s => Text.quoted s
  | .list items => Text.brackets (Text.commas (items.map print))
  | .map entries => Text.braces (Text.commas (entries.map fun e => Text.entry e.1 e.2.print))
  | .bytes _ => []
decreasing_by
  · have := List.sizeOf_lt_of_mem ‹_›
    simp_wf
    omega
  · have := sizeOf_value_lt_of_mem ‹_›
    simp_wf
    omega

theorem text_draft (n : Names) (v : Value) (h : Draft.Sound v.draft) :
    v.draft.text n = v.print := by
  induction v with
  | null => rw [print]; rfl
  | boolean b => rw [print]; cases b <;> rfl
  | integer m => rw [print, draft, Draft.text_cons]; exact List.append_nil _
  | float x =>
      rw [draft] at h ⊢
      split at h
      next hx =>
          rw [print, if_pos hx, Draft.text_cons]
          exact List.append_nil _
      · simp [noLiteral, Piece.isFault] at h
  | string s => rw [print, draft, Draft.text_cons]; exact List.append_nil _
  | list items ih =>
      rw [draft, draftItems_eq_map] at h
      rw [draft, print, draftItems_eq_map, Draft.text_brackets, Draft.text_commas,
        Draft.map_text_map]
      exact fun v hv => ih v hv (h.of_brackets.of_commas (List.mem_map_of_mem hv))
  | map entries ih =>
      rw [draft, draftEntries_eq_map] at h
      rw [draft, print, draftEntries_eq_map, Draft.text_braces, Draft.text_commas,
        Draft.map_text_map]
      intro e he
      have hentry := h.of_braces.of_commas (List.mem_map_of_mem he)
      rw [Draft.text_entry hentry, ih e he hentry.of_entry]
  | bytes data => simp [draft, noLiteral, Piece.isFault] at h

theorem mentions_draft (v : Value) : v.draft.mentions = [] := by
  induction v with
  | null | boolean b | integer m | string s | bytes data => rfl
  | float x => rw [draft]; split <;> rfl
  | list items ih =>
      rw [draft, draftItems_eq_map, Draft.mentions_brackets, Draft.mentions_commas,
        List.flatMap_map, List.flatMap_eq_nil_iff]
      exact ih
  | map entries ih =>
      rw [draft, draftEntries_eq_map, Draft.mentions_braces, Draft.mentions_commas,
        List.flatMap_map, List.flatMap_eq_nil_iff]
      intro e he
      rw [Draft.mentions_entry, ih e he]

end Value

/-! ## Expressions

Text and mentions are two recursions with the same cases. A draft joins them: it has the
characters of the one and the order of the other, and the two theorems at the end read both off
it. -/

namespace Expr

/-- The text of an expression. -/
def print (n : Names) : Expr → List Char
  | .var v => (Mention.var v).written n
  | .property v key => (Mention.var v).written n ++ '.' :: Name.written key
  | .param p => (Mention.param p).written n
  | .literal value => value.print
  | .list items => Text.brackets (Text.commas (items.map (print n)))
  | .map entries => Text.braces (Text.commas (entries.map fun e => Text.entry e.1 (e.2.print n)))
  | .compare op left right =>
      Text.binary (Text.parensIf left.needsParensInComparison (left.print n)) op.print
        (Text.parensIf right.needsParensInComparison (right.print n))
  | .isNull operand negated =>
      Text.parensIf operand.needsParensInComparison (operand.print n) ++
        ' ' :: Text.words (if negated then ["IS", "NOT", "NULL"] else ["IS", "NULL"])
  | .arith op left right =>
      Text.binary (Text.parensIf (left.precedence < op.precedence) (left.print n)) op.print
        (Text.parensIf (right.precedence ≤ op.precedence) (right.print n))
  | .group op operands =>
      op.print.intercalate
        (operands.map fun e => Text.parensIf (e.needsParensInGroup op) (e.print n))
  | .not operand =>
      "NOT".toList ++ ' ' :: Text.parensIf (operand.precedence < .not) (operand.print n)
  | .call name distinct args =>
      name.toList ++ Text.parens ((if distinct then "DISTINCT".toList ++ [' '] else []) ++
        Text.commas (args.map (print n)))
decreasing_by
  all_goals simp_wf
  all_goals first
    | omega
    | (have hmem := List.sizeOf_lt_of_mem ‹_›; omega)
    | (have hmem := sizeOf_value_lt_of_mem ‹_›; omega)

/-- The mentions in an expression, in the order in which they are printed. -/
def mentions : Expr → List Mention
  | .var v => [.var v]
  | .property v _ => [.var v]
  | .param p => [.param p]
  | .literal _ => []
  | .list items => items.flatMap mentions
  | .map entries => entries.flatMap fun e => e.2.mentions
  | .compare _ left right => left.mentions ++ right.mentions
  | .isNull operand _ => operand.mentions
  | .arith _ left right => left.mentions ++ right.mentions
  | .group _ operands => operands.flatMap mentions
  | .not operand => operand.mentions
  | .call _ _ args => args.flatMap mentions
decreasing_by
  all_goals simp_wf
  all_goals first
    | omega
    | (have hmem := List.sizeOf_lt_of_mem ‹_›; omega)
    | (have hmem := sizeOf_value_lt_of_mem ‹_›; omega)

theorem text_entries {n : Names} {role : NameRole} {entries : List (String × Expr)}
    (ih : ∀ e ∈ entries, Draft.Sound e.2.draft → e.2.draft.text n = e.2.print n)
    (h : Draft.Sound (Draft.commas (draftEntries role entries))) :
    Draft.text n (Draft.commas (draftEntries role entries)) =
      Text.commas (entries.map fun e => Text.entry e.1 (e.2.print n)) := by
  rw [draftEntries_eq_map] at h ⊢
  rw [Draft.text_commas, Draft.map_text_map]
  intro e he
  have hentry := h.of_commas (List.mem_map_of_mem he)
  rw [Draft.text_entry hentry, ih e he hentry.of_entry]

theorem text_items {n : Names} {items : List Expr}
    (ih : ∀ e ∈ items, Draft.Sound e.draft → e.draft.text n = e.print n)
    (h : Draft.Sound (Draft.commas (draftItems items))) :
    Draft.text n (Draft.commas (draftItems items)) = Text.commas (items.map (print n)) := by
  rw [draftItems_eq_map] at h ⊢
  rw [Draft.text_commas, Draft.map_text_map]
  exact fun e he => ih e he (h.of_commas (List.mem_map_of_mem he))

/-- The text of the draft of an expression is the expression printed. -/
theorem text_draft (n : Names) (e : Expr) (h : Draft.Sound e.draft) :
    e.draft.text n = e.print n := by
  induction e with
  | var v => rw [print, draft, Draft.text_cons]; exact List.append_nil _
  | property v key =>
      rw [draft, Draft.sound_cons, Draft.sound_cons, Draft.sound_cons] at h
      obtain ⟨-, -, hkey, -⟩ := h
      rw [print, draft, Draft.text_cons, Draft.text_cons, Draft.text_cons,
        Draft.written_name hkey, Draft.text_nil, List.append_nil]
      rfl
  | param p =>
      rw [print, draft, Draft.text_cons, Draft.text_cons, Draft.text_nil, List.append_nil]
      rfl
  | literal value => rw [print, draft, Value.text_draft n value h]
  | list items ih =>
      rw [draft] at h ⊢
      rw [print, Draft.text_brackets, text_items ih h.of_brackets]
  | map entries ih =>
      rw [draft] at h ⊢
      rw [print, Draft.text_braces, text_entries ih h.of_braces]
  | compare op left right ihl ihr =>
      rw [draft] at h ⊢
      obtain ⟨hl, hr⟩ := h.of_binary
      rw [print, Draft.text_binary, Draft.text_parensIf, Draft.text_parensIf, op.text_draft,
        ihl hl.of_parensIf, ihr hr.of_parensIf]
  | isNull operand negated ih =>
      rw [draft] at h ⊢
      rw [print, Draft.text_append, Draft.text_parensIf, Draft.text_cons, Draft.text_words,
        ih (Draft.sound_append.mp h).1.of_parensIf]
      rfl
  | arith op left right ihl ihr =>
      rw [draft] at h ⊢
      obtain ⟨hl, hr⟩ := h.of_binary
      rw [print, Draft.text_binary, Draft.text_parensIf, Draft.text_parensIf, op.text_draft,
        ihl hl.of_parensIf, ihr hr.of_parensIf]
  | group op operands ih =>
      rw [draft, draftOperands_eq_map] at h ⊢
      -- the connective with its blanks is the separator of the operands
      have hsep : Draft.text n [Draft.space, Draft.word op.text, Draft.space] = op.print := by
        rw [Connective.print]
        rfl
      rw [print, Draft.text_intercalate, hsep, Draft.map_text_map]
      intro e he
      rw [Draft.text_parensIf, ih e he (h.of_intercalate (List.mem_map_of_mem he)).of_parensIf]
  | not operand ih =>
      rw [draft] at h ⊢
      rw [print, Draft.text_cons, Draft.text_cons, Draft.text_parensIf,
        ih (Draft.sound_cons.mp (Draft.sound_cons.mp h).2).2.of_parensIf]
      rfl
  | call name distinct args ih =>
      rw [draft] at h ⊢
      have hargs := (Draft.sound_append.mp (Draft.sound_cons.mp h).2.of_parens).2
      rw [print, Draft.text_cons, Draft.text_parens, Draft.text_append, text_items ih hargs]
      cases distinct <;> rfl

/-- The mentions in the draft of an expression are those in the expression. -/
theorem mentions_draft (e : Expr) : e.draft.mentions = e.mentions := by
  induction e with
  | var v | property v key | param p => simp [draft, mentions]
  | literal value => rw [draft, mentions, value.mentions_draft]
  | list items ih =>
      rw [draft, mentions, draftItems_eq_map, Draft.mentions_brackets, Draft.mentions_commas,
        List.flatMap_map]
      exact List.flatMap_congr ih
  | map entries ih =>
      rw [draft, mentions, draftEntries_eq_map, Draft.mentions_braces, Draft.mentions_commas,
        List.flatMap_map]
      refine List.flatMap_congr fun e he => ?_
      rw [Draft.mentions_entry, ih e he]
  | compare op left right ihl ihr =>
      rw [draft, mentions, Draft.mentions_binary op.mentions_draft, Draft.mentions_parensIf,
        Draft.mentions_parensIf, ihl, ihr]
  | isNull operand negated ih =>
      rw [draft, mentions, Draft.mentions_append, Draft.mentions_parensIf, Draft.mentions_cons,
        Draft.mentions_words, ih, Draft.mentions_space, List.append_nil, List.append_nil]
  | arith op left right ihl ihr =>
      rw [draft, mentions, Draft.mentions_binary op.mentions_draft, Draft.mentions_parensIf,
        Draft.mentions_parensIf, ihl, ihr]
  | group op operands ih =>
      rw [draft, mentions, draftOperands_eq_map, Draft.mentions_intercalate rfl, List.flatMap_map]
      refine List.flatMap_congr fun e he => ?_
      rw [Draft.mentions_parensIf, ih e he]
  | not operand ih =>
      rw [draft, mentions, Draft.mentions_cons, Draft.mentions_cons, Draft.mentions_parensIf, ih]
      rfl
  | call name distinct args ih =>
      have hargs : Draft.mentions (Draft.commas (draftItems args)) = args.flatMap mentions := by
        rw [draftItems_eq_map, Draft.mentions_commas, List.flatMap_map]
        exact List.flatMap_congr ih
      rw [draft, mentions, Draft.mentions_cons, Draft.mentions_parens, Draft.mentions_append, hargs]
      cases distinct <;> rfl

end Expr

end GraphQuery
