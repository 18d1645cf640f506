import GraphQuery.Proofs.Name.Reading
import GraphQuery.Proofs.Number.Numeral
import GraphQuery.Proofs.Print.Layout
import GraphQuery.Proofs.Text.Scanning

set_option autoImplicit false

/-! # Line breaks in drafts

A string literal escapes its line breaks; a name keeps them, between backquotes. Words, marks,
numerals and blanks have none of their own in most drafts (`Draft.Inline`), and then the line breaks
in the text are those in the names that are written (`Draft.count_text`).
-/

namespace GraphQuery

/-! ## Characters that are written as they are

A name is escaped by doubling backquotes and a string by writing backslashes. Neither adds a line
break, and only a string takes line breaks away. -/

namespace Name

variable {c : Char}

theorem count_doubled (hc : c ≠ backquote) (cs : List Char) :
    (doubled cs).count c = cs.count c := by
  induction cs with
  | nil => rfl
  | cons d cs ih =>
      rw [doubled]
      split
      next hd => simp [hd, hc.symm, ih]
      · simp [List.count_cons, ih]

theorem count_backquoted (hc : c ≠ backquote) (cs : List Char) :
    (backquoted cs).count c = cs.count c := by
  simp [backquoted, hc.symm]

/-- Escaping a name leaves every character in it but the backquotes. -/
theorem count_written (hc : c ≠ backquote) (name : String) :
    (written name).count c = name.toList.count c := by
  unfold written
  split
  · rfl
  · rw [count_backquoted hc, count_doubled hc]

theorem count_writtenBinding (hc : c ≠ backquote) (name : String) :
    (writtenBinding name).count c = name.toList.count c := by
  unfold writtenBinding
  split
  · exact count_backquoted hc _
  · exact count_written hc name

/-- The characters of a dotted identifier. -/
theorem isPart_or_stop_of_isDotted {name : String} (h : isDotted name = true) :
    ∀ d ∈ name.toList, isPart d = true ∨ d = '.' := by
  rw [← intercalate_dotParts name.toList]
  refine (forall_mem_intercalate (by simp)).mpr fun part hpart d hd => Or.inl ?_
  have hplain := List.all_eq_true.mp h part hpart
  exact List.all_eq_true.mp (all_isPart_of_plainChars hplain) d hd

theorem newline_not_mem_of_isDotted {name : String} (h : isDotted name = true) :
    '\n' ∉ name.toList := by
  intro hmem
  exact absurd (isPart_or_stop_of_isDotted h _ hmem) (by decide)

end Name

namespace Number

theorem newline_not_mem_of_isDigit {ds : List Char} (h : ∀ c ∈ ds, c.isDigit = true) :
    '\n' ∉ ds := by
  intro hmem
  exact absurd (h _ hmem) (by decide)

/-- A number literal is written on one line. -/
theorem Literal.newline_not_mem_text {l : Literal} (h : l.WellFormed) : '\n' ∉ l.text := by
  have hwhole := newline_not_mem_of_isDigit h.whole_digits
  have hsign : ∀ negative, '\n' ∉ signText negative := by decide
  have hfraction : '\n' ∉ fractionText l.fraction := by
    unfold fractionText
    split
    · simp
    · simp [newline_not_mem_of_isDigit h.fraction_digits]
  have hexponent : '\n' ∉ exponentText l.exponent? := by
    cases he : l.exponent? with
    | none => simp [exponentText]
    | some e =>
        have hds := newline_not_mem_of_isDigit (h.exponent_digits e he).2
        simp [exponentText, hsign, hds]
  simp [text, hsign, hwhole, hfraction, hexponent]

end Number

theorem Text.newline_not_mem_quoted (text : String) : '\n' ∉ quoted text := by
  have hinside := not_mem_inside (Or.inl rfl) text
  rw [inside] at hinside
  simp [quoted, hinside]

/-! ## Pieces

The line breaks of a text are counted and not only found, because the number of lines is what two
layouts are compared by. -/

/-- A lexeme on one line: it has no line break but those of a name or a string. -/
def Lexeme.Inline : Lexeme → Prop
  | .word text | .mark text => '\n' ∉ text.toList
  | .numeral digits => '\n' ∉ digits
  | .gap blank => blank ≠ '\n'
  | .name _ | .binding _ | .quoted _ => True

def Lexeme.names : Lexeme → List String
  | .name raw | .binding raw => [raw]
  | .word _ | .mark _ | .numeral _ | .quoted _ | .gap _ => []

/-- The number of line breaks in some names. -/
def breaksIn (names : List String) : Nat := (names.map fun raw => raw.toList.count '\n').sum

theorem breaksIn_append (names names' : List String) :
    breaksIn (names ++ names') = breaksIn names + breaksIn names' := by
  simp [breaksIn]

theorem breaksIn_eq_zero_iff {names : List String} :
    breaksIn names = 0 ↔ ∀ raw ∈ names, '\n' ∉ raw.toList := by
  rw [breaksIn, List.sum_eq_zero_iff, List.forall_mem_map]
  simp only [List.count_eq_zero]

/-- The line breaks in a lexeme on one line are those of the name in it. -/
theorem Lexeme.count_written {l : Lexeme} (h : l.Inline) :
    l.written.count '\n' = breaksIn l.names := by
  cases l with
  | word text | mark text | numeral digits => exact List.count_eq_zero.mpr h
  | name raw => exact (Name.count_written (by decide) raw).trans (by simp [breaksIn, names])
  | binding raw =>
      exact (Name.count_writtenBinding (by decide) raw).trans (by simp [breaksIn, names])
  | quoted raw => exact List.count_eq_zero.mpr (Text.newline_not_mem_quoted raw)
  | gap blank => exact List.count_eq_zero.mpr (by simpa [written] using Ne.symm h)

namespace Piece

def Inline : Piece → Prop
  | .lexeme l => l.Inline
  | .var _ | .param _ | .fault _ => True

/-- The name that a piece writes, if it does. -/
def names (n : Names) : Piece → List String
  | .lexeme l => l.names
  | .var v => [n.var v]
  | .param p => [n.param p]
  | .fault _ => []

theorem count_written (n : Names) {p : Piece} (h : p.Inline) :
    (p.written n).count '\n' = breaksIn (p.names n) := by
  cases p with
  | lexeme l => exact Lexeme.count_written h
  | var v => exact Lexeme.count_written (l := .binding (n.var v)) trivial
  | param p => exact Lexeme.count_written (l := .binding (n.param p)) trivial
  | fault e => rfl

end Piece

/-! ## Drafts

The condition of being on one line passes through layout as the conditions on faults do. The
names of functions are words, so they enter with the characters that a dotted identifier can
have. -/

namespace Draft

def Inline (d : Draft) : Prop := ∀ p ∈ d, p.Inline

/-- The names that a draft writes: those of variables and parameters, labels, types and keys. -/
def names (n : Names) (d : Draft) : List String := d.flatMap (Piece.names n)

/-- **The line breaks in the text of a draft on one line are those in the names that it writes.** -/
theorem count_text (n : Names) {d : Draft} (h : Inline d) :
    (d.text n).count '\n' = breaksIn (d.names n) := by
  induction d with
  | nil => rfl
  | cons p d ih =>
      obtain ⟨hp, hd⟩ := List.forall_mem_cons.mp h
      rw [text, names, List.flatMap_cons, List.flatMap_cons, List.count_append, breaksIn_append,
        Piece.count_written n hp]
      exact congrArg _ (ih hd)

variable {p : Piece} {d e : Draft} {ds : List Draft}

@[simp] theorem inline_lexeme (l : Lexeme) : (Piece.lexeme l).Inline ↔ l.Inline := Iff.rfl

@[simp] theorem inline_var (v : Variable) : (Piece.var v).Inline ↔ True := Iff.rfl

@[simp] theorem inline_param (q : Param) : (Piece.param q).Inline ↔ True := Iff.rfl

@[simp] theorem inline_fault (e : RenderError) : (Piece.fault e).Inline ↔ True := Iff.rfl

@[simp] theorem inline_word (t : String) : (word t).Inline ↔ '\n' ∉ t.toList := Iff.rfl

@[simp] theorem inline_lexemeMark (t : String) :
    (Lexeme.mark t).Inline ↔ '\n' ∉ t.toList := Iff.rfl

@[simp] theorem inline_mark (t : String) : (mark t).Inline ↔ '\n' ∉ t.toList := Iff.rfl

@[simp] theorem inline_numeral (ds : List Char) :
    (Lexeme.numeral ds).Inline ↔ '\n' ∉ ds := Iff.rfl

@[simp] theorem inline_quoted (raw : String) : (Lexeme.quoted raw).Inline ↔ True := Iff.rfl

@[simp] theorem inline_space : space.Inline ↔ True := by
  simp [space, Piece.Inline, Lexeme.Inline]

@[simp] theorem inline_name (role : NameRole) (raw : String) : (name role raw).Inline ↔ True := by
  unfold name
  split <;> exact Iff.rfl

@[simp] theorem inline_nil : Inline [] ↔ True := by simp [Inline]

@[simp] theorem inline_cons : Inline (p :: d) ↔ p.Inline ∧ Inline d := List.forall_mem_cons

@[simp] theorem inline_append : Inline (d ++ e) ↔ Inline d ∧ Inline e := List.forall_mem_append

theorem inline_flatMap {α : Type} {f : α → Draft} {xs : List α} :
    Inline (xs.flatMap f) ↔ ∀ x ∈ xs, Inline (f x) :=
  List.forall_mem_flatMap

theorem inline_intercalate {sep : Draft} (hsep : Inline sep) :
    Inline (sep.intercalate ds) ↔ ∀ d ∈ ds, Inline d :=
  forall_mem_intercalate hsep

@[simp] theorem inline_commas : Inline (commas ds) ↔ ∀ d ∈ ds, Inline d :=
  inline_intercalate (by simp)

@[simp] theorem inline_words (ws : List String) :
    Inline (words ws) ↔ ∀ w ∈ ws, '\n' ∉ w.toList := by
  rw [words_eq_intercalate, inline_intercalate (by simp)]
  simp

@[simp] theorem inline_parens : Inline (parens d) ↔ Inline d := by simp [parens]

@[simp] theorem inline_parensIf (needed : Bool) : Inline (parensIf needed d) ↔ Inline d := by
  cases needed with
  | false => exact Iff.rfl
  | true => exact inline_parens

@[simp] theorem inline_brackets : Inline (brackets d) ↔ Inline d := by simp [brackets]

@[simp] theorem inline_braces : Inline (braces d) ↔ Inline d := by simp [braces]

theorem inline_binary {op : Draft} (hop : Inline op) :
    Inline (binary d op e) ↔ Inline d ∧ Inline e := by
  simp [binary, hop]

@[simp] theorem inline_entry (role : NameRole) (key : String) :
    Inline (entry role key d) ↔ Inline d := by simp [entry]

end Draft

end GraphQuery
