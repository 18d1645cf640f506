import GraphQuery.Proofs.Draft.Lines
import GraphQuery.Proofs.Expr.Every
import GraphQuery.Proofs.Print.TwoPass

set_option autoImplicit false

/-! # Lines of a query text

The settings decide what stands between two clauses, a line break or a blank, and nothing else: the
other layout gives the same parameters and the same texts of clauses. A clause is on one line unless
a name in it holds a line break, which is written as it is (`Statement.build_layouts`).
-/

namespace GraphQuery

open Draft (Inline)

/-! ## Values and expressions

The draft of a literal and that of an expression are on one line. Numerals are digits, strings
escape their line breaks, and the word of a call is a dotted identifier. -/

theorem Value.inline_draft (v : Value) : Inline v.draft := by
  induction v with
  | null | bytes data => simp [draft, noLiteral]
  | string s => simp [draft]
  | boolean b => cases b <;> simp [draft]
  | integer n =>
      have hliteral := Number.Literal.newline_not_mem_text (Number.Literal.wellFormed_ofInt n.toInt)
      rw [Number.Literal.text_ofInt] at hliteral
      simpa [draft] using hliteral
  | float x =>
      have hliteral := Number.Literal.newline_not_mem_text (Number.Literal.wellFormed_ofFloat x)
      rw [Number.Literal.text_ofFloat] at hliteral
      rw [draft]
      split
      · simpa using hliteral
      · simp [noLiteral]
  | list items ih =>
      rw [draft, draftItems_eq_map, Draft.inline_brackets, Draft.inline_commas, List.forall_mem_map]
      exact ih
  | map entries ih =>
      rw [draft, draftEntries_eq_map, Draft.inline_braces, Draft.inline_commas, List.forall_mem_map]
      exact fun e he => (Draft.inline_entry _ _).mpr (ih e he)

theorem Comparison.inline_draft (op : Comparison) : Inline op.draft := by
  cases op <;> simp [draft]

theorem Arithmetic.inline_draft (op : Arithmetic) : Inline op.draft := by
  cases op <;> simp [draft]

namespace Expr

theorem inline_entries {role : NameRole} {entries : List (String × Expr)}
    (h : ∀ e ∈ entries, Inline e.2.draft) : Inline (Draft.commas (draftEntries role entries)) := by
  rw [draftEntries_eq_map, Draft.inline_commas, List.forall_mem_map]
  exact fun e he => (Draft.inline_entry _ _).mpr (h e he)

theorem inline_items {items : List Expr} (h : ∀ e ∈ items, Inline e.draft) :
    Inline (Draft.commas (draftItems items)) := by
  rw [draftItems_eq_map, Draft.inline_commas, List.forall_mem_map]
  exact h

/-- An expression is on one line: the names of functions are identifiers. -/
theorem inline_draft {e : Expr} (h : e.Every Named) : Inline e.draft := by
  induction e with
  | var v | property v key | param p => simp [draft]
  | literal value => exact value.inline_draft
  | list items ih =>
      rw [Every] at h
      rw [draft, Draft.inline_brackets]
      exact inline_items fun e he => ih e he (h.2 e he)
  | map entries ih =>
      rw [Every] at h
      rw [draft, Draft.inline_braces]
      exact inline_entries fun e he => ih e he (h.2 e he)
  | compare op left right ihl ihr =>
      rw [Every] at h
      rw [draft, Draft.inline_binary op.inline_draft, Draft.inline_parensIf, Draft.inline_parensIf]
      exact ⟨ihl h.2.1, ihr h.2.2⟩
  | isNull operand negated ih =>
      rw [Every] at h
      rw [draft, Draft.inline_append, Draft.inline_parensIf]
      refine ⟨ih h.2, ?_⟩
      cases negated <;> simp
  | arith op left right ihl ihr =>
      rw [Every] at h
      rw [draft, Draft.inline_binary op.inline_draft, Draft.inline_parensIf, Draft.inline_parensIf]
      exact ⟨ihl h.2.1, ihr h.2.2⟩
  | group op operands ih =>
      rw [Every] at h
      have hsep : Inline [Draft.space, Draft.word op.text, Draft.space] := by
        cases op <;> simp [Connective.text]
      rw [draft, draftOperands_eq_map, Draft.inline_intercalate hsep, List.forall_mem_map]
      exact fun e he => (Draft.inline_parensIf _).mpr (ih e he (h.2 e he))
  | not operand ih =>
      rw [Every] at h
      simp [draft, ih h.2]
  | call name distinct args ih =>
      rw [Every] at h
      have hname := Name.newline_not_mem_of_isDotted h.1
      have hargs := inline_items fun e he => ih e he (h.2 e he)
      cases distinct <;> simp [draft, hname, hargs]

end Expr

/-! ## Patterns

Labels, types and keys are names, so they need no condition: a draft is on one line whatever the
names in it are. -/

theorem Properties.inline_draft {ps : Properties} (h : ∀ e ∈ ps.exprs, e.Every Expr.Named) :
    Inline ps.draft := by
  have hentries : Inline (Draft.commas (Expr.draftEntries .propertyKey ps)) :=
    Expr.inline_entries fun e he => Expr.inline_draft (h e.2 (List.mem_map_of_mem he))
  unfold draft
  split <;> simp [hentries]

theorem Node.inline_draft {x : Node}
    (h : ∀ e ∈ Properties.exprs x.properties, e.Every Expr.Named) : Inline x.draft := by
  have hlabels : Inline (x.labels.flatMap fun l => [Draft.mark ":", Draft.name .label l]) :=
    Draft.inline_flatMap.mpr fun l _ => by simp
  simp [draft, hlabels, Properties.inline_draft h]

theorem Hops.inline_lexemes (hops : Hops) : ∀ l ∈ hops.lexemes, l.Inline := by
  have hcount : ∀ k, (Draft.count k).Inline := fun k =>
    Number.newline_not_mem_of_isDigit (Number.isDigit_naturalNumeral k)
  unfold lexemes
  split
  · simp
  · split <;> simp [hcount]
  · simp [hcount]
  · simp [hcount]

theorem Relationship.inline_draft {r : Relationship}
    (h : ∀ e ∈ Properties.exprs r.properties, e.Every Expr.Named) : Inline r.draft := by
  have htype : Inline (r.type?.elim [] typeDraft) := by
    cases r.type? <;> simp [typeDraft]
  have hhops : Inline (r.hops?.elim [] fun hops => hops.lexemes.map .lexeme) := by
    cases r.hops? with
    | none => simp
    | some hops => exact List.forall_mem_map.mpr hops.inline_lexemes
  rw [draft_eq]
  simp [htype, hhops, Properties.inline_draft h]

theorem Segment.inline_draft {s : Segment} (h : ∀ e ∈ s.exprs, e.Every Expr.Named) :
    Inline s.draft := by
  obtain ⟨hrelationship, hnode⟩ := List.forall_mem_append.mp h
  have harrow : s.direction.before.Inline ∧ s.direction.after.Inline := by
    cases s.direction <;> simp [Direction.before, Direction.after]
  simp [draft, harrow, Relationship.inline_draft hrelationship, Node.inline_draft hnode]

theorem Pattern.inline_draft {p : Pattern} (h : ∀ e ∈ p.exprs, e.Every Expr.Named) :
    Inline p.draft := by
  obtain ⟨hstart, hsegments⟩ := List.forall_mem_append.mp h
  rw [draft, Draft.inline_append, Draft.inline_flatMap]
  exact ⟨Node.inline_draft hstart, fun s hs => Segment.inline_draft fun e he =>
    hsegments e (List.mem_flatMap.mpr ⟨s, hs, he⟩)⟩

/-! ## Clauses

Clause by clause the condition is that all expressions in it are on one line. -/

theorem Item.inline_draft {i : Item} (h : i.expr.Every Expr.Named) : Inline i.draft := by
  rw [draft_eq, Draft.inline_append]
  refine ⟨Expr.inline_draft h, ?_⟩
  cases i.shownAlias? <;> simp

theorem Projection.inline_draft {p : Projection}
    (h : ∀ e ∈ p.items.toList.map Item.expr, e.Every Expr.Named) : Inline p.draft := by
  have hitems : Inline (Draft.commas (p.items.toList.map Item.draft)) :=
    Draft.inline_commas.mpr (List.forall_mem_map.mpr fun i hi =>
      Item.inline_draft (h i.expr (List.mem_map_of_mem hi)))
  unfold draft
  cases p.distinct <;> simpa using hitems

theorem SortItem.inline_draft {i : SortItem} (h : i.expr.Every Expr.Named) : Inline i.draft := by
  unfold draft
  cases i.descending <;> simp [Expr.inline_draft h]

theorem Assignment.inline_draft {a : Assignment} (h : a.value.Every Expr.Named) :
    Inline a.draft := by
  simp [draft, Expr.inline_draft h]

namespace Clause

theorem inline_patterns {patterns : OneOrMore Pattern}
    (h : ∀ e ∈ patterns.toList.flatMap Pattern.exprs, e.Every Expr.Named) :
    Inline (Draft.commas (patterns.toList.map Pattern.draft)) :=
  Draft.inline_commas.mpr (List.forall_mem_map.mpr fun p hp => Pattern.inline_draft fun e he =>
    h e (List.mem_flatMap.mpr ⟨p, hp, he⟩))

theorem inline_body {c : Clause} (h : c.Every Expr.Named) : Inline c.body := by
  cases c with
  | matching optional patterns | create patterns => exact inline_patterns h
  | filter e | skip e | limit e => exact Expr.inline_draft (h e (List.mem_singleton_self e))
  | projecting projection | returning projection => exact Projection.inline_draft h
  | orderBy items =>
      exact Draft.inline_commas.mpr (List.forall_mem_map.mpr fun i hi =>
        SortItem.inline_draft (h i.expr (List.mem_map_of_mem hi)))
  | unwind source target =>
      have hsource := Expr.inline_draft (h source (List.mem_singleton_self source))
      simp [body, hsource]
  | merge pattern => exact Pattern.inline_draft h
  | set assignments =>
      exact Draft.inline_commas.mpr (List.forall_mem_map.mpr fun a ha =>
        Assignment.inline_draft (h a.value (List.mem_map_of_mem ha)))
  | delete detach targets => simp [body]

/-- A clause is on one line but for the names in it. -/
theorem inline_draft {c : Clause} (h : c.Every Expr.Named) : Inline c.draft := by
  have hwords : ∀ k : Keyword, ∀ w ∈ k.words, '\n' ∉ w.toList := by
    intro k
    cases k <;> decide
  rw [draft, Draft.inline_append, Draft.inline_words, Draft.inline_cons]
  exact ⟨hwords c.keyword, Draft.inline_space.mpr trivial, inline_body h⟩

end Clause

/-! ## Another layout

The settings of a scope are asked for prefixes while a draft is filled in, and never for the
layout. Another layout leads to the same namings, so a build in one layout tells what a build in
the other one comes to. -/

namespace Scope

/-- A scope whose settings ask for another layout. -/
def laidOut (pretty : Bool) (s : Scope) : Scope :=
  { s with settings := { s.settings with pretty := pretty } }

variable (s : Scope) (pretty : Bool)

theorem nameVar_laidOut (v : Variable) :
    (s.laidOut pretty).nameVar v = ((s.nameVar v).1, (s.nameVar v).2.laidOut pretty) := by
  have hstem : (s.laidOut pretty).settings.prefixFor v.kind = s.settings.prefixFor v.kind := by
    cases v.kind <;> rfl
  have hvars : (s.laidOut pretty).vars = s.vars := rfl
  unfold nameVar
  rw [hstem, hvars]
  cases s.vars.name (s.settings.prefixFor v.kind) v.name? v <;> rfl

theorem nameParam_laidOut (p : Param) :
    (s.laidOut pretty).nameParam p = ((s.nameParam p).1, (s.nameParam p).2.laidOut pretty) := by
  have hstem : (s.laidOut pretty).settings.paramPrefix = s.settings.paramPrefix := rfl
  have hparams : (s.laidOut pretty).params = s.params := rfl
  unfold nameParam
  rw [hstem, hparams]
  cases s.params.name s.settings.paramPrefix p.name? p <;> rfl

theorem lexemeIn_laidOut (p : Piece) :
    p.lexemeIn (s.laidOut pretty) = ((p.lexemeIn s).1, (p.lexemeIn s).2.laidOut pretty) := by
  cases p with
  | lexeme l | fault e => rfl
  | var v => simp only [Piece.lexemeIn, nameVar_laidOut]
  | param p => simp only [Piece.lexemeIn, nameParam_laidOut]

/-- The layout that the settings ask for has no part in filling a draft. -/
theorem fill_laidOut (d : Draft) :
    (s.laidOut pretty).fill d = ((s.fill d).1, (s.fill d).2.laidOut pretty) := by
  induction d generalizing s with
  | nil => rfl
  | cons p d ih =>
      rw [fill, fill, lexemeIn_laidOut]
      rcases p.lexemeIn s with ⟨e | l, t⟩
      · rfl
      · simp only [ih]

theorem render_laidOut (d : Draft) :
    (s.laidOut pretty).render d = ((s.render d).1, (s.render d).2.laidOut pretty) := by
  rw [render, render, fill_laidOut]

end Scope

/-- A lexeme between two drafts of a list is left out of their outline. -/
theorem Draft.outline_intercalate (l : Lexeme) (ds : List Draft) :
    Draft.outline ([.lexeme l].intercalate ds) = ds.flatMap Draft.outline := by
  cases ds with
  | nil => rfl
  | cons d ds =>
      rw [intercalate_cons, outline_append, List.flatMap_cons, outline, outline,
        List.filter_flatMap]
      rfl

namespace Statement

variable {settings : Settings} {st : Statement} {q : Query}

theorem outline_draft (st : Statement) (separator : Char) :
    (st.draft separator).outline = st.clauses.flatMap fun c => Draft.outline c.draft := by
  rw [draft, Draft.outline_intercalate, List.flatMap_map]

/-- What is built in one layout is built in the other one, with the same parameters, and the text is
the statement printed with the same names. -/
theorem exists_build_laidOut (h : (st.build settings).result = .ok q) (pretty : Bool) :
    ∃ q', (st.build { settings with pretty := pretty }).result = .ok q' ∧ q'.params = q.params ∧
      q'.text.toList = st.print (st.namesIn settings)
        { settings with pretty := pretty }.separator := by
  obtain ⟨s', hrender, hvalues⟩ := build_eq_ok_iff.mp h
  -- first the other separator in the same scope, then the scope of the other layout
  have houtline := (st.outline_draft settings.separator).trans
    (st.outline_draft { settings with pretty := pretty }.separator).symm
  obtain ⟨text, hother⟩ := Scope.exists_render_of_outline houtline hrender
  have hlaidOut := (Scope.new settings).render_laidOut pretty
    (st.draft { settings with pretty := pretty }.separator)
  rw [hother] at hlaidOut
  obtain ⟨hnamed, hsound, htext⟩ := Scope.render_ok hother
  rw [mentions_draft] at hnamed
  refine ⟨⟨text, q.params⟩, build_eq_ok_iff.mpr ⟨_, hlaidOut, hvalues⟩, rfl, ?_⟩
  rw [htext, text_draft _ _ _ hsound, namesIn_eq hnamed]

end Statement

/-! ## Lines

There is one line more than there are line breaks, and the line breaks are counted: those of the
names and, with one clause a line, those between two clauses. -/

/-- What a separator adds to the occurrences of a character. -/
theorem count_intercalate (c : Char) (sep : List Char) (css : List (List Char)) :
    (sep.intercalate css).count c =
      (css.map (List.count c)).sum + (css.length - 1) * sep.count c := by
  cases css with
  | nil => simp [List.intercalate]
  | cons cs css =>
      rw [intercalate_cons, List.count_append, List.count_flatMap, List.map_cons, List.sum_cons,
        List.length_cons, Nat.add_sub_cancel, Nat.add_assoc]
      refine congrArg _ ?_
      induction css with
      | nil => simp
      | cons ds dss ih =>
          rw [List.map_cons, List.sum_cons, ih, List.map_cons, List.sum_cons, List.length_cons,
            Function.comp_apply, List.count_append]
          ring

/-- There is one line more than there are line breaks. -/
theorem length_splitOn (c : Char) (cs : List Char) :
    (cs.splitOn c).length = cs.count c + 1 := by
  induction cs with
  | nil => rfl
  | cons d cs ih =>
      rw [List.splitOn_cons_eq_if_modifyHead, List.count_cons]
      split <;> simp [ih]

def Query.lines (q : Query) : List (List Char) := q.text.toList.splitOn '\n'

namespace Statement

variable {settings : Settings} {st : Statement} {n : Names}

/-- The names that the text of a statement writes: those of variables and parameters, labels, types
and keys. -/
def writtenNames (n : Names) (st : Statement) : List String := (st.draft ' ').names n

/-- No name that the text of a statement writes holds a line break. -/
def Unbroken (n : Names) (st : Statement) : Prop := ∀ raw ∈ st.writtenNames n, '\n' ∉ raw.toList

def clauseTexts (n : Names) (st : Statement) : List String :=
  st.clauses.map fun c => String.ofList (c.print n)

theorem inline_draft (hnamed : st.Every Expr.Named) : Inline (st.draft ' ') := by
  rw [draft, Draft.inline_intercalate (by simp [Lexeme.Inline]), List.forall_mem_map]
  exact fun c hc => Clause.inline_draft (hnamed c hc)

/-- On a single line the line breaks in the text of a statement are those in its names. -/
theorem count_print_blank (hnamed : st.Every Expr.Named) (hsound : Draft.Sound (st.draft ' ')) :
    (st.print n ' ').count '\n' = breaksIn (st.writtenNames n) := by
  rw [← st.text_draft n ' ' hsound]
  exact Draft.count_text n (inline_draft hnamed)

theorem unbroken_iff (hnamed : st.Every Expr.Named) (hsound : Draft.Sound (st.draft ' ')) :
    st.Unbroken n ↔ '\n' ∉ st.print n ' ' := by
  rw [Unbroken, ← breaksIn_eq_zero_iff, ← count_print_blank hnamed hsound, List.count_eq_zero]

/-- With one clause a line there is a line for each clause, and one more for each line break that
the text has on a single line. -/
theorem length_lines {q : Query} (hclauses : st.clauses ≠ [])
    (h : q.text.toList = st.print n '\n') :
    q.lines.length = (st.print n ' ').count '\n' + st.clauses.length := by
  have hpositive : 0 < st.clauses.length := List.length_pos_iff.mpr hclauses
  have hnewline : (st.print n '\n').count '\n' =
      (st.print n ' ').count '\n' + (st.clauses.length - 1) := by
    simp [print, count_intercalate]
  rw [Query.lines, length_splitOn, h, hnewline]
  omega

theorem eq_intercalate_clauseTexts {text : String} {separator : Char}
    (h : text.toList = st.print n separator) :
    text = separator.toString.intercalate (st.clauseTexts n) := by
  rw [← String.toList_inj, h, String.toList_intercalate, print, clauseTexts, List.map_map]
  simp [Function.comp_def]

/-- **The layout decides what stands between two clauses and nothing else.** A statement that is
built in some layout is built in both, with the same parameters and with the same texts of clauses,
which are joined by line breaks or by blanks. One layout has as many lines as there are clauses, and
the other one has no line break, exactly if no name that the text writes holds a line break;
strings bring none, whatever they hold. -/
theorem build_layouts {q : Query} (hnamed : st.Every Expr.Named) (hclauses : st.clauses ≠ [])
    (h : (st.build settings).result = .ok q) :
    ∃ pretty compact : Query,
      (st.build { settings with pretty := true }).result = .ok pretty ∧
      (st.build { settings with pretty := false }).result = .ok compact ∧
      pretty.params = q.params ∧ compact.params = q.params ∧
      pretty.text = "\n".intercalate (st.clauseTexts (st.namesIn settings)) ∧
      compact.text = " ".intercalate (st.clauseTexts (st.namesIn settings)) ∧
      (pretty.lines.length = st.clauses.length ↔ st.Unbroken (st.namesIn settings)) ∧
      ('\n' ∉ compact.text.toList ↔ st.Unbroken (st.namesIn settings)) := by
  obtain ⟨pretty, hpretty, hpparams, hptext⟩ := exists_build_laidOut h true
  obtain ⟨compact, hcompact, hcparams, hctext⟩ := exists_build_laidOut h false
  have hsound : Draft.Sound (st.draft ' ') := (build_ok hcompact).1
  have hunbroken := unbroken_iff (n := st.namesIn settings) hnamed hsound
  refine ⟨pretty, compact, hpretty, hcompact, hpparams, hcparams,
    eq_intercalate_clauseTexts hptext, eq_intercalate_clauseTexts hctext, ?_, ?_⟩
  · rw [length_lines hclauses hptext, hunbroken, ← List.count_eq_zero]
    omega
  · rw [hunbroken]
    exact not_congr (iff_of_eq (congrArg ('\n' ∈ ·) hctext))

/-- A statement of two clauses: a node with a name, and a string. -/
def nameAndString (name text : String) : Statement :=
  ⟨[.matching false (.single ⟨⟨1, some name, [], []⟩, []⟩),
    .returning ⟨false, .single ⟨.literal (.string text), none⟩⟩]⟩

theorem named_nameAndString (name text : String) :
    (nameAndString name text).Every Expr.Named := by
  simp [Statement.Every, Clause.Every, nameAndString, Clause.exprs, Pattern.exprs, Properties.exprs,
    OneOrMore.toList, OneOrMore.single, Expr.Every, Expr.Named]

/-- A line break in a string is escaped: two clauses are on two lines or on one. -/
theorem build_layouts_string :
    (nameAndString "a" "b\nc").Every Expr.Named ∧ (nameAndString "a" "b\nc").clauses ≠ [] ∧
      (∃ q, ((nameAndString "a" "b\nc").build .standard).result = .ok q) ∧
      ∃ pretty compact : Query,
        ((nameAndString "a" "b\nc").build .standard).result = .ok pretty ∧
        ((nameAndString "a" "b\nc").build .compact).result = .ok compact ∧
        pretty.lines.length = 2 ∧ '\n' ∉ compact.text.toList := by
  have hnamed := named_nameAndString "a" "b\nc"
  have hclauses : (nameAndString "a" "b\nc").clauses ≠ [] := by simp [nameAndString]
  have hbuild : ∃ q, ((nameAndString "a" "b\nc").build .standard).result = .ok q := ⟨_, rfl⟩
  have hsingle : ∃ q, ((nameAndString "a" "b\nc").build .compact).result = .ok q ∧
      '\n' ∉ q.text.toList := ⟨_, rfl, by decide⟩
  obtain ⟨q, hq⟩ := hbuild
  obtain ⟨pretty, compact, hpretty, hcompact, -, -, -, -, hlines, hbreaks⟩ :=
    build_layouts hnamed hclauses hq
  -- the text on a single line tells that no name is broken, and so how many lines the other one has
  obtain ⟨q', hq', hnone⟩ := hsingle
  obtain rfl : compact = q' := Except.ok.inj (hcompact.symm.trans hq')
  exact ⟨hnamed, hclauses, ⟨q, hq⟩, pretty, compact, hpretty, hcompact,
    hlines.mpr (hbreaks.mp hnone), hnone⟩

/-- A line break in a name stays in the text, where one in a string does not: two clauses are on
three lines or on two. -/
theorem build_layouts_name :
    (nameAndString "a\nb" "c\nd").Every Expr.Named ∧
      (nameAndString "a\nb" "c\nd").clauses.length = 2 ∧
      ∃ pretty compact : Query,
        ((nameAndString "a\nb" "c\nd").build .standard).result = .ok pretty ∧
        ((nameAndString "a\nb" "c\nd").build .compact).result = .ok compact ∧
        pretty.lines.length = 3 ∧ compact.text = "MATCH (\x60a\nb\x60) RETURN 'c\\nd'" ∧
        '\n' ∈ compact.text.toList := by
  refine ⟨named_nameAndString _ _, rfl, _, _, rfl, rfl, ?_, ?_, ?_⟩
  · decide
  · decide
  · decide

end Statement

end GraphQuery
