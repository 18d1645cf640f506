import GraphQuery.Draft.Basic
import GraphQuery.Proofs.Scope.Naming

set_option autoImplicit false

/-! # Filling a draft in two passes

A draft says by itself which variables and parameters it mentions (`Draft.mentions`), and with a
name for each of them what its text is (`Draft.text`). Filling it in one pass comes to the same as
naming all mentions first and then looking every name up in the scope that is left
(`Scope.render_ok`).
-/

namespace GraphQuery

/-! ## What a draft says

Nothing in this section looks at a scope. The mentions are those that filling asks names for, and
the text is what filling gives if no name is empty; a fault has no characters and is ruled out
where the text is meant (`Draft.Sound`). -/

namespace Piece

def mentions : Piece → List Mention
  | .var v => [.var v]
  | .param p => [.param p]
  | .lexeme _ | .fault _ => []

/-- The characters of a piece. -/
def written (n : Names) : Piece → List Char
  | .lexeme l => l.written
  | .var v => Name.writtenBinding (n.var v)
  | .param p => Name.writtenBinding (n.param p)
  | .fault _ => []

def isFault : Piece → Bool
  | .fault _ => true
  | _ => false

end Piece

namespace Draft

/-- The mentions in a draft, from left to right. -/
def mentions (d : Draft) : List Mention := d.flatMap Piece.mentions

def text (n : Names) (d : Draft) : List Char := d.flatMap (Piece.written n)

/-- A draft without faults. -/
def Sound (d : Draft) : Prop := ∀ p ∈ d, p.isFault = false

end Draft

/-! ## Filling

The induction is on the draft. Its invariant compares two scopes: the one that is there when a
piece is filled in, and the one that is left at the end, in which the name of the piece is looked
up. A scope only grows while a draft is filled in, so both give the same name. -/

namespace Scope

variable {s s' : Scope} {ms ms' : List Mention} {d : Draft}

theorem nameAll_append {t : Scope} (h : s.nameAll ms = .ok t) :
    s.nameAll (ms ++ ms') = t.nameAll ms' := by
  induction ms generalizing s with
  | nil =>
      obtain rfl := Except.ok.inj h
      rfl
  | cons m ms ih =>
      obtain ⟨given, u, hm, hu⟩ := nameAll_cons_ok h
      rw [List.cons_append, nameAll, hm]
      exact ih hu

theorem nameAll_append_ok (h : s.nameAll (ms ++ ms') = .ok s') :
    ∃ t, s.nameAll ms = .ok t ∧ t.nameAll ms' = .ok s' := by
  induction ms generalizing s with
  | nil => exact ⟨s, rfl, h⟩
  | cons m ms ih =>
      obtain ⟨name, u, hm, hu⟩ := nameAll_cons_ok h
      obtain ⟨t, ht, hrest⟩ := ih hu
      exact ⟨t, by rw [nameAll, hm]; exact ht, hrest⟩

theorem nameAll_singleton {m : Mention} {given : String} (h : s.name m = (.ok given, s')) :
    s.nameAll [m] = .ok s' := by
  rw [nameAll, h]
  rfl

/-- The lexeme of a name is the name, unless it is empty. -/
theorem bindingLexeme_ok {role : NameRole} {given : String} {l : Lexeme}
    (h : bindingLexeme role given = .ok l) : l = .binding given := by
  unfold bindingLexeme at h
  split at h
  · simp at h
  · exact (Except.ok.inj h).symm

/-- What filling one piece does. The name it gives is the name in every later scope. -/
theorem lexemeIn_ok {p : Piece} {l : Lexeme} (h : p.lexemeIn s = (.ok l, s')) :
    s.nameAll p.mentions = .ok s' ∧ p.isFault = false ∧
      ∀ t : Scope, s'.Extends t → l.written = p.written t.names := by
  cases p with
  | lexeme l' =>
      obtain ⟨hl, rfl⟩ := Prod.mk.inj h
      obtain rfl := Except.ok.inj hl
      exact ⟨rfl, rfl, fun _ _ => rfl⟩
  | var v =>
      simp only [Piece.lexemeIn] at h
      cases hname : s.nameVar v with
      | mk named u =>
          rw [hname] at h
          obtain ⟨hl, rfl⟩ := Prod.mk.inj h
          cases named with
          | error e => simp [Except.bind] at hl
          | ok given =>
              -- the name given here is the one that every later scope has for the variable
              obtain rfl := bindingLexeme_ok hl
              have hm : s.name (.var v) = (.ok given, u) := hname
              refine ⟨nameAll_singleton hm, rfl, fun t ht => ?_⟩
              rw [Lexeme.written, Piece.written, names_var (ht.nameOf? (nameOf?_name hm))]
  | param p =>
      simp only [Piece.lexemeIn] at h
      cases hname : s.nameParam p with
      | mk named u =>
          rw [hname] at h
          obtain ⟨hl, rfl⟩ := Prod.mk.inj h
          cases named with
          | error e => simp [Except.bind] at hl
          | ok given =>
              obtain rfl := bindingLexeme_ok hl
              have hm : s.name (.param p) = (.ok given, u) := hname
              refine ⟨nameAll_singleton hm, rfl, fun t ht => ?_⟩
              rw [Lexeme.written, Piece.written, names_param (ht.nameOf? (nameOf?_name hm))]
  | fault e => simp [Piece.lexemeIn] at h

theorem fill_cons_ok {p : Piece} {ls : List Lexeme} (h : s.fill (p :: d) = (.ok ls, s')) :
    ∃ l t ls', p.lexemeIn s = (.ok l, t) ∧ t.fill d = (.ok ls', s') ∧ ls = l :: ls' := by
  rw [fill] at h
  split at h
  · simp at h
  next l t hp =>
      obtain ⟨hls, hs'⟩ := Prod.mk.inj h
      cases hfill : t.fill d with
      | mk filled u =>
          rw [hfill] at hls hs'
          cases filled with
          | error e => simp [Except.map] at hls
          | ok ls' =>
              obtain rfl := hs'
              exact ⟨l, t, ls', hp, hfill, (Except.ok.inj hls).symm⟩

/-- The scope after filling is the one after naming all mentions, and the lexemes are those that
looking up in it gives. -/
theorem fill_ok {ls : List Lexeme} (h : s.fill d = (.ok ls, s')) :
    s.nameAll d.mentions = .ok s' ∧ d.Sound ∧ ls.flatMap Lexeme.written = d.text s'.names := by
  induction d generalizing s ls with
  | nil =>
      obtain ⟨hls, rfl⟩ := Prod.mk.inj h
      obtain rfl := Except.ok.inj hls
      exact ⟨rfl, by simp [Draft.Sound], rfl⟩
  | cons p d ih =>
      -- what is filled after the first piece extends the scope that its naming left
      obtain ⟨l, t, ls', hp, hfill, rfl⟩ := fill_cons_ok h
      obtain ⟨hnamed, hfault, hwritten⟩ := lexemeIn_ok hp
      obtain ⟨hrest, hsound, htext⟩ := ih hfill
      refine ⟨?_, List.forall_mem_cons.mpr ⟨hfault, hsound⟩, ?_⟩
      · rw [Draft.mentions, List.flatMap_cons, nameAll_append hnamed]
        exact hrest
      · rw [Draft.text, List.flatMap_cons, List.flatMap_cons, htext,
          hwritten s' (nameAll_extends hrest)]
        rfl

/-- **Rendering in one pass is naming and then printing.** -/
theorem render_ok {text : String} (h : s.render d = (.ok text, s')) :
    s.nameAll d.mentions = .ok s' ∧ d.Sound ∧ text.toList = d.text s'.names := by
  simp only [render] at h
  cases hfill : s.fill d with
  | mk filled u =>
      rw [hfill] at h
      obtain ⟨htext, rfl⟩ := Prod.mk.inj h
      cases filled with
      | error e => simp [Except.map] at htext
      | ok ls =>
          obtain ⟨hnamed, hsound, hls⟩ := fill_ok hfill
          refine ⟨hnamed, hsound, ?_⟩
          rw [← Except.ok.inj htext, Lexeme.textOf, String.toList_ofList, hls]

end Scope

/-! ## What does not depend on the lexemes

Lexemes are written without asking the scope, so they can neither fail nor name anything. Two
drafts that differ in their lexemes only, such as a pattern and the same pattern with other
arrowheads, leave the same scope and fail alike. -/

def Piece.isLexeme : Piece → Bool
  | .lexeme _ => true
  | .var _ | .param _ | .fault _ => false

/-- The mentions and the faults of a draft in their order, without the lexemes between them. -/
def Draft.outline (d : Draft) : Draft := d.filter fun p => !p.isLexeme

@[simp] theorem Draft.outline_lexeme (l : Lexeme) (d : Draft) :
    Draft.outline (.lexeme l :: d) = Draft.outline d := rfl

theorem Draft.outline_cons {p : Piece} (hp : p.isLexeme = false) (d : Draft) :
    Draft.outline (p :: d) = p :: Draft.outline d := by
  simp [Draft.outline, hp]

@[simp] theorem Draft.outline_append (d d' : Draft) :
    Draft.outline (d ++ d') = Draft.outline d ++ Draft.outline d' := List.filter_append ..

/-- An error passes through whatever is done with results. -/
theorem map_eq_error_iff {ε α β : Type} {r : Except ε α} {f : α → β} {e : ε} :
    r.map f = .error e ↔ r = .error e := by
  cases r <;> simp [Except.map]

namespace Scope

/-- The scope that filling leaves and the error that it reports depend on the outline alone. -/
theorem fill_outline (s : Scope) (d : Draft) :
    (s.fill d.outline).2 = (s.fill d).2 ∧
      ∀ e, (s.fill d.outline).1 = .error e ↔ (s.fill d).1 = .error e := by
  induction d generalizing s with
  | nil => exact ⟨rfl, fun e => Iff.rfl⟩
  | cons p d ih =>
      by_cases hp : p.isLexeme = true
      · obtain ⟨l, rfl⟩ : ∃ l, p = .lexeme l := by
          cases p with
          | lexeme l => exact ⟨l, rfl⟩
          | var v | param q | fault e => simp [Piece.isLexeme] at hp
        -- the outline leaves the lexeme out, and filling it changes nothing but the text
        have hfill : s.fill (.lexeme l :: d) = ((s.fill d).1.map (l :: ·), (s.fill d).2) := rfl
        rw [hfill, Draft.outline_lexeme]
        exact ⟨(ih s).1, fun e => ((ih s).2 e).trans map_eq_error_iff.symm⟩
      · rw [Draft.outline_cons (by simpa using hp), fill, fill]
        rcases p.lexemeIn s with ⟨e | l, t⟩
        · exact ⟨rfl, fun _ => Iff.rfl⟩
        · refine ⟨(ih t).1, fun e => ?_⟩
          exact map_eq_error_iff.trans (((ih t).2 e).trans map_eq_error_iff.symm)

/-- Drafts with one outline leave the same scope and report the same error. -/
theorem render_of_outline (s : Scope) {d d' : Draft} (h : d.outline = d'.outline) :
    (s.render d).2 = (s.render d').2 ∧
      ∀ e, (s.render d).1 = .error e ↔ (s.render d').1 = .error e := by
  have hd := s.fill_outline d
  have hd' := s.fill_outline d'
  rw [h] at hd
  constructor
  · exact hd.1.symm.trans hd'.1
  · intro e
    calc (s.render d).1 = .error e
        ↔ (s.fill d).1 = .error e := map_eq_error_iff
      _ ↔ (s.fill d'.outline).1 = .error e := (hd.2 e).symm
      _ ↔ (s.fill d').1 = .error e := hd'.2 e
      _ ↔ (s.render d').1 = .error e := map_eq_error_iff.symm

/-- So where one of them is rendered the other one is rendered too. -/
theorem exists_render_of_outline {s s' : Scope} {d d' : Draft} (h : d.outline = d'.outline)
    {text : String} (hd : s.render d = (.ok text, s')) :
    ∃ text', s.render d' = (.ok text', s') := by
  obtain ⟨hscope, herror⟩ := s.render_of_outline h
  rw [hd] at hscope herror
  cases hd' : s.render d' with
  | mk rendered t =>
      rw [hd'] at hscope herror
      obtain rfl : s' = t := hscope
      cases rendered with
      | error e => exact absurd ((herror e).mpr rfl) (by simp)
      | ok text' => exact ⟨text', rfl⟩

end Scope

end GraphQuery
