import GraphQuery.Build.Basic
import GraphQuery.Proofs.Draft.Refusal

set_option autoImplicit false

/-! # Rendering again

A scope only ever learns names: whatever is named or rendered in it, and whether or not that comes
to an end, the names that were given stay (`Scope.Reaches.extends`). So what was rendered once has
all its names, and every later rendering gives the same text and leaves the scope as it is
(`Construct.render_stable`).
-/

namespace GraphQuery

namespace Scope

variable {s s' t u : Scope} {d : Draft}

/-! ## What becomes of a scope

A rendering that fails may have named something first. So a scope is changed by namings only, and
a rendering is a sequence of them up to the place where it stops. -/

theorem nameEach_append (s : Scope) (ms ms' : List Mention) :
    s.nameEach (ms ++ ms') = (s.nameEach ms).nameEach ms' :=
  List.foldl_append

/-- A piece names what it mentions, even if it is refused then. -/
theorem lexemeIn_snd (s : Scope) (p : Piece) : (p.lexemeIn s).2 = s.nameEach p.mentions := by
  cases p <;> rfl

/-- Filling names the mentions of a draft up to the place where it stops. -/
theorem fill_snd (s : Scope) (d : Draft) :
    ∃ ms, ms <+: d.mentions ∧ (s.fill d).2 = s.nameEach ms := by
  induction d generalizing s with
  | nil => exact ⟨[], List.nil_prefix, rfl⟩
  | cons p d ih =>
      have hsnd := lexemeIn_snd s p
      rw [Draft.mentions_cons, fill]
      split
      next e t hp =>
          rw [hp] at hsnd
          exact ⟨p.mentions, List.prefix_append .., hsnd⟩
      next l t hp =>
          rw [hp] at hsnd
          obtain ⟨ms, hms, hrest⟩ := ih t
          refine ⟨p.mentions ++ ms, (List.prefix_append_right_inj _).mpr hms, ?_⟩
          rw [nameEach_append, ← hsnd]
          exact hrest

/-- What a scope can come to by namings and renderings, whether they succeed or fail. A rendering is
that of any draft, so also that of a part of something larger. -/
inductive Reaches (s : Scope) : Scope → Prop
  | refl : Reaches s s
  | named {t : Scope} (h : Reaches s t) (m : Mention) : Reaches s (t.name m).2
  | rendered {t : Scope} (h : Reaches s t) (d : Draft) : Reaches s (t.render d).2

/-- Namings and renderings come to the naming of some mentions. -/
theorem Reaches.exists_nameEach (h : s.Reaches t) : ∃ ms, t = s.nameEach ms := by
  induction h with
  | refl => exact ⟨[], rfl⟩
  | named _ m ih =>
      obtain ⟨ms, rfl⟩ := ih
      exact ⟨ms ++ [m], (nameEach_concat s ms m).symm⟩
  | rendered _ d ih =>
      obtain ⟨ms, rfl⟩ := ih
      obtain ⟨ms', -, hfill⟩ := fill_snd (s.nameEach ms) d
      exact ⟨ms ++ ms', by rw [nameEach_append]; exact hfill⟩

/-- **A scope only learns names.** -/
theorem Reaches.extends (h : s.Reaches t) : s.Extends t := by
  obtain ⟨ms, rfl⟩ := h.exists_nameEach
  exact nameEach_extends s ms

theorem Reaches.settings_eq (h : s.Reaches t) : t.settings = s.settings := by
  obtain ⟨ms, rfl⟩ := h.exists_nameEach
  exact settings_nameEach s ms

/-! ## Drafts that were rendered before

In a scope that has all names of a draft, filling finds every name and gives none. The induction
is on the draft, and the later scope stays the same in each step. -/

/-- A piece that was filled in is filled in with the same lexeme later on, and names nothing. -/
theorem lexemeIn_again {p : Piece} {l : Lexeme} (h : p.lexemeIn s = (.ok l, s'))
    (ht : s'.Extends t) : p.lexemeIn t = (.ok l, t) := by
  -- the name in the outcome is the one that the later scope has
  have hname : ∀ (m : Mention) (role : NameRole),
      ((s.name m).1.bind (bindingLexeme role), (s.name m).2) = (Except.ok l, s') →
        ((t.name m).1.bind (bindingLexeme role), (t.name m).2) = (Except.ok l, t) := by
    intro m role hm
    cases hgiven : s.name m with
    | mk given u =>
        rw [hgiven] at hm
        obtain ⟨hl, rfl⟩ := Prod.mk.inj hm
        cases given with
        | error e => simp [Except.bind] at hl
        | ok name =>
            rw [name_of_named (ht.nameOf? (nameOf?_name hgiven))]
            exact congrArg (·, t) hl
  cases p with
  | lexeme l' =>
      obtain ⟨hl, -⟩ := Prod.mk.inj h
      exact congrArg (·, t) hl
  | var v => exact hname (.var v) .variableName h
  | param q => exact hname (.param q) .paramName h
  | fault e => simp [Piece.lexemeIn] at h

theorem fill_again {ls : List Lexeme} (h : s.fill d = (.ok ls, s')) (ht : s'.Extends t) :
    t.fill d = (.ok ls, t) := by
  induction d generalizing s ls with
  | nil =>
      obtain ⟨hls, -⟩ := Prod.mk.inj h
      exact congrArg (·, t) hls
  | cons p d ih =>
      obtain ⟨l, u, ls', hp, hfill, rfl⟩ := fill_cons_ok h
      -- the names of the first piece are kept while the others are filled in
      have hextends : u.Extends t := (nameAll_extends (fill_ok hfill).1).trans ht
      rw [fill, lexemeIn_again hp hextends]
      simp only [ih hfill]
      rfl

/-- A draft that was rendered is rendered with the same text later on, and names nothing. -/
theorem render_again {text : String} (h : s.render d = (.ok text, s')) (ht : s'.Extends t) :
    t.render d = (.ok text, t) := by
  unfold render at h ⊢
  cases hfill : s.fill d with
  | mk filled u =>
      rw [hfill] at h
      obtain ⟨htext, rfl⟩ := Prod.mk.inj h
      cases filled with
      | error e => simp [Except.map] at htext
      | ok ls =>
          rw [fill_again hfill ht]
          exact congrArg (·, t) htext

end Scope

/-! ## Constructs

The constructs are what is rendered by itself: an expression, a pattern, a clause or a whole
statement. Smaller parts are drafts too, and the results on drafts cover them. -/

/-- What is rendered by itself. -/
inductive Construct where
  | expr (e : Expr)
  | pattern (p : Pattern)
  | clause (c : Clause)
  | statement (st : Statement)

namespace Construct

/-- The draft of a construct. Only statements have separators. -/
def draft (separator : Char) : Construct → Draft
  | .expr e => e.draft
  | .pattern p => p.draft
  | .clause c => c.draft
  | .statement st => st.draft separator

def render (x : Construct) (s : Scope) : Except RenderError String × Scope :=
  s.render (x.draft s.settings.separator)

/-- **Rendering is stable.** What was rendered in some scope has the same text in every scope that
is reached from there, whatever was named or rendered in between and whether or not that failed, and
rendering it again changes nothing. -/
theorem render_stable {x : Construct} {s s' s'' : Scope} {text : String}
    (h : x.render s = (.ok text, s')) (hreaches : s'.Reaches s'') :
    x.render s'' = (.ok text, s'') := by
  have hs' : s.Reaches s' := by
    have := Scope.Reaches.refl.rendered (s := s) (x.draft s.settings.separator)
    rwa [← render, h] at this
  -- the settings never change, so a statement has the same separator in both scopes
  have hsettings : s''.settings = s.settings := hreaches.settings_eq.trans hs'.settings_eq
  rw [render, hsettings]
  exact Scope.render_again h hreaches.extends

/-- A node that loops to itself keeps its text after a conflict of names, and after a rendering that
names a further node and then fails at a literal. -/
theorem render_stable_loop :
    let node : Node := ⟨0, none, ["Person"], []⟩
    let loop : Construct := .pattern ⟨node, [⟨.blank 1 (some "KNOWS"), .right, node⟩]⟩
    let taken : Mention := .var ⟨2, .node, some "n1"⟩
    let broken : Expr := .list [.var ⟨3, .node, none⟩, .literal (.bytes [])]
    ∃ s' s'', loop.render (.new .standard) = (.ok "(n1:Person)-[r2:KNOWS]->(n1:Person)", s') ∧
      s'' = ((s'.name taken).2.render broken.draft).2 ∧ s'.Reaches s'' ∧
      (s'.name taken).1 = .error (.namingConflict .vars "n1") ∧
      ((s'.name taken).2.render broken.draft).1 =
        .error (.unsupported ⟨.byteArray, "inline literal"⟩) ∧
      loop.render s'' = (.ok "(n1:Person)-[r2:KNOWS]->(n1:Person)", s'') := by
  intro node loop taken broken
  have htext : (loop.render (.new .standard)).1 = .ok "(n1:Person)-[r2:KNOWS]->(n1:Person)" := by
    decide +kernel
  have hconflict : ((loop.render (.new .standard)).2.name taken).1 =
      .error (.namingConflict .vars "n1") := by
    decide +kernel
  have hbroken : (((loop.render (.new .standard)).2.name taken).2.render broken.draft).1 =
      .error (.unsupported ⟨.byteArray, "inline literal"⟩) := by
    decide +kernel
  cases h : loop.render (.new .standard) with
  | mk text s' =>
      rw [h] at htext hconflict hbroken
      obtain rfl : text = _ := htext
      have hreaches := (Scope.Reaches.refl.named (s := s') taken).rendered broken.draft
      exact ⟨s', _, rfl, rfl, hreaches, hconflict, hbroken, render_stable h hreaches⟩

end Construct

end GraphQuery
