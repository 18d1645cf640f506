import GraphQuery.Proofs.Print.Layout
import GraphQuery.Proofs.Scope.History

set_option autoImplicit false

/-! # What keeps a draft from being filled in

The converse of what a filled draft says about itself: a draft is filled in if it has no fault and
the names of its mentions can be given and are not empty (`Scope.exists_fill_iff`). What is reported
otherwise is a fault of the draft or what is wrong with a name (`Scope.render_error_at`).
-/

namespace GraphQuery

/-- A fault of the name of a variable or parameter, which is bound to something else or empty. -/
def RenderError.OfName : RenderError → Prop
  | .namingConflict _ _ | .emptyName _ => True
  | .unsupported _ => False

namespace Scope

/-! ## What can be filled in

Naming and filling differ in one thing: an empty explicit name is given by the scope and then
refused by the draft. So naming all mentions is not enough, and no mention may have the empty
name. -/

variable {s s' : Scope} {d : Draft} {ms ms' : List Mention}

/-- A name becomes a lexeme unless it is refused or empty. -/
theorem exists_binding_iff (s : Scope) (m : Mention) (role : NameRole) :
    (∃ l t, ((s.name m).1.bind (bindingLexeme role), (s.name m).2) = (.ok l, t)) ↔
      ∃ t, s.nameAll [m] = .ok t ∧ ∀ m' ∈ [m], t.nameOf? m' ≠ some "" := by
  simp only [List.forall_mem_singleton]
  cases hname : s.name m with
  | mk named t =>
      cases named with
      | error e => simp [nameAll, hname, Except.bind]
      | ok name =>
          have hall := nameAll_singleton hname
          have hgiven := nameOf?_name hname
          by_cases hempty : name = ""
          · simp [hall, hgiven, Except.bind, bindingLexeme, hempty]
          · simp [hall, hgiven, Except.bind, bindingLexeme, hempty]

/-- A piece can be filled in if it is no fault and its name can be given and is not empty. -/
theorem exists_lexemeIn_iff {p : Piece} :
    (∃ l t, p.lexemeIn s = (.ok l, t)) ↔
      p.isFault = false ∧
        ∃ t, s.nameAll p.mentions = .ok t ∧ ∀ m ∈ p.mentions, t.nameOf? m ≠ some "" := by
  cases p with
  | lexeme l => simp [Piece.lexemeIn, Piece.isFault, Piece.mentions, nameAll]
  | var v => exact (exists_binding_iff s (.var v) .variableName).trans (and_iff_right rfl).symm
  | param q => exact (exists_binding_iff s (.param q) .paramName).trans (and_iff_right rfl).symm
  | fault e => simp [Piece.lexemeIn, Piece.isFault]

/-- What has a name has it in every later scope. -/
theorem nameOf?_nameAll {t : Scope} {m : Mention} (h : s.nameAll ms = .ok t)
    (h' : t.nameAll ms' = .ok s') (hm : m ∈ ms) : s'.nameOf? m = t.nameOf? m := by
  obtain ⟨name, hname⟩ := exists_nameOf?_of_nameAll h hm
  rw [hname, (nameAll_extends h').nameOf? hname]

/-- A draft can be filled in if it has no fault and all its names can be given and none of them is
empty. -/
theorem exists_fill_iff :
    (∃ ls s', s.fill d = (.ok ls, s')) ↔
      d.Sound ∧ ∃ s', s.nameAll d.mentions = .ok s' ∧ ∀ m ∈ d.mentions, s'.nameOf? m ≠ some "" := by
  induction d generalizing s with
  | nil => simp [fill, Draft.Sound, nameAll]
  | cons p d ih =>
      rw [Draft.sound_cons, Draft.mentions_cons]
      constructor
      · rintro ⟨ls, s', h⟩
        obtain ⟨l, t, ls', hp, hfill, -⟩ := fill_cons_ok h
        obtain ⟨hnamed, hfault, -⟩ := lexemeIn_ok hp
        -- the scope behind the piece is the one that naming its mentions leaves
        obtain ⟨-, t', hnamed', hfirst⟩ := exists_lexemeIn_iff.mp ⟨l, t, hp⟩
        obtain rfl := Except.ok.inj (hnamed.symm.trans hnamed')
        obtain ⟨hsound, u, hrest, hbehind⟩ := ih.mp ⟨ls', s', hfill⟩
        refine ⟨⟨hfault, hsound⟩, u, (nameAll_append hnamed).trans hrest, ?_⟩
        intro m hm
        rcases List.mem_append.mp hm with hm | hm
        · -- the name of the piece is the same in the scope at the end
          rw [nameOf?_nameAll hnamed hrest hm]
          exact hfirst m hm
        · exact hbehind m hm
      · rintro ⟨⟨hfault, hsound⟩, s', hall, hgiven⟩
        obtain ⟨t, hnamed, hrest⟩ := nameAll_append_ok hall
        have hfirst : ∀ m ∈ p.mentions, t.nameOf? m ≠ some "" := by
          intro m hm
          rw [← nameOf?_nameAll hnamed hrest hm]
          exact hgiven m (List.mem_append_left _ hm)
        -- the piece can be filled in, so it is what is behind it that counts
        obtain ⟨l, t', hp⟩ := exists_lexemeIn_iff.mpr ⟨hfault, t, hnamed, hfirst⟩
        obtain rfl := Except.ok.inj (hnamed.symm.trans (lexemeIn_ok hp).1)
        obtain ⟨ls, u, hfill⟩ := ih.mpr ⟨hsound, s', hrest, fun m hm =>
          hgiven m (List.mem_append_right _ hm)⟩
        exact ⟨l :: ls, u, by simp [fill, hp, hfill, Except.map]⟩

/-- A draft is rendered if it can be filled in. -/
theorem exists_render_iff :
    (∃ text s', s.render d = (.ok text, s')) ↔
      d.Sound ∧ ∃ s', s.nameAll d.mentions = .ok s' ∧ ∀ m ∈ d.mentions, s'.nameOf? m ≠ some "" := by
  rw [← exists_fill_iff]
  unfold render
  cases s.fill d with
  | mk filled u =>
      cases filled with
      | error e => simp [Except.map]
      | ok ls => simp [Except.map]

/-! ## What is reported

A fault is reported at a place, and everything mentioned before that place has been named. The
place is kept in the statement, because what a conflict comes from is decided by what was named
before it. -/

theorem binding_error {m : Mention} {role : NameRole} {e : RenderError}
    (h : (s.name m).1.bind (bindingLexeme role) = .error e) :
    (s.name m).1 = .error e ∨ e = .emptyName role := by
  cases hname : (s.name m).1 with
  | error e' =>
      rw [hname] at h
      obtain rfl := Except.error.inj h
      exact Or.inl rfl
  | ok name =>
      rw [hname] at h
      simp only [Except.bind, bindingLexeme] at h
      split at h
      · exact Or.inr (Except.error.inj h).symm
      · simp at h

/-- The faults that a filled piece reports: itself, or what is wrong with its name. -/
theorem lexemeIn_error {p : Piece} {e : RenderError} (h : p.lexemeIn s = (.error e, s')) :
    p = .fault e ∨ ∃ m, p.mentions = [m] ∧
      ((s.name m).1 = .error e ∨ ∃ role, e = .emptyName role) := by
  have hfirst : (p.lexemeIn s).1 = .error e := congrArg Prod.fst h
  cases p with
  | lexeme l => simp [Piece.lexemeIn] at h
  | var v =>
      exact Or.inr ⟨.var v, rfl, (binding_error (m := .var v) hfirst).imp_right fun h => ⟨_, h⟩⟩
  | param q =>
      exact Or.inr ⟨.param q, rfl, (binding_error (m := .param q) hfirst).imp_right fun h => ⟨_, h⟩⟩
  | fault e' => exact Or.inl (congrArg _ (Except.error.inj hfirst))

/-- Where filling stops: at a fault of the draft, or where everything mentioned before has a name
and the next name is refused or empty. -/
theorem fill_error_at {e : RenderError} (h : s.fill d = (.error e, s')) :
    .fault e ∈ d ∨ ∃ before m after t, d.mentions = before ++ m :: after ∧
      s.nameAll before = .ok t ∧ ((t.name m).1 = .error e ∨ ∃ role, e = .emptyName role) := by
  induction d generalizing s with
  | nil => simp [fill] at h
  | cons p d ih =>
      rw [Draft.mentions_cons]
      rw [fill] at h
      split at h
      -- the first piece itself is refused
      next e' t hp =>
          obtain ⟨he, -⟩ := Prod.mk.inj h
          obtain rfl := Except.error.inj he
          rcases lexemeIn_error hp with rfl | ⟨m, hm, hname⟩
          · exact Or.inl (List.mem_cons_self ..)
          · exact Or.inr ⟨[], m, Draft.mentions d, s, by rw [hm]; rfl, rfl, hname⟩
      -- the first piece is filled in, and the fault is behind it
      next l t hp =>
          obtain ⟨he, hs'⟩ := Prod.mk.inj h
          cases hfill : t.fill d with
          | mk filled u =>
              rw [hfill] at he
              cases filled with
              | error e' =>
                  obtain rfl := Except.error.inj he
                  have hrest : t.fill d = (.error e', s') := by rw [hfill, ← hs', hfill]
                  rcases ih hrest with hmem | ⟨before, m, after, u, hd, hbefore, hname⟩
                  · exact Or.inl (List.mem_cons_of_mem _ hmem)
                  · refine Or.inr ⟨p.mentions ++ before, m, after, u, ?_, ?_, hname⟩
                    · rw [hd, List.append_assoc]
                    · rw [nameAll_append (lexemeIn_ok hp).1]
                      exact hbefore
              | ok ls => simp [Except.map] at he

theorem render_error_at {e : RenderError} (h : s.render d = (.error e, s')) :
    .fault e ∈ d ∨ ∃ before m after t, d.mentions = before ++ m :: after ∧
      s.nameAll before = .ok t ∧ ((t.name m).1 = .error e ∨ ∃ role, e = .emptyName role) := by
  unfold render at h
  cases hfill : s.fill d with
  | mk filled u =>
      rw [hfill] at h
      cases filled with
      | error e' =>
          obtain ⟨he, -⟩ := Prod.mk.inj h
          obtain rfl := Except.error.inj he
          exact fill_error_at hfill
      | ok ls => simp [Except.map] at h

/-- The faults that rendering reports: those of the draft, and those of names. -/
theorem render_error {e : RenderError} (h : s.render d = (.error e, s')) :
    .fault e ∈ d ∨ e.OfName := by
  refine (render_error_at h).imp_right ?_
  rintro ⟨-, m, -, t, -, -, hname | ⟨role, rfl⟩⟩
  · obtain ⟨-, -, name, -, -, rfl⟩ := name_eq_error_iff.mp (Prod.ext hname rfl)
    trivial
  · trivial

end Scope

end GraphQuery
