import GraphQuery.Proofs.Draft.Refusal
import GraphQuery.Proofs.Print.TwoPass
import GraphQuery.Proofs.Statement.Extension

set_option autoImplicit false

/-! # Builds of growing statements

Names are given from left to right, so a statement that mentions first what another one mentions
begins with its names and its parameters. A clause that is added is written behind the text that was
there, with the names that were given in it (`Statement.build_call`).
-/

namespace GraphQuery

namespace Scope

variable {s s' : Scope} {d e : Draft}

/-- The values of some parameters begin with those of the first ones. -/
theorem paramValues_append {entries entries' : List (Param × String)}
    {members : List (String × Json)} (h : paramValues (entries ++ entries') = .ok members) :
    ∃ first, paramValues entries = .ok first ∧ first <+: members := by
  induction entries generalizing members with
  | nil => exact ⟨[], rfl, List.nil_prefix⟩
  | cons entry entries ih =>
      obtain ⟨p, name⟩ := entry
      rw [List.cons_append, paramValues] at h
      rw [paramValues]
      cases hvalue : p.value.toJson ("parameter $" ++ name) with
      | error u => simp [hvalue] at h
      | ok j =>
          cases hrest : paramValues (entries ++ entries') with
          | error u => simp [hvalue, hrest, Except.map] at h
          | ok rest =>
              obtain ⟨first, hfirst, hprefix⟩ := ih hrest
              obtain rfl : (name, j) :: rest = members := by
                simpa [hvalue, hrest, Except.map] using h
              refine ⟨(name, j) :: first, by simp [hfirst, Except.map], ?_⟩
              exact (List.prefix_append_right_inj [(name, j)]).mpr hprefix

/-- Two drafts one behind the other have the text of the first and then that of the second, with the
names that the first one leaves. -/
theorem render_append_ok {text : String} (h : s.render (d ++ e) = (.ok text, s')) :
    ∃ first behind t, s.render d = (.ok first, t) ∧ t.render e = (.ok behind, s') ∧
      text = first ++ behind := by
  simp only [render, fill_append] at h
  rcases hd : s.fill d with ⟨_ | ls, t⟩
  · simp [hd, Except.map] at h
  · rcases he : t.fill e with ⟨_ | ls', u⟩
    · simp [hd, he, Except.map] at h
    · obtain ⟨htext, rfl⟩ : Lexeme.textOf (ls ++ ls') = text ∧ u = s' := by
        simpa [hd, he, Except.map] using h
      refine ⟨_, _, t, by rw [render, hd]; rfl, by rw [render, he]; rfl, ?_⟩
      rw [← htext, Lexeme.textOf, Lexeme.textOf, Lexeme.textOf, List.flatMap_append,
        String.ofList_append]

end Scope

theorem intercalate_concat {α : Type} (sep : List α) (xss : List (List α)) (xs : List α) :
    sep.intercalate (xss ++ [xs]) =
      sep.intercalate xss ++ ((if xss.isEmpty then [] else sep) ++ xs) := by
  induction xss with
  | nil => simp
  | cons ys yss ih =>
      cases yss with
      | nil => simp [List.intercalate_cons_cons]
      | cons zs zss =>
          rw [List.cons_append, List.cons_append, List.intercalate_cons_cons, ← List.cons_append,
            ih, List.intercalate_cons_cons]
          simp

namespace Statement

variable {s s' : Statement} {settings : Settings}

/-! ## One clause more

A statement with one more clause has the draft of the statement, a gap, and the draft of the
clause. Before the first clause there is no gap. -/

/-- What stands between the clauses of a statement and one more clause. -/
def gap (separator : Char) (s : Statement) : String :=
  if s.clauses.isEmpty then "" else separator.toString

theorem draft_add (separator : Char) (s : Statement) (clause : Clause) :
    (s.add clause).draft separator =
      s.draft separator ++
        ((if s.clauses.isEmpty then [] else [.lexeme (.gap separator)]) ++ clause.draft) := by
  rw [draft, add, List.map_append, List.map_singleton, intercalate_concat, List.isEmpty_map]
  rfl

/-- A clause that is added is rendered behind what was there, with the names that were given. -/
theorem render_add {clause : Clause} {text' : String} {t' : Scope}
    (h : (s.add clause).render (Scope.new settings) = (.ok text', t')) :
    ∃ text behind t, s.render (Scope.new settings) = (.ok text, t) ∧
      t.render clause.draft = (.ok behind, t') ∧
      text' = text ++ s.gap settings.separator ++ behind := by
  unfold render at h
  rw [draft_add] at h
  obtain ⟨text, rest, t, hrender, hrest, rfl⟩ := Scope.render_append_ok h
  obtain ⟨between, behind, u, hbetween, hbehind, rfl⟩ := Scope.render_append_ok hrest
  -- the gap is a single lexeme or nothing, and names nothing
  have hgap : between = s.gap settings.separator ∧ u = t := by
    unfold gap
    split at hbetween
    next hempty =>
        obtain ⟨hb, rfl⟩ := Prod.mk.inj hbetween
        rw [if_pos hempty]
        exact ⟨(Except.ok.inj hb).symm, rfl⟩
    next hempty =>
        obtain ⟨hb, rfl⟩ := Prod.mk.inj hbetween
        rw [if_neg hempty]
        exact ⟨(Except.ok.inj hb).symm, rfl⟩
  obtain ⟨rfl, rfl⟩ := hgap
  exact ⟨text, behind, u, hrender, hbehind, String.append_assoc.symm⟩

/-! ## Builds

What a statement mentions first has its names before anything behind it is named. So the names of
the shorter statement are names in the longer one, and the parameters are its first ones. -/

/-- A statement that another one continues is built if the other one is. It leaves names that the
other one keeps. -/
theorem Continues.build {q' : Query} (h : s.Continues s')
    (hbuild : (s'.build settings).result = .ok q') :
    ∃ q t t', (s.build settings).result = .ok q ∧
      s.render (Scope.new settings) = (.ok q.text, t) ∧
      s'.render (Scope.new settings) = (.ok q'.text, t') ∧ t.Extends t' ∧
      q.params <+: q'.params := by
  obtain ⟨t', hrender', hvalues'⟩ := build_eq_ok_iff.mp hbuild
  obtain ⟨hall', hsound', -⟩ := render_ok hrender'
  -- no name of the longer statement is empty
  have hgiven' : ∀ m ∈ s'.mentions, t'.nameOf? m ≠ some "" := by
    obtain ⟨-, u, hall, hgiven⟩ := Scope.exists_render_iff.mp ⟨_, _, hrender'⟩
    rw [mentions_draft] at hall hgiven
    obtain rfl := Except.ok.inj (hall'.symm.trans hall)
    exact hgiven
  -- its mentions are those of the shorter one and then others
  obtain ⟨rest, hrest⟩ := h.mentions
  rw [← hrest] at hall' hgiven'
  obtain ⟨t, hall, hbehind⟩ := Scope.nameAll_append_ok hall'
  have hextends : t.Extends t' := Scope.nameAll_extends hbehind
  -- so the shorter statement can be rendered too, and leaves the scope before the others
  have hexists : ∃ text u, s.render (Scope.new settings) = (.ok text, u) := by
    refine Scope.exists_render_iff.mpr ⟨h.sound _ hsound', t, ?_, ?_⟩
    · rw [mentions_draft]
      exact hall
    · intro m hm
      rw [mentions_draft] at hm
      rw [← Scope.nameOf?_nameAll hall hbehind hm]
      exact hgiven' m (List.mem_append_left _ hm)
  obtain ⟨text, u, hrender⟩ := hexists
  obtain rfl := Except.ok.inj (hall.symm.trans (render_ok hrender).1)
  obtain ⟨es, hes⟩ := hextends.params
  rw [Scope.values, hes] at hvalues'
  obtain ⟨params, hvalues, hprefix⟩ := Scope.paramValues_append hvalues'
  exact ⟨⟨text, params⟩, t, t', build_eq_ok_iff.mpr ⟨t, hrender, hvalues⟩, hrender, hrender',
    hextends, hprefix⟩

/-- **A call leaves what was there.** Let a statement be built after a call that did not put a
number of rows in the place of another one. Then it could be built before the call; its variables
had the names that come first now, and its parameters had the keys and values that come first now.
If the call added a clause, that is written behind the text that was there and a separator, with the
names that were given in that text. -/
theorem build_call {c : Call} {q' : Query} (h : s.call c = .ok s') (hcount : ¬s.Recounted s')
    (hbuild : (s'.build settings).result = .ok q') :
    ∃ q, (s.build settings).result = .ok q ∧
      (s.render (Scope.new settings)).2.vars.names <+:
        (s'.render (Scope.new settings)).2.vars.names ∧
      q.params <+: q'.params ∧
      ∀ clause, s' = s.add clause → ∃ text,
        ((s.render (Scope.new settings)).2.render clause.draft).1 = .ok text ∧
        q'.text = q.text ++ s.gap settings.separator ++ text := by
  obtain ⟨q, t, t', hq, hrender, hrender', ⟨⟨es, hes⟩, -⟩, hparams⟩ :=
    (call_continues h hcount).build hbuild
  refine ⟨q, hq, ?_, hparams, ?_⟩
  · rw [hrender, hrender', NameTable.names, NameTable.names, hes, List.map_append]
    exact List.prefix_append ..
  · rintro clause rfl
    obtain ⟨text, behind, u, hfirst, hbehind, htext⟩ := render_add hrender'
    rw [hrender] at hfirst
    obtain ⟨hsame, rfl⟩ := Prod.mk.inj hfirst
    obtain rfl := Except.ok.inj hsame
    exact ⟨behind, by rw [hrender, hbehind], htext⟩

/-- A statement with two alternative conditions on a node, one of them with a parameter. -/
def eitherWay : Statement :=
  let node : Node := ⟨0, none, ["Person"], []⟩
  made [.matching (.ofNode node),
    .whereAll (.compare .equal (.property node.toVar "name") (.param ⟨0, none, .string "Ann"⟩)),
    .whereAny (.isNull (.property node.toVar "name") false)]

/-- A further condition puts the alternatives between brackets; a RETURN is written behind them. -/
theorem build_call_eitherWay :
    let condition : Call := .whereAll (.param ⟨1, none, .boolean true⟩)
    let projection : Projection := ⟨false, .single ⟨.var ⟨0, .node, none⟩, none⟩⟩
    ∃ narrowed returned q q₁ q₂ text,
      eitherWay.call condition = .ok narrowed ∧
      narrowed.call (.returning projection) = .ok returned ∧
      (eitherWay.build .standard).result = .ok q ∧
      (narrowed.build .standard).result = .ok q₁ ∧
      (returned.build .standard).result = .ok q₂ ∧
      q.params <+: q₁.params ∧ q₁.params <+: q₂.params ∧ q₂.text = q₁.text ++ "\n" ++ text := by
  intro condition projection
  have hlast : ∀ {s s' : Statement} {e : Expr}, s.last? = some (.filter e) → ¬s.Recounted s' := by
    rintro s s' e hs ⟨last, clause, hlast, hkeyword, -⟩
    obtain rfl := Option.some.inj (hs.symm.trans hlast)
    simp [Clause.keyword] at hkeyword
  have hcalls : ∃ narrowed returned q₁ q₂ e e', eitherWay.call condition = .ok narrowed ∧
      narrowed.call (.returning projection) = .ok returned ∧
      (narrowed.build .standard).result = .ok q₁ ∧
      (returned.build .standard).result = .ok q₂ ∧
      eitherWay.last? = some (.filter e) ∧ narrowed.last? = some (.filter e') ∧
      returned = narrowed.add (.returning projection) ∧ narrowed.gap '\n' = "\n" :=
    ⟨_, _, _, _, _, _, rfl, rfl, rfl, rfl, rfl, rfl, rfl, rfl⟩
  obtain ⟨narrowed, returned, q₁, q₂, e, e', hcall₁, hcall₂, hq₁, hq₂, hlast₁, hlast₂, hadded,
    hgap⟩ := hcalls
  obtain ⟨q, hq, -, hparams, -⟩ := build_call hcall₁ (hlast hlast₁) hq₁
  obtain ⟨q₁', hq₁', -, hparams', htext⟩ := build_call hcall₂ (hlast hlast₂) hq₂
  obtain rfl := Except.ok.inj (hq₁.symm.trans hq₁')
  obtain ⟨text, -, heq⟩ := htext _ hadded
  rw [← hgap]
  exact ⟨narrowed, returned, q, q₁, q₂, text, hcall₁, hcall₂, hq, hq₁, hq₂, hparams, hparams', heq⟩

end Statement

end GraphQuery
