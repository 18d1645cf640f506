import GraphQuery.Proofs.Name.Reading
import GraphQuery.Proofs.Scope.Table
import GraphQuery.Scope.Basic

set_option autoImplicit false

/-! # Naming a list of mentions

A mention is a place in a text where a variable or a parameter stands. `Scope.nameAll` names what a
list of mentions names, one mention after the other, without any text; `Scope.names` is the table
that this leaves.
-/

namespace GraphQuery

/-- A mention of a variable or a parameter. -/
inductive Mention where
  | var (v : Variable)
  | param (p : Param)
deriving DecidableEq

/-- A name for every variable and every parameter. -/
structure Names where
  var : Variable → String
  param : Param → String

namespace Mention

def var? : Mention → Option Variable
  | .var v => some v
  | .param _ => none

def param? : Mention → Option Param
  | .var _ => none
  | .param p => some p

theorem mem_filterMap_var? {ms : List Mention} {v : Variable} :
    v ∈ ms.filterMap var? ↔ .var v ∈ ms := by
  rw [List.mem_filterMap]
  constructor
  · rintro ⟨m, hm, hv⟩
    cases m with
    | var w =>
        obtain rfl := Option.some.inj hv
        exact hm
    | param p => simp [var?] at hv
  · exact fun h => ⟨.var v, h, rfl⟩

theorem mem_filterMap_param? {ms : List Mention} {p : Param} :
    p ∈ ms.filterMap param? ↔ .param p ∈ ms := by
  rw [List.mem_filterMap]
  constructor
  · rintro ⟨m, hm, hp⟩
    cases m with
    | var v => simp [param?] at hp
    | param q =>
        obtain rfl := Option.some.inj hp
        exact hm
  · exact fun h => ⟨.param p, h, rfl⟩

def written (n : Names) : Mention → List Char
  | .var v => Name.writtenBinding (n.var v)
  | .param p => '$' :: Name.writtenBinding (n.param p)

end Mention

namespace Scope

/-- The names in a scope. What has none there is given the empty name. -/
def names (s : Scope) : Names where
  var v := (s.vars.nameOf? v).getD ""
  param p := (s.params.nameOf? p).getD ""

/-- The name of what a mention names, given on the first mention. -/
def name (s : Scope) : Mention → Except RenderError String × Scope
  | .var v => s.nameVar v
  | .param p => s.nameParam p

/-- The scope after some mentions are named one after the other, unless a name is refused. -/
def nameAll (s : Scope) : List Mention → Except RenderError Scope
  | [] => .ok s
  | m :: ms =>
      match s.name m with
      | (.ok _, s) => s.nameAll ms
      | (.error e, _) => .error e

def nameOf? (s : Scope) : Mention → Option String
  | .var v => s.vars.nameOf? v
  | .param p => s.params.nameOf? p

variable {s s' : Scope} {m : Mention} {ms : List Mention} {name : String}

theorem names_var {v : Variable} (h : s.nameOf? (.var v) = some name) : s.names.var v = name := by
  simp only [nameOf?] at h
  simp [names, h]

theorem names_param {p : Param} (h : s.nameOf? (.param p) = some name) :
    s.names.param p = name := by
  simp only [nameOf?] at h
  simp [names, h]

/-! ## One naming

Naming a mention gives the name that it is looked up by from then on, and extends the scope. -/

theorem nameVar_ok {v : Variable} (h : s.nameVar v = (.ok name, s')) :
    ∃ r, s.vars.name (s.settings.prefixFor v.kind) v.name? v = .ok r ∧ r.name = name ∧
      s' = ⟨s.settings, r.table, s.params, s.passedOver ++ r.passedOver⟩ := by
  unfold nameVar at h
  split at h
  next r hr =>
      obtain ⟨hname, rfl⟩ := Prod.mk.inj h
      exact ⟨r, hr, Except.ok.inj hname, rfl⟩
  · simp at h

theorem nameParam_ok {p : Param} (h : s.nameParam p = (.ok name, s')) :
    ∃ r, s.params.name s.settings.paramPrefix p.name? p = .ok r ∧ r.name = name ∧
      s' = ⟨s.settings, s.vars, r.table, s.passedOver ++ r.passedOver⟩ := by
  unfold nameParam at h
  split at h
  next r hr =>
      obtain ⟨hname, rfl⟩ := Prod.mk.inj h
      exact ⟨r, hr, Except.ok.inj hname, rfl⟩
  · simp at h

/-- A scope is extended by another one that has more entries at the end of its tables. -/
structure Extends (s s' : Scope) : Prop where
  vars : ∃ es, s'.vars.entries = s.vars.entries ++ es
  params : ∃ es, s'.params.entries = s.params.entries ++ es

theorem Extends.refl (s : Scope) : s.Extends s := ⟨⟨[], by simp⟩, ⟨[], by simp⟩⟩

theorem Extends.trans {s'' : Scope} (h : s.Extends s') (h' : s'.Extends s'') : s.Extends s'' := by
  obtain ⟨⟨vs, hvs⟩, ⟨ps, hps⟩⟩ := h
  obtain ⟨⟨vs', hvs'⟩, ⟨ps', hps'⟩⟩ := h'
  exact ⟨⟨vs ++ vs', by rw [hvs', hvs, List.append_assoc]⟩,
    ⟨ps ++ ps', by rw [hps', hps, List.append_assoc]⟩⟩

/-- A name that has been given stays. -/
theorem Extends.nameOf? (h : s.Extends s') (hm : s.nameOf? m = some name) :
    s'.nameOf? m = some name := by
  obtain ⟨⟨vs, hvs⟩, ⟨ps, hps⟩⟩ := h
  cases m with
  | var v => exact NameTable.nameOf?_append hvs hm
  | param p => exact NameTable.nameOf?_append hps hm

theorem name_extends (h : s.name m = (.ok name, s')) : s.Extends s' := by
  cases m with
  | var v =>
      obtain ⟨r, hr, -, rfl⟩ := nameVar_ok h
      exact ⟨NameTable.exists_append_name hr, ⟨[], by simp⟩⟩
  | param p =>
      obtain ⟨r, hr, -, rfl⟩ := nameParam_ok h
      exact ⟨⟨[], by simp⟩, NameTable.exists_append_name hr⟩

theorem nameOf?_name (h : s.name m = (.ok name, s')) : s'.nameOf? m = some name := by
  cases m with
  | var v =>
      obtain ⟨r, hr, rfl, rfl⟩ := nameVar_ok h
      exact NameTable.nameOf?_name hr
  | param p =>
      obtain ⟨r, hr, rfl, rfl⟩ := nameParam_ok h
      exact NameTable.nameOf?_name hr

/-! ## A list of mentions

Here a refusal ends the naming, as it ends a rendering. So all mentions have a name in the scope
that is left. -/

theorem nameAll_cons_ok (h : s.nameAll (m :: ms) = .ok s') :
    ∃ name t, s.name m = (.ok name, t) ∧ t.nameAll ms = .ok s' := by
  rw [nameAll] at h
  split at h
  next name t hm => exact ⟨name, t, hm, h⟩
  · simp at h

theorem nameAll_extends (h : s.nameAll ms = .ok s') : s.Extends s' := by
  induction ms generalizing s with
  | nil =>
      obtain rfl := Except.ok.inj h
      exact Extends.refl s
  | cons m ms ih =>
      obtain ⟨name, t, hm, ht⟩ := nameAll_cons_ok h
      exact (name_extends hm).trans (ih ht)

/-- Whatever was mentioned has a name in the end. -/
theorem exists_nameOf?_of_nameAll (h : s.nameAll ms = .ok s') (hm : m ∈ ms) :
    ∃ name, s'.nameOf? m = some name := by
  induction ms generalizing s with
  | nil => simp at hm
  | cons m' ms ih =>
      obtain ⟨name, t, hm', ht⟩ := nameAll_cons_ok h
      rcases List.mem_cons.mp hm with rfl | hm
      · exact ⟨name, (nameAll_extends ht).nameOf? (nameOf?_name hm')⟩
      · exact ih ht hm

/-! ## The order of the owners

An owner is entered on its first mention. The owners of a table are therefore the first
occurrences among the mentions of its name space. -/

/-- Variables and parameters enter their tables in the order of their first mentions. -/
theorem owners_nameAll (h : s.nameAll ms = .ok s') :
    s'.vars.entries.map Prod.fst =
        (ms.filterMap Mention.var?).foldl NameTable.addNew (s.vars.entries.map Prod.fst) ∧
      s'.params.entries.map Prod.fst =
        (ms.filterMap Mention.param?).foldl NameTable.addNew (s.params.entries.map Prod.fst) := by
  induction ms generalizing s with
  | nil =>
      obtain rfl := Except.ok.inj h
      exact ⟨rfl, rfl⟩
  | cons m ms ih =>
      obtain ⟨given, t, hm, ht⟩ := nameAll_cons_ok h
      obtain ⟨hvars, hparams⟩ := ih ht
      -- a variable is entered among the variables only, a parameter among the parameters
      cases m with
      | var v =>
          obtain ⟨r, hr, -, rfl⟩ := nameVar_ok hm
          rw [List.filterMap_cons_some (f := Mention.var?) (b := v) rfl, List.foldl_cons,
            ← NameTable.owners_name hr]
          exact ⟨hvars, hparams⟩
      | param p =>
          obtain ⟨r, hr, -, rfl⟩ := nameParam_ok hm
          refine ⟨hvars, ?_⟩
          rw [List.filterMap_cons_some (f := Mention.param?) (b := p) rfl, List.foldl_cons,
            ← NameTable.owners_name hr]
          exact hparams

/-! ## Lawful scopes

Both tables of a scope are lawful, with the stems and the first numbers that the settings and the
name space ask for. In such a scope a mention can be told from its text. -/

/-- The scopes that naming makes out of a new one. -/
structure Lawful (settings : Settings) (s : Scope) : Prop where
  settings_eq : s.settings = settings
  vars : s.vars.Lawful (fun v => settings.prefixFor v.kind) Variable.name? 1
  params : s.params.Lawful (fun _ => settings.paramPrefix) Param.name? 0

variable {settings : Settings}

theorem lawful_new (settings : Settings) : (new settings).Lawful settings :=
  ⟨rfl, NameTable.lawful_empty, NameTable.lawful_empty⟩

theorem Lawful.named (hs : s.Lawful settings) (h : s.name m = (.ok name, s')) :
    s'.Lawful settings := by
  obtain ⟨rfl, hvars, hparams⟩ := hs
  cases m with
  | var v =>
      obtain ⟨r, hr, -, rfl⟩ := nameVar_ok h
      exact ⟨rfl, hvars.name hr, hparams⟩
  | param p =>
      obtain ⟨r, hr, -, rfl⟩ := nameParam_ok h
      exact ⟨rfl, hvars, hparams.name hr⟩

/-- **Naming keeps a scope lawful.** -/
theorem Lawful.nameAll (hs : s.Lawful settings) (h : s.nameAll ms = .ok s') :
    s'.Lawful settings := by
  induction ms generalizing s with
  | nil =>
      obtain rfl := Except.ok.inj h
      exact hs
  | cons m ms ih =>
      obtain ⟨name, t, hm, ht⟩ := nameAll_cons_ok h
      exact ih (hs.named hm) ht

/-- The tables after naming in a new scope: the variables and the parameters in the order of their
first mentions, each with its name. -/
theorem entries_nameAll_new (h : (new settings).nameAll ms = .ok s') :
    s'.vars.entries =
        (ms.filterMap Mention.var?).eraseDups.map (fun v => (v, s'.names.var v)) ∧
      s'.params.entries =
        (ms.filterMap Mention.param?).eraseDups.map (fun p => (p, s'.names.param p)) := by
  have hlawful := (lawful_new settings).nameAll h
  obtain ⟨hvars, hparams⟩ := owners_nameAll h
  exact ⟨hlawful.vars.entries_eq hvars, hlawful.params.entries_eq hparams⟩

/-- Mentions with the same text in a lawful scope are mentions of the same variable or the same
parameter. -/
theorem Lawful.written_inj (hs : s.Lawful settings) {m m' : Mention} {name name' : String}
    (hm : s.nameOf? m = some name) (hm' : s.nameOf? m' = some name')
    (h : m.written s.names = m'.written s.names) : m = m' := by
  -- a variable never begins as a parameter does
  have hdollar : ∀ {a : String} {cs : List Char}, Name.writtenBinding a ≠ '$' :: cs := by
    intro a cs ha
    obtain ⟨c, tail, hc, hstart⟩ := Name.exists_cons_writtenBinding a
    rw [hc] at ha
    obtain ⟨rfl, -⟩ := List.cons.inj ha
    revert hstart
    decide
  cases m with
  | var v =>
      cases m' with
      | var w =>
          have hname := Name.writtenBinding_inj h
          rw [names_var hm, names_var hm'] at hname
          subst hname
          exact congrArg Mention.var (hs.vars.owner_inj hm hm')
      | param q => exact absurd h hdollar
  | param p =>
      cases m' with
      | var w => exact absurd h.symm hdollar
      | param q =>
          have hname := Name.writtenBinding_inj (List.cons.inj h).2
          rw [names_param hm, names_param hm'] at hname
          subst hname
          exact congrArg Mention.param (hs.params.owner_inj hm hm')

end Scope

end GraphQuery
