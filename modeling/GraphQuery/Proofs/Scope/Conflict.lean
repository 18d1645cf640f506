import GraphQuery.Proofs.Draft.Filling
import GraphQuery.Proofs.Scope.History

set_option autoImplicit false

/-! # When all names can be given

Naming some mentions in a new scope can only fail at an explicit name that is bound, either as the
explicit name of something else, or as a generated one that was given before
(`Scope.overtaken_of_refused`). Where no explicit name looks like a generated one, that is a matter
of the mentions alone: they all get their names exactly if no two different ones of a name space
have one explicit name (`Scope.exists_nameAll_iff`).
-/

namespace GraphQuery

namespace NameTable

variable {α : Type} {stem : α → String} {explicit? : α → Option String} {first : Nat}
  {t : NameTable α}

/-- Names in a lawful table are explicit or generated. -/
theorem Lawful.exists_generated (hlawful : Lawful stem explicit? first t) {e : α × String}
    (he : e ∈ t.entries) (hnone : explicit? e.1 = none) : ∃ k, e.2 = generated (stem e.1) k := by
  obtain ⟨ks, hks, -⟩ := hlawful.numbered
  have hboth : List.Forall₂
      (fun e k => (∃ k, e.2 = generated (stem e.1) k) ∧ e.2 = generated (stem e.1) k)
      (t.entries.filter fun e => (explicit? e.1).isNone) ks :=
    hks.names.imp fun _ k hk => ⟨⟨k, hk⟩, hk⟩
  refine ((List.forall₂_and_left _ _).mp hboth).1 e (List.mem_filter.mpr ⟨he, ?_⟩)
  rw [hnone]
  rfl

theorem generated_ne_empty (stem : String) (k : Nat) : generated stem k ≠ "" := by
  simp [generated]

end NameTable

/-! ## Explicit names

Two conditions on explicit names, both on the mentions alone: none of them looks like a generated
name, and no two different mentions of a name space share one. -/

/-- What generated names of a name space begin with. -/
def Settings.stems (settings : Settings) : NameSpace → List String
  | .vars => [settings.nodePrefix, settings.relationshipPrefix, settings.variablePrefix]
  | .params => [settings.paramPrefix]

theorem Settings.stem_mem_stems (settings : Settings) (m : Mention) :
    settings.stem m ∈ settings.stems m.space := by
  cases m with
  | var v =>
      obtain ⟨id, kind, name?⟩ := v
      cases kind <;> simp [stem, stems, prefixFor, Mention.space]
  | param p => exact List.mem_singleton_self _

namespace Mention

/-- Explicit names of some mentions are told apart from the names that would be generated. -/
def Ungenerated (settings : Settings) (ms : List Mention) : Prop :=
  ∀ m ∈ ms, ∀ name, m.explicit? = some name →
    ∀ stem ∈ settings.stems m.space, ∀ k, name ≠ NameTable.generated stem k

/-- No two different mentions of a name space have one explicit name. -/
def Apart (ms : List Mention) : Prop :=
  ∀ m ∈ ms, ∀ m' ∈ ms, m.space = m'.space →
    ∀ name, m.explicit? = some name → m'.explicit? = some name → m = m'

end Mention

namespace Scope

variable {s s' : Scope} {m : Mention} {ms : List Mention} {settings : Settings}

theorem nameEach_of_nameAll (h : s.nameAll ms = .ok s') : s.nameEach ms = s' := by
  induction ms generalizing s with
  | nil => exact Except.ok.inj h
  | cons m ms ih =>
      obtain ⟨name, t, hm, ht⟩ := nameAll_cons_ok h
      rw [nameEach, List.foldl_cons, hm]
      exact ih ht

/-- The table of a name space after naming some mentions in a new scope is lawful. -/
theorem lawful_table (h : (new settings).nameAll ms = .ok s') (space : NameSpace) :
    (s'.table space).Lawful settings.stem Mention.explicit? space.first := by
  rw [← nameEach_of_nameAll h]
  exact (lawful_nameEach settings ms space).1

/-- What has an explicit name is called so. -/
theorem nameOf?_of_explicit (h : (new settings).nameAll ms = .ok s') (hm : m ∈ ms) {name : String}
    (hexplicit : m.explicit? = some name) : s'.nameOf? m = some name := by
  have hlawful := lawful_table h m.space
  obtain ⟨given, hgiven⟩ := exists_nameOf?_of_nameAll h hm
  have hentry : (m, given) ∈ (s'.table m.space).entries := by
    rwa [← hlawful.nameOf?_eq_some_iff, nameOf?_table]
  rwa [← hlawful.explicit_kept (m, given) hentry name hexplicit]

/-- Different mentions of a name space that all have names have different ones. -/
theorem nameOf?_inj (h : (new settings).nameAll ms = .ok s') {m' : Mention}
    (hspace : m.space = m'.space) {name : String} (hm : s'.nameOf? m = some name)
    (hm' : s'.nameOf? m' = some name) : m = m' := by
  rw [← nameOf?_table] at hm hm'
  rw [← hspace] at hm'
  exact (lawful_table h m.space).owner_inj hm hm'

/-- Only what was mentioned has a name. -/
theorem mem_of_nameOf? (h : (new settings).nameAll ms = .ok s') {name : String}
    (hm : s'.nameOf? m = some name) : m ∈ ms := by
  have hlawful := (lawful_new settings).nameAll h
  obtain ⟨hvars, hparams⟩ := entries_nameAll_new h
  cases m with
  | var v =>
      have hentry := hlawful.vars.nameOf?_eq_some_iff.mp hm
      rw [hvars] at hentry
      obtain ⟨w, hw, hpair⟩ := List.mem_map.mp hentry
      obtain ⟨rfl, -⟩ := Prod.mk.inj hpair
      exact Mention.mem_filterMap_var?.mp (List.mem_eraseDups.mp hw)
  | param p =>
      have hentry := hlawful.params.nameOf?_eq_some_iff.mp hm
      rw [hparams] at hentry
      obtain ⟨q, hq, hpair⟩ := List.mem_map.mp hentry
      obtain ⟨rfl, -⟩ := Prod.mk.inj hpair
      exact Mention.mem_filterMap_param?.mp (List.mem_eraseDups.mp hq)

/-! ## Generated names that are given first

The list of mentions is split at the one that is refused. Whatever took its name stands before
the split, and where explicit names are not shared it has no explicit name itself. -/

/-- The explicit name of something that was not mentioned so far is taken: something else without an
explicit name was mentioned before and was given it as a generated one. -/
structure Overtaken (settings : Settings) (before : List Mention) (m : Mention) (name : String) :
    Prop where
  unmentioned : m ∉ before
  explicit : m.explicit? = some name
  given : ∃ s other k, (new settings).nameAll before = .ok s ∧ other ∈ before ∧
    other.space = m.space ∧ other.explicit? = none ∧ s.nameOf? other = some name ∧
    name = NameTable.generated (settings.stem other) k

/-- Where no explicit name is given to two owners, a name is refused only because it was given as a
generated one before. -/
theorem overtaken_of_refused (hs : (new settings).nameAll ms = .ok s) {e : RenderError} {t : Scope}
    (hrefused : s.name m = (.error e, t)) (hapart : Mention.Apart (ms ++ [m])) :
    ∃ name, e = .namingConflict m.space name ∧ Overtaken settings ms m name := by
  obtain ⟨-, hnone, name, hexplicit, hbound, rfl⟩ := name_eq_error_iff.mp hrefused
  have hnew : m ∉ ms := by
    intro hm
    obtain ⟨given, hgiven⟩ := exists_nameOf?_of_nameAll hs hm
    simp [hnone] at hgiven
  have hlawful := lawful_table hs m.space
  obtain ⟨other, hother⟩ := hlawful.mem_names_iff.mp hbound
  have hentry := hlawful.nameOf?_eq_some_iff.mp hother
  have hspace : other.space = m.space := space_of_mem_table hentry
  rw [← hspace, nameOf?_table] at hother
  have hmem := mem_of_nameOf? hs hother
  have hnone' : other.explicit? = none := by
    by_contra hsome
    obtain ⟨own, hown⟩ := Option.ne_none_iff_exists'.mp hsome
    -- the name is the explicit name of both
    have hsame := hlawful.explicit_kept (other, name) hentry own hown
    rw [← hsame] at hown
    have heq := hapart other (List.mem_append_left _ hmem) m (by simp) hspace name hown hexplicit
    exact hnew (heq ▸ hmem)
  obtain ⟨k, hk⟩ := hlawful.exists_generated hentry hnone'
  exact ⟨name, rfl, hnew, hexplicit, s, other, k, hs, hmem, hspace, hnone', hother, hk⟩

/-- What was given before cannot be given as an explicit name. -/
theorem Overtaken.refused {name : String} (h : Overtaken settings ms m name) :
    (new settings).nameAll (ms ++ [m]) ≠ .ok s' := by
  obtain ⟨-, hexplicit, s, other, -, hs, hmem, hspace, hnone, hother, -⟩ := h
  intro hall
  have hm := nameOf?_of_explicit hall (by simp) hexplicit
  obtain ⟨t, ht, hrest⟩ := nameAll_append_ok hall
  obtain rfl := Except.ok.inj (hs.symm.trans ht)
  have hsame := nameOf?_inj hall hspace ((nameAll_extends hrest).nameOf? hother) hm
  rw [hsame, hexplicit] at hnone
  simp at hnone

/-- Where no explicit name is given to two owners, all names can be given exactly if none of them
was given as a generated one before. -/
theorem exists_nameAll_iff_of_apart (hapart : Mention.Apart ms) :
    (∃ s', (new settings).nameAll ms = .ok s') ↔
      ∀ before m after name, ms = before ++ m :: after → ¬Overtaken settings before m name := by
  constructor
  · rintro ⟨s', h⟩ before m after name rfl hovertaken
    rw [List.append_cons] at h
    obtain ⟨t, ht, -⟩ := nameAll_append_ok h
    exact hovertaken.refused ht
  · intro hfree
    -- from the end: whatever overtakes the last mention stands before it
    induction ms using List.reverseRecOn with
    | nil => exact ⟨_, rfl⟩
    | append_singleton ms m ih =>
        have hmem : ∀ {m'}, m' ∈ ms → m' ∈ ms ++ [m] := fun h => List.mem_append_left _ h
        obtain ⟨s, hs⟩ := ih (fun m' hm' m'' hm'' => hapart m' (hmem hm') m'' (hmem hm''))
          fun before m' after name hms =>
            hfree before m' (after ++ [m]) name (by simp [hms])
        rw [nameAll_append hs]
        cases hname : s.name m with
        | mk named t =>
            cases named with
            | ok name => exact ⟨t, nameAll_singleton hname⟩
            | error e =>
                obtain ⟨name, -, hovertaken⟩ := overtaken_of_refused hs hname hapart
                exact absurd hovertaken (hfree ms m [] name rfl)

/-- **All names can be given** exactly if no explicit name is given to two owners. -/
theorem exists_nameAll_iff (hnames : Mention.Ungenerated settings ms) :
    (∃ s', (new settings).nameAll ms = .ok s') ↔ Mention.Apart ms := by
  constructor
  · rintro ⟨s', h⟩ m hm m' hm' hspace name hexplicit hexplicit'
    exact nameOf?_inj h hspace (nameOf?_of_explicit h hm hexplicit)
      (nameOf?_of_explicit h hm' hexplicit')
  · intro hapart
    refine (exists_nameAll_iff_of_apart hapart).mpr ?_
    rintro before m after name rfl ⟨-, hexplicit, s, other, k, -, -, hspace, -, -, rfl⟩
    exact hnames m (by simp) _ hexplicit _ (hspace ▸ settings.stem_mem_stems other) k rfl

/-- Some name that was given is empty exactly if it is explicit. -/
theorem nameOf?_eq_empty_iff (h : (new settings).nameAll ms = .ok s') (hm : m ∈ ms) :
    s'.nameOf? m = some "" ↔ m.explicit? = some "" := by
  constructor
  · intro hempty
    have hlawful := lawful_table h m.space
    have hentry : (m, "") ∈ (s'.table m.space).entries := by
      rwa [← hlawful.nameOf?_eq_some_iff, nameOf?_table]
    cases hexplicit : m.explicit? with
    | some name => rw [← hlawful.explicit_kept (m, "") hentry name hexplicit]
    | none =>
        obtain ⟨k, hk⟩ := hlawful.exists_generated hentry hexplicit
        exact absurd hk.symm (NameTable.generated_ne_empty _ k)
  · exact nameOf?_of_explicit h hm

end Scope

end GraphQuery
