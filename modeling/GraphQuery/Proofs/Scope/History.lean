import GraphQuery.Proofs.Scope.FreeName
import GraphQuery.Proofs.Scope.Naming
import Mathlib.Data.List.Find
import Mathlib.Data.List.Induction
import Mathlib.Data.Set.Function
import Mathlib.Order.Bounds.Defs

set_option autoImplicit false

/-! # Any history of a scope

`Scope.nameEach` names mentions one after the other and goes on where a name is refused. Whatever
the mentions and the prefixes are, the scope that is left is consistent (`Scope.Consistent`): its
tables tell owners and names apart, no name that was given is ever changed, and a name is refused
only where another owner has it.

Both tables of a scope obey the same rules, so they are read as tables of mentions here
(`Scope.table`).
-/

namespace GraphQuery

/-! ## Tables with other owners

Looking up compares owners only with each other. So an injective map of the owners changes
nothing, and the tables of variables and of parameters can both be read as tables of mentions. -/

namespace NameTable

variable {α β : Type}

/-- The table with other owners in place of its own. -/
def map (f : α → β) (t : NameTable α) : NameTable β :=
  ⟨t.entries.map fun e => (f e.1, e.2), t.next⟩

def ownerOf? (t : NameTable α) (name : String) : Option α :=
  (t.entries.find? fun e => e.2 == name).map Prod.fst

@[simp] theorem names_map (f : α → β) (t : NameTable α) : (t.map f).names = t.names := by
  simp [names, map]

variable [DecidableEq α] [DecidableEq β]

/-- Owners that are told apart after the exchange have the names that they had. -/
theorem nameOf?_map {f : α → β} {owners : Set α} (hf : Set.InjOn f owners) {t : NameTable α}
    (ht : ∀ e ∈ t.entries, e.1 ∈ owners) {owner : α} (howner : owner ∈ owners) :
    (t.map f).nameOf? (f owner) = t.nameOf? owner := by
  have hsame : ∀ e ∈ t.entries, (f e.1 == f owner) = (e.1 == owner) := fun e he => by
    simp [beq_eq_decide, hf.eq_iff (ht e he) howner]
  simp [nameOf?, map, List.find?_map, Function.comp_def, List.find?_congr hsame]

/-- A table with other owners names as the table does. -/
theorem name_map {f : α → β} {owners : Set α} (hf : Set.InjOn f owners) {t : NameTable α}
    (ht : ∀ e ∈ t.entries, e.1 ∈ owners) {owner : α} (howner : owner ∈ owners) (stem : String)
    (explicit? : Option String) :
    (t.map f).name stem explicit? (f owner) =
      (t.name stem explicit? owner).map fun r => ⟨r.name, r.table.map f, r.passedOver⟩ := by
  unfold name
  rw [nameOf?_map hf ht howner, names_map]
  cases t.nameOf? owner with
  | some given => rfl
  | none =>
      cases explicit? with
      | some given =>
          by_cases hbound : t.names.contains given = true
          · simp only [hbound, if_true]
            rfl
          · simp only [hbound]
            simp [Except.map, bind, map]
      | none =>
          simp only [map, Except.map, List.map_append]
          rfl

/-- An owner without a name and without an explicit one gets a generated name with the least number
from the counter on that makes a free name. -/
theorem name_generated {t : NameTable α} {owner : α} (h : t.nameOf? owner = none)
    (stem : String) :
    ∃ k r, IsLeast {k | t.next ≤ k ∧ generated stem k ∉ t.names} k ∧
      t.name stem none owner = .ok r ∧ r.name = generated stem k ∧ r.table.next = k + 1 := by
  unfold name
  rw [h]
  exact ⟨_, _, isLeast_freeNumber t.names stem t.next, rfl, rfl, rfl⟩

/-- The tables that record what was given: looking up by owner and looking up by name are inverse to
each other, each name stands once, in the order in which the names were given first, and the numbers
of the generated names grow in that order, up to the counter. -/
structure Records (stem : α → String) (explicit? : α → Option String) (first : Nat)
    (t : NameTable α) (given : List (α × String)) : Prop where
  inverse : ∀ owner name, t.nameOf? owner = some name ↔ t.ownerOf? name = some owner
  names_nodup : t.names.Nodup
  entries_eq : t.entries = given.eraseDups
  numbered : ∃ ks, NumberedBy stem explicit? first t.entries ks ∧
    t.next = (ks.getLast?.map (· + 1)).getD first

variable {t : NameTable α} {stem : α → String} {explicit? : α → Option String} {first : Nat}

omit [DecidableEq α] in
theorem Lawful.ownerOf?_eq_some_iff (hlawful : Lawful stem explicit? first t) {owner : α}
    {name : String} : t.ownerOf? name = some owner ↔ (owner, name) ∈ t.entries := by
  have hnames : (t.entries.map Prod.snd).Nodup := hlawful.names_nodup
  simp only [ownerOf?, Option.map_eq_some_iff, find?_key_eq_some_iff hnames]
  constructor
  · rintro ⟨e, ⟨he, rfl⟩, rfl⟩
    exact he
  · intro h
    exact ⟨(owner, name), ⟨h, rfl⟩, rfl⟩

/-- A name is bound in a lawful table if looking its owner up gives it. -/
theorem Lawful.mem_names_iff (hlawful : Lawful stem explicit? first t) {name : String} :
    name ∈ t.names ↔ ∃ owner, t.nameOf? owner = some name := by
  constructor
  · intro h
    obtain ⟨e, he, rfl⟩ := List.mem_map.mp h
    exact ⟨e.1, hlawful.nameOf?_eq_some_iff.mpr he⟩
  · rintro ⟨owner, h⟩
    exact List.mem_map.mpr ⟨(owner, name), hlawful.nameOf?_eq_some_iff.mp h, rfl⟩

/-- A name that is given comes to the end of what was given, and is left out if it was given
before. -/
theorem Lawful.entries_name (hlawful : Lawful stem explicit? first t) {owner : α} {r : Naming α}
    {given : List (α × String)} (hentries : t.entries = given.eraseDups)
    (h : t.name (stem owner) (explicit? owner) owner = .ok r) :
    r.table.entries = (given ++ [(owner, r.name)]).eraseDups := by
  rw [eraseDups_concat, ← hentries]
  obtain ⟨hnamed, hsame⟩ | ⟨hnone, -, happend, -⟩ := name_cases h
  · have hmem := hlawful.nameOf?_eq_some_iff.mp hnamed
    rw [hentries, List.mem_eraseDups] at hmem
    rw [if_pos (List.contains_iff_mem.mpr hmem), hsame]
  · have hnew : (owner, r.name) ∉ given := by
      intro hmem
      rw [← List.mem_eraseDups, ← hentries] at hmem
      exact nameOf?_eq_none_iff.mp hnone (List.mem_map_of_mem hmem)
    rw [if_neg (mt List.contains_iff_mem.mp hnew), happend]

theorem Lawful.records (hlawful : Lawful stem explicit? first t) {given : List (α × String)}
    (hentries : t.entries = given.eraseDups) : Records stem explicit? first t given where
  inverse _ _ := by rw [hlawful.nameOf?_eq_some_iff, hlawful.ownerOf?_eq_some_iff]
  names_nodup := hlawful.names_nodup
  entries_eq := hentries
  numbered := by
    obtain ⟨ks, hks, -, hnext⟩ := hlawful.numbered
    exact ⟨ks, hks, hnext⟩

end NameTable

/-! ## Mentions and their tables

From here on a mention has a name space, perhaps an explicit name, and a stem for generated
names. All further statements are about mentions, with no case distinction between variables and
parameters. -/

/-- The number that the first generated name of a name space may have. -/
def NameSpace.first : NameSpace → Nat
  | .vars => 1
  | .params => 0

namespace Mention

def space : Mention → NameSpace
  | .var _ => .vars
  | .param _ => .params

def explicit? : Mention → Option String
  | .var v => v.name?
  | .param p => p.name?

end Mention

/-- What a generated name of a mention begins with. -/
def Settings.stem (settings : Settings) : Mention → String
  | .var v => settings.prefixFor v.kind
  | .param _ => settings.paramPrefix

namespace Scope

variable {s s' t : Scope} {m : Mention} {ms : List Mention} {name : String}

/-- The table of a name space, with mentions for its owners. -/
def table (s : Scope) : NameSpace → NameTable Mention
  | .vars => s.vars.map .var
  | .params => s.params.map .param

theorem var_injective : Function.Injective Mention.var := fun _ _ h => Mention.var.inj h

theorem param_injective : Function.Injective Mention.param := fun _ _ h => Mention.param.inj h

/-- What a mention has for a name stands in the table of its name space. -/
theorem nameOf?_table (s : Scope) (m : Mention) : (s.table m.space).nameOf? m = s.nameOf? m := by
  cases m with
  | var v => exact NameTable.nameOf?_map var_injective.injOn (fun _ _ => Set.mem_univ _) trivial
  | param p => exact NameTable.nameOf?_map param_injective.injOn (fun _ _ => Set.mem_univ _) trivial

/-- The table of a name space has mentions of that name space for its owners. -/
theorem space_of_mem_table {space : NameSpace} {e : Mention × String}
    (h : e ∈ (s.table space).entries) : e.1.space = space := by
  cases space with
  | vars =>
      obtain ⟨_, -, rfl⟩ := List.mem_map.mp h
      rfl
  | params =>
      obtain ⟨_, -, rfl⟩ := List.mem_map.mp h
      rfl

/-! ## One naming

A naming works on the table of its name space as `NameTable.name` does, and leaves the other one
and the settings alone. -/

/-- A mention that has a name keeps it, and the scope stays as it is. -/
theorem name_of_named (h : s.nameOf? m = some name) : s.name m = (.ok name, s) := by
  cases m with
  | var v =>
      have hv : s.vars.nameOf? v = some name := h
      simp [Scope.name, nameVar, NameTable.name, hv]
  | param p =>
      have hp : s.params.nameOf? p = some name := h
      simp [Scope.name, nameParam, NameTable.name, hp]

/-- A mention is named as its table names it, and where the table refuses the scope stays as it
is. -/
theorem name_table (s : Scope) (m : Mention) :
    (∃ r t, (s.table m.space).name (s.settings.stem m) m.explicit? m = .ok r ∧
        s.name m = (.ok r.name, t) ∧ t.table m.space = r.table) ∨
      ∃ name, (s.table m.space).name (s.settings.stem m) m.explicit? m = .error name ∧
        s.name m = (.error (.namingConflict m.space name), s) := by
  cases m with
  | var v =>
      -- the table of mentions is the table of variables with other owners
      have htable := NameTable.name_map var_injective.injOn (t := s.vars)
        (fun _ _ => Set.mem_univ _) (Set.mem_univ v) (s.settings.prefixFor v.kind) v.name?
      cases hv : s.vars.name (s.settings.prefixFor v.kind) v.name? v with
      | ok r =>
          have hname : s.nameVar v =
              (.ok r.name, ⟨s.settings, r.table, s.params, s.passedOver ++ r.passedOver⟩) := by
            simp only [nameVar, hv]
          rw [hv] at htable
          exact Or.inl ⟨_, _, htable, hname, rfl⟩
      | error name =>
          rw [hv] at htable
          exact Or.inr ⟨name, htable, by simp only [Scope.name, nameVar, hv, Mention.space]⟩
  | param p =>
      have htable := NameTable.name_map param_injective.injOn (t := s.params)
        (fun _ _ => Set.mem_univ _) (Set.mem_univ p) s.settings.paramPrefix p.name?
      cases hp : s.params.name s.settings.paramPrefix p.name? p with
      | ok r =>
          have hname : s.nameParam p =
              (.ok r.name, ⟨s.settings, s.vars, r.table, s.passedOver ++ r.passedOver⟩) := by
            simp only [nameParam, hp]
          rw [hp] at htable
          exact Or.inl ⟨_, _, htable, hname, rfl⟩
      | error name =>
          rw [hp] at htable
          exact Or.inr ⟨name, htable, by simp only [Scope.name, nameParam, hp, Mention.space]⟩

/-- A naming leaves the table of the other name space and the settings as they are. -/
theorem table_name_of_ne {space : NameSpace} (h : m.space ≠ space) :
    (s.name m).2.table space = s.table space := by
  cases m with
  | var v =>
      cases space with
      | vars => exact absurd rfl h
      | params =>
          simp only [name, nameVar]
          split <;> rfl
  | param p =>
      cases space with
      | vars =>
          simp only [name, nameParam]
          split <;> rfl
      | params => exact absurd rfl h

theorem settings_name (s : Scope) (m : Mention) : (s.name m).2.settings = s.settings := by
  cases m with
  | var v =>
      simp only [name, nameVar]
      split <;> rfl
  | param p =>
      simp only [name, nameParam]
      split <;> rfl

/-- A name is refused exactly if it is the explicit name of something without a name so far and is
bound in its name space. The fault says so, and the scope stays as it is. -/
theorem name_eq_error_iff {e : RenderError} :
    s.name m = (.error e, t) ↔
      t = s ∧ s.nameOf? m = none ∧ ∃ name, m.explicit? = some name ∧
        name ∈ (s.table m.space).names ∧ e = .namingConflict m.space name := by
  rw [← nameOf?_table]
  rcases name_table s m with ⟨r, u, htable, hname, -⟩ | ⟨name, htable, hname⟩
  -- a mention that was given a name is not refused
  · constructor
    · intro h
      rw [hname] at h
      simp at h
    · rintro ⟨-, hnone, name, hexplicit, hbound, -⟩
      have hrefused : (s.table m.space).name (s.settings.stem m) m.explicit? m = .error name :=
        NameTable.name_eq_error_iff.mpr ⟨hnone, hexplicit, hbound⟩
      rw [htable] at hrefused
      simp at hrefused
  · obtain ⟨hnone, hexplicit, hbound⟩ := NameTable.name_eq_error_iff.mp htable
    rw [hname]
    constructor
    · intro h
      obtain ⟨he, hs⟩ := Prod.mk.inj h
      exact ⟨hs.symm, hnone, name, hexplicit, hbound, (Except.error.inj he).symm⟩
    · rintro ⟨rfl, -, name', hexplicit', -, rfl⟩
      rw [Option.some.inj (hexplicit.symm.trans hexplicit')]

/-! ## A history

A history goes on behind a refusal, as a caller does who handles the fault. So it is a fold,
whose steps cannot fail. -/

/-- The scope after some mentions are named one after the other, each whether or not the one before
it was refused. -/
def nameEach (s : Scope) (ms : List Mention) : Scope := ms.foldl (fun s m => (s.name m).2) s

/-- The mentions of a history, each with the name it was given or the fault. -/
def outcomes (s : Scope) : List Mention → List (Mention × Except RenderError String)
  | [] => []
  | m :: ms => (m, (s.name m).1) :: (s.name m).2.outcomes ms

/-- The name in an outcome, with the mention that it was given to. -/
def granted? : Mention × Except RenderError String → Option (Mention × String)
  | (m, .ok name) => some (m, name)
  | (_, .error _) => none

/-- The names that a history gave in a name space, in order. -/
def given (s : Scope) (space : NameSpace) (ms : List Mention) : List (Mention × String) :=
  ((s.outcomes ms).filter fun o => o.1.space = space).filterMap granted?

theorem nameEach_concat (s : Scope) (ms : List Mention) (m : Mention) :
    s.nameEach (ms ++ [m]) = ((s.nameEach ms).name m).2 := by
  simp [nameEach]

theorem outcomes_concat (s : Scope) (ms : List Mention) (m : Mention) :
    s.outcomes (ms ++ [m]) = s.outcomes ms ++ [(m, ((s.nameEach ms).name m).1)] := by
  induction ms generalizing s with
  | nil => rfl
  | cons m' ms ih => simp only [List.cons_append, outcomes, ih, nameEach, List.foldl_cons]

theorem settings_nameEach (s : Scope) (ms : List Mention) :
    (s.nameEach ms).settings = s.settings := by
  induction ms using List.reverseRecOn with
  | nil => rfl
  | append_singleton ms m ih => rw [nameEach_concat, settings_name, ih]

/-! ### Names stay

Tables only grow at their end, and looking up finds the first entry of an owner. -/

theorem name_snd_extends (s : Scope) (m : Mention) : s.Extends (s.name m).2 := by
  rcases name_table s m with ⟨r, t, -, hname, -⟩ | ⟨name, -, hname⟩
  · rw [hname]
    exact name_extends hname
  · rw [hname]
    exact Extends.refl s

theorem nameEach_extends (s : Scope) (ms : List Mention) : s.Extends (s.nameEach ms) := by
  induction ms using List.reverseRecOn with
  | nil => exact Extends.refl s
  | append_singleton ms m ih =>
      rw [nameEach_concat]
      exact ih.trans (name_snd_extends _ m)

/-- **A name that was given stays**, whatever is named in between. -/
theorem name_nameEach (h : s.name m = (.ok name, t)) (ms : List Mention) :
    (t.nameEach ms).name m = (.ok name, t.nameEach ms) :=
  name_of_named ((nameEach_extends t ms).nameOf? (nameOf?_name h))

/-! ### What the tables record

The induction on the history keeps two facts together: the tables are lawful, and their entries
are the names that were given, each as it was given first. -/

theorem given_concat (s : Scope) (space : NameSpace) (ms : List Mention) (m : Mention) :
    s.given space (ms ++ [m]) = s.given space ms ++
      if m.space = space then (granted? (m, ((s.nameEach ms).name m).1)).toList else [] := by
  rw [given, outcomes_concat, List.filter_append, List.filterMap_append]
  by_cases h : m.space = space
  · cases hname : granted? (m, ((s.nameEach ms).name m).1) <;> simp [given, h, hname]
  · simp [given, h]

/-- After a history the table of each name space is lawful and holds what was given there. -/
theorem lawful_nameEach (settings : Settings) (ms : List Mention) (space : NameSpace) :
    (((new settings).nameEach ms).table space).Lawful settings.stem Mention.explicit? space.first ∧
      (((new settings).nameEach ms).table space).entries =
        ((new settings).given space ms).eraseDups := by
  induction ms using List.reverseRecOn with
  | nil =>
      cases space with
      | vars => exact ⟨NameTable.lawful_empty, rfl⟩
      | params => exact ⟨NameTable.lawful_empty, rfl⟩
  | append_singleton ms m ih =>
      obtain ⟨hlawful, hentries⟩ := ih
      have hsettings := settings_nameEach (new settings) ms
      rw [nameEach_concat, given_concat]
      -- a mention of the other name space leaves the table as it is
      by_cases hspace : m.space = space
      · subst hspace
        rw [if_pos rfl]
        rcases name_table ((new settings).nameEach ms) m with
          ⟨r, t, htable, hname, ht⟩ | ⟨name, -, hname⟩
        · rw [hsettings] at htable
          rw [hname, ht]
          exact ⟨hlawful.name htable, hlawful.entries_name hentries htable⟩
        · rw [hname]
          simpa [granted?] using ⟨hlawful, hentries⟩
      · rw [table_name_of_ne hspace, if_neg hspace, List.append_nil]
        exact ⟨hlawful, hentries⟩

/-! ### Variables and parameters apart

A history restricted to one name space does in that name space what the whole history does. The
relation between the two scopes looks at one table only. -/

/-- Two scopes that give the same names in a name space. -/
def Agrees (space : NameSpace) (s s' : Scope) : Prop :=
  s.settings = s'.settings ∧ s.table space = s'.table space

theorem Agrees.refl (space : NameSpace) (s : Scope) : Agrees space s s := ⟨rfl, rfl⟩

theorem Agrees.named (h : Agrees m.space s s') :
    (s.name m).1 = (s'.name m).1 ∧ Agrees m.space (s.name m).2 (s'.name m).2 := by
  obtain ⟨hsettings, htable⟩ := h
  rcases name_table s m with ⟨r, t, hr, hname, ht⟩ | ⟨name, hrefused, hname⟩
  · rcases name_table s' m with ⟨r', t', hr', hname', ht'⟩ | ⟨name', hrefused', hname'⟩
    · rw [hsettings, htable, hr'] at hr
      obtain rfl := Except.ok.inj hr
      refine ⟨by rw [hname, hname'], ?_, by rw [hname, hname', ht, ht']⟩
      rw [settings_name, settings_name, hsettings]
    · rw [hsettings, htable, hrefused'] at hr
      simp at hr
  · rcases name_table s' m with ⟨r', t', hr', hname', ht'⟩ | ⟨name', hrefused', hname'⟩
    · rw [hsettings, htable, hr'] at hrefused
      simp at hrefused
    · rw [hsettings, htable, hrefused'] at hrefused
      obtain rfl := Except.error.inj hrefused
      rw [hname, hname']
      exact ⟨rfl, hsettings, htable⟩

/-- A naming in the other name space changes nothing in a name space. -/
theorem agrees_name_of_ne {space : NameSpace} (h : m.space ≠ space) :
    Agrees space (s.name m).2 s :=
  ⟨settings_name s m, table_name_of_ne h⟩

/-- What a history does in a name space it does without the mentions of the other one. -/
theorem Agrees.history {space : NameSpace} (h : Agrees space s s') (ms : List Mention) :
    Agrees space (s.nameEach ms) (s'.nameEach (ms.filter fun m => m.space = space)) ∧
      (s.outcomes ms).filter (fun o => o.1.space = space) =
        s'.outcomes (ms.filter fun m => m.space = space) := by
  induction ms generalizing s s' with
  | nil => exact ⟨h, rfl⟩
  | cons m ms ih =>
      by_cases hspace : m.space = space
      · subst hspace
        obtain ⟨houtcome, hafter⟩ := h.named
        obtain ⟨hagrees, houtcomes⟩ := ih hafter
        simp only [outcomes, List.filter_cons, decide_true, if_true]
        exact ⟨hagrees, by rw [houtcome, houtcomes]⟩
      · have hafter : Agrees space (s.name m).2 s' := by
          obtain ⟨hsettings, htable⟩ := agrees_name_of_ne (s := s) hspace
          exact ⟨hsettings.trans h.1, htable.trans h.2⟩
        simp only [outcomes, List.filter_cons, hspace, decide_false]
        exact ih hafter

/-! ## Consistency

The parts of `Scope.Consistent` are proved apart and put together at the end. -/

/-- What holds in a scope after some mentions were named in a new one. -/
structure Consistent (settings : Settings) (ms : List Mention) (s : Scope) : Prop where
  /-- The tables record what was given, variables numbered from one and parameters from zero. -/
  records : ∀ space, (s.table space).Records settings.stem Mention.explicit? space.first
    ((new settings).given space ms)
  /-- A name that is given stays, and asking for it again changes nothing. -/
  stays : ∀ m name t, s.name m = (.ok name, t) → ∀ ms',
    (t.nameEach ms').name m = (.ok name, t.nameEach ms')
  /-- An explicit name is refused where another owner has it, and nowhere else. -/
  refused_iff : ∀ m, (∃ e t, s.name m = (.error e, t)) ↔
    s.nameOf? m = none ∧ ∃ name other, m.explicit? = some name ∧ other ≠ m ∧
      other.space = m.space ∧ s.nameOf? other = some name
  /-- A refusal changes nothing. -/
  refused : ∀ m e t, s.name m = (.error e, t) → t = s
  /-- A generated name has the least number from the counter on that makes a free name, and the
  counter goes on behind it. -/
  generated : ∀ m, s.nameOf? m = none → m.explicit? = none → ∃ k t,
    IsLeast {k | (s.table m.space).next ≤ k ∧
      NameTable.generated (settings.stem m) k ∉ (s.table m.space).names} k ∧
    s.name m = (.ok (NameTable.generated (settings.stem m) k), t) ∧
      (t.table m.space).next = k + 1
  /-- Variables are named as without the parameters, and parameters as without the variables. -/
  apart : ∀ space,
    s.table space =
        ((new settings).nameEach (ms.filter fun m => m.space = space)).table space ∧
      ((new settings).outcomes ms).filter (fun o => o.1.space = space) =
        (new settings).outcomes (ms.filter fun m => m.space = space)

theorem refused_nameEach_iff (settings : Settings) (ms : List Mention) (m : Mention) :
    (∃ e t, ((new settings).nameEach ms).name m = (.error e, t)) ↔
      ((new settings).nameEach ms).nameOf? m = none ∧
        ∃ name other, m.explicit? = some name ∧ other ≠ m ∧ other.space = m.space ∧
          ((new settings).nameEach ms).nameOf? other = some name := by
  have hlawful := (lawful_nameEach settings ms m.space).1
  constructor
  · rintro ⟨e, t, h⟩
    obtain ⟨-, hnone, name, hexplicit, hbound, -⟩ := name_eq_error_iff.mp h
    obtain ⟨other, hother⟩ := hlawful.mem_names_iff.mp hbound
    have hspace : other.space = m.space :=
      space_of_mem_table (hlawful.nameOf?_eq_some_iff.mp hother)
    rw [← hspace, nameOf?_table] at hother
    refine ⟨hnone, name, other, hexplicit, ?_, hspace, hother⟩
    rintro rfl
    rw [hnone] at hother
    simp at hother
  · rintro ⟨hnone, name, other, hexplicit, -, hspace, hother⟩
    rw [← nameOf?_table, hspace] at hother
    have hbound := hlawful.mem_names_iff.mpr ⟨other, hother⟩
    exact ⟨_, _, name_eq_error_iff.mpr ⟨rfl, hnone, name, hexplicit, hbound, rfl⟩⟩

theorem generated_nameEach (settings : Settings) (ms : List Mention) {m : Mention}
    (hnone : ((new settings).nameEach ms).nameOf? m = none) (hexplicit : m.explicit? = none) :
    ∃ k t,
      IsLeast {k | (((new settings).nameEach ms).table m.space).next ≤ k ∧
        NameTable.generated (settings.stem m) k ∉
          (((new settings).nameEach ms).table m.space).names} k ∧
      ((new settings).nameEach ms).name m =
        (.ok (NameTable.generated (settings.stem m) k), t) ∧
      (t.table m.space).next = k + 1 := by
  have hsettings : ((new settings).nameEach ms).settings = settings :=
    settings_nameEach (new settings) ms
  rw [← nameOf?_table] at hnone
  obtain ⟨k, r, hleast, hr, hname, hnext⟩ :=
    NameTable.name_generated hnone (settings.stem m)
  rcases name_table ((new settings).nameEach ms) m with
    ⟨r', t, htable, hnamed, ht⟩ | ⟨name, htable, -⟩
  · rw [hsettings, hexplicit, hr] at htable
    obtain rfl := Except.ok.inj htable
    exact ⟨k, t, hleast, by rw [hnamed, hname], by rw [ht, hnext]⟩
  · rw [hsettings, hexplicit, hr] at htable
    simp at htable

/-- **Every history leaves a consistent scope.** -/
theorem consistent_nameEach (settings : Settings) (ms : List Mention) :
    Consistent settings ms ((new settings).nameEach ms) where
  records space := by
    obtain ⟨hlawful, hentries⟩ := lawful_nameEach settings ms space
    exact hlawful.records hentries
  stays _ _ _ h ms' := name_nameEach h ms'
  refused_iff := refused_nameEach_iff settings ms
  refused _ _ _ h := (name_eq_error_iff.mp h).1
  generated _ hnone hexplicit := generated_nameEach settings ms hnone hexplicit
  apart space := by
    obtain ⟨⟨-, htable⟩, houtcomes⟩ := (Agrees.refl space (new settings)).history ms
    exact ⟨htable, houtcomes⟩

/-- Names of a node that is called `n2`, of three nodes, and of one that would be called `n1`. -/
example :
    let node (id : Nat) (name? : Option String) : Mention := .var ⟨id, .node, name?⟩
    ((new .standard).nameEach [node 0 (some "n2"), node 1 none, node 2 none, node 3 (some "n1"),
      node 1 none]).vars.names = ["n2", "n1", "n3"] := by
  decide +kernel

end Scope

end GraphQuery
