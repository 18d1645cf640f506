import GraphQuery.Proofs.Scope.History

set_option autoImplicit false

/-! # The containers of a build

A name table is one list of entries. A build that runs keeps several containers in its place: a map
from owners to their names, a map from names to their owners, and a list in the order of naming, of
the names of the variables or of the parameters with their names. The maps know an owner by its
number alone, and the search for a free name is the loop that nothing bounds (`NameTable.Search`).

`BuildContext.name` is a naming with these containers. They stay in step with the tables of a scope:
whatever is named, and whichever names are refused, every answer is the answer of the scope, and the
containers hold what the entries of the tables say (`BuildContext.inStep_nameEach`).
-/

namespace GraphQuery

/-- The table after a naming, whether or not the name was refused. -/
def NameTable.after {α : Type} [DecidableEq α] (t : NameTable α) (stem : String)
    (explicit? : Option String) (owner : α) : NameTable α :=
  match t.name stem explicit? owner with
  | .ok r => r.table
  | .error _ => t

/-! ## The containers of a name space

The maps are hash maps and are asked for single keys only, so nothing depends on the order in
which they keep their entries. What has an order is the list. -/

/-- The names by the numbers of their owners, the numbers by the names, what is kept in the order of
naming, and the number to go on with. -/
structure Containers (β : Type) where
  names : Std.HashMap Nat String
  owners : Std.HashMap String Nat
  order : List β
  next : Nat

namespace Containers

variable {α β : Type}

def empty (first : Nat) : Containers β := ⟨∅, ∅, [], first⟩

/-- A name put into all containers, and the number to go on with. -/
def record (c : Containers β) (owner : Nat) (name : String) (kept : β) (next : Nat) :
    Containers β :=
  ⟨c.names.insert owner name, c.owners.insert name owner, c.order ++ [kept], next⟩

/-- A naming: the name of the owner or a name that is refused, and the containers after it. There is
no outcome if the search for a free name does not end. -/
def name (c : Containers β) (stem : String) (explicit? : Option String) (owner : Nat)
    (keep : String → β) : Option (Except String String × Containers β) :=
  match c.names[owner]? with
  | some name => some (.ok name, c)
  | none =>
      match explicit? with
      | some name =>
          if c.owners.contains name then some (.error name, c)
          else some (.ok name, c.record owner name (keep name) c.next)
      | none => do
          let found ← NameTable.Search.run ⟨c.owners.keys.toFinset, stem⟩ c.next
          some (.ok found.name, c.record owner found.name (keep found.name) found.next)

/-! ## In step with a table

A look-up by number and a look-up by name agree with the table, and the list is the table in the
form that the build wants. The step is a naming, and each of its cases writes to all containers
at once or to none of them. -/

section

variable [DecidableEq α]

/-- Containers that hold what the entries of a table say. An owner that is known goes by its
number. -/
structure InStep (number : α → Nat) (keep : α → String → β) (known : Set α) (c : Containers β)
    (t : NameTable α) : Prop where
  names : ∀ owner ∈ known, c.names[number owner]? = t.nameOf? owner
  owners : ∀ name, c.owners[name]? = (t.ownerOf? name).map number
  order : c.order = t.entries.map fun e => keep e.1 e.2
  next : c.next = t.next

variable {number : α → Nat} {keep : α → String → β} {known : Set α} {c : Containers β}
  {t : NameTable α} {owner : α}

theorem inStep_empty (first : Nat) : InStep number keep known (empty first) (.empty first) where
  names _ _ := Std.HashMap.getElem?_empty
  owners _ := Std.HashMap.getElem?_empty
  order := rfl
  next := rfl

/-- The names that the map to the owners has are the bound ones. -/
theorem InStep.mem_owners_iff (h : InStep number keep known c t) {name : String} :
    name ∈ c.owners ↔ name ∈ t.names := by
  rw [Std.HashMap.mem_iff_isSome_getElem?, h.owners, Option.isSome_map, NameTable.ownerOf?,
    Option.isSome_map, List.find?_isSome, NameTable.names, List.mem_map]
  simp

theorem InStep.contains_owners (h : InStep number keep known c t) (name : String) :
    c.owners.contains name = t.names.contains name := by
  rw [Bool.eq_iff_iff, Std.HashMap.contains_iff_mem, List.contains_iff_mem, h.mem_owners_iff]

theorem InStep.toFinset_keys (h : InStep number keep known c t) :
    c.owners.keys.toFinset = t.names.toFinset := by
  ext name
  rw [List.mem_toFinset, List.mem_toFinset, Std.HashMap.mem_keys, h.mem_owners_iff]

/-- A name that is put into all containers is one more entry of the table. -/
theorem InStep.record (h : InStep number keep known c t) (hnumber : Set.InjOn number known)
    (howner : owner ∈ known) {name : String} (hnew : t.nameOf? owner = none)
    (hfree : name ∉ t.names) (next : Nat) :
    InStep number keep known (c.record (number owner) name (keep owner name) next)
      ⟨t.entries ++ [(owner, name)], next⟩ := by
  constructor
  · intro other hother
    rw [Containers.record, Std.HashMap.getElem?_insert, h.names other hother,
      NameTable.nameOf?, NameTable.nameOf?, List.find?_append]
    by_cases hsame : owner = other
    · subst hsame
      rw [NameTable.nameOf?, Option.map_eq_none_iff] at hnew
      simp [hnew]
    · -- another owner has another number, and its entry is left alone
      have hnumbers : number owner ≠ number other := fun h => hsame (hnumber howner hother h)
      simp [hsame, hnumbers]
  · intro other
    rw [Containers.record, Std.HashMap.getElem?_insert, h.owners other, NameTable.ownerOf?,
      NameTable.ownerOf?, List.find?_append]
    by_cases hsame : name = other
    · subst hsame
      -- the name was free, so the new entry is the first one with it
      have hnone : t.entries.find? (fun e => e.2 == name) = none := by
        rw [List.find?_eq_none]
        intro e he heq
        exact hfree (beq_iff_eq.mp heq ▸ List.mem_map_of_mem he)
      simp [hnone]
    · simp [hsame]
  · rw [Containers.record, h.order, List.map_append, List.map_singleton]
  · rfl

/-- **One naming keeps the containers in step**, and gives the answer of the table. -/
theorem InStep.name (h : InStep number keep known c t) (hnumber : Set.InjOn number known)
    (howner : owner ∈ known) (stem : String) (explicit? : Option String) :
    ∃ c', c.name stem explicit? (number owner) (keep owner) =
        some ((t.name stem explicit? owner).map Naming.name, c') ∧
      InStep number keep known c' (t.after stem explicit? owner) := by
  unfold Containers.name NameTable.after NameTable.name
  rw [h.names owner howner]
  cases hnew : t.nameOf? owner with
  | some given => exact ⟨c, rfl, h⟩
  | none =>
      cases explicit? with
      | some given =>
          simp only [h.contains_owners]
          -- an explicit name is refused by both or entered by both
          by_cases hbound : given ∈ t.names
          · rw [if_pos (List.contains_iff_mem.mpr hbound),
              if_pos (List.contains_iff_mem.mpr hbound)]
            exact ⟨c, rfl, h⟩
          · rw [if_neg (mt List.contains_iff_mem.mp hbound),
              if_neg (mt List.contains_iff_mem.mp hbound), h.next]
            exact ⟨_, rfl, h.record hnumber howner hnew hbound t.next⟩
      | none =>
          -- the loop over the map of names ends at the free number of the table
          have hfree := (NameTable.freeNumber_spec t.names stem t.next).2
          rw [h.toFinset_keys, h.next, NameTable.Search.run_toFinset]
          exact ⟨_, rfl, h.record hnumber howner hnew hfree _⟩

end

end Containers

/-! ## The containers of a build

A mention goes to the containers of its name space and leaves the others alone. The run is any
sequence of mentions, as a caller or a statement gives them. -/

/-- The containers for the variables and those for the parameters. -/
structure BuildContext where
  vars : Containers String
  params : Containers (String × Param)

namespace BuildContext

def new : BuildContext := ⟨.empty 1, .empty 0⟩

/-- The naming of a mention with the containers of a build. -/
def name (b : BuildContext) (settings : Settings) :
    Mention → Option (Except RenderError String × BuildContext)
  | .var v =>
      (b.vars.name (settings.prefixFor v.kind) v.name? v.id fun name => name).map fun r =>
        (r.1.mapError (.namingConflict .vars), { b with vars := r.2 })
  | .param p =>
      (b.params.name settings.paramPrefix p.name? p.id (·, p)).map fun r =>
        (r.1.mapError (.namingConflict .params), { b with params := r.2 })

/-- The answers to mentions that are named one after the other, and the containers after them. -/
def nameEach (b : BuildContext) (settings : Settings) :
    List Mention → Option (List (Except RenderError String) × BuildContext)
  | [] => some ([], b)
  | m :: ms =>
      (b.name settings m).bind fun r =>
        (r.2.nameEach settings ms).map fun rs => (r.1 :: rs.1, rs.2)

/-- Mentions of which no two have the same number but name something different. -/
structure ToldApart (known : Set Mention) : Prop where
  vars : Set.InjOn Variable.id {v | .var v ∈ known}
  params : Set.InjOn Param.id {p | .param p ∈ known}

/-- The containers of a build hold what the tables of a scope say. -/
structure InStep (known : Set Mention) (b : BuildContext) (s : Scope) : Prop where
  vars : b.vars.InStep Variable.id (fun _ name => name) {v | .var v ∈ known} s.vars
  params : b.params.InStep Param.id (fun p name => (name, p)) {p | .param p ∈ known} s.params

variable {known : Set Mention} {b : BuildContext} {s : Scope} {m : Mention} {ms : List Mention}

/-- **The naming of a mention** gives the answer of the scope and keeps the containers in step. -/
theorem InStep.name (h : b.InStep known s) (hknown : ToldApart known) (hm : m ∈ known) :
    ∃ b', b.name s.settings m = some ((s.name m).1, b') ∧ b'.InStep known (s.name m).2 := by
  cases m with
  | var v =>
      -- the containers for variables take the step, and those for parameters stay
      obtain ⟨vars, hvars, hstep⟩ :=
        h.vars.name hknown.vars hm (s.settings.prefixFor v.kind) v.name?
      rw [BuildContext.name, hvars]
      unfold NameTable.after at hstep
      show ∃ b', _ = some ((s.nameVar v).1, b') ∧ InStep known b' (s.nameVar v).2
      unfold Scope.nameVar
      cases hname : s.vars.name (s.settings.prefixFor v.kind) v.name? v with
      | ok r =>
          rw [hname] at hstep
          exact ⟨_, rfl, hstep, h.params⟩
      | error name =>
          rw [hname] at hstep
          exact ⟨_, rfl, hstep, h.params⟩
  | param p =>
      -- and the other way round
      obtain ⟨params, hparams, hstep⟩ :=
        h.params.name hknown.params hm s.settings.paramPrefix p.name?
      rw [BuildContext.name, hparams]
      unfold NameTable.after at hstep
      show ∃ b', _ = some ((s.nameParam p).1, b') ∧ InStep known b' (s.nameParam p).2
      unfold Scope.nameParam
      cases hname : s.params.name s.settings.paramPrefix p.name? p with
      | ok r =>
          rw [hname] at hstep
          exact ⟨_, rfl, h.vars, hstep⟩
      | error name =>
          rw [hname] at hstep
          exact ⟨_, rfl, h.vars, hstep⟩

theorem InStep.nameEach (h : b.InStep known s) (hknown : ToldApart known)
    (hms : ∀ m ∈ ms, m ∈ known) :
    ∃ b', b.nameEach s.settings ms = some ((s.outcomes ms).map Prod.snd, b') ∧
      b'.InStep known (s.nameEach ms) := by
  induction ms generalizing b s with
  | nil => exact ⟨b, rfl, h⟩
  | cons m ms ih =>
      obtain ⟨b', hname, hstep⟩ := h.name hknown (hms m (by simp))
      obtain ⟨b'', hrest, hsteps⟩ := ih hstep fun m' hm' => hms m' (by simp [hm'])
      rw [Scope.settings_name] at hrest
      refine ⟨b'', ?_, hsteps⟩
      rw [BuildContext.nameEach, hname, Option.bind_some, hrest]
      rfl

/-- **The containers of a build stay in step with its scope.** Whatever mentions a new build names,
every search for a free name ends, each answer is that of the scope, and the containers hold what
the entries of the tables say. -/
theorem inStep_nameEach (settings : Settings) {ms : List Mention} (h : ToldApart {m | m ∈ ms}) :
    ∃ b, new.nameEach settings ms = some (((Scope.new settings).outcomes ms).map Prod.snd, b) ∧
      b.InStep {m | m ∈ ms} ((Scope.new settings).nameEach ms) :=
  InStep.nameEach (s := Scope.new settings)
    ⟨Containers.inStep_empty 1, Containers.inStep_empty 0⟩ h fun _ hm => hm

end BuildContext

end GraphQuery
