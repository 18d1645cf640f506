import GraphQuery.Scope.Table
import Mathlib.Data.List.Induction
import Mathlib.Data.List.Nodup
import Mathlib.Data.List.Perm.Subperm

set_option autoImplicit false

/-! # Names in tables

What one naming does to a table (`NameTable.name_cases`), and what every naming keeps: owners and
names are told apart, an explicit name is given as it is, and the numbers of generated names grow in
the order of naming (`NameTable.Lawful`).
-/

namespace GraphQuery.NameTable

/-! ## The free number

Numerals are told apart, so the candidates are, and more candidates than bound names cannot all
be bound. The number is the least one because the candidates are tried in order. -/

theorem generated_injective (stem : String) : Function.Injective (generated stem) := by
  intro a b h
  have hdigits : Nat.toDigits 10 a = Nat.toDigits 10 b := by
    have := congrArg String.toList h
    simpa [generated, Nat.toString_eq_repr] using this
  have := congrArg (Nat.ofDigitChars 10 · 0) hdigits
  simpa using this

theorem freeNumber_spec (bound : List String) (stem : String) (start : Nat) :
    start ≤ freeNumber bound stem start ∧
      generated stem (freeNumber bound stem start) ∉ bound := by
  have hcandidates : ((List.range (bound.length + 1)).map (start + ·)).Nodup :=
    List.nodup_range.map fun _ _ h => Nat.add_left_cancel h
  unfold freeNumber
  simp only
  cases hfind : ((List.range (bound.length + 1)).map (start + ·)).find?
      fun k => !bound.contains (generated stem k) with
  | none =>
      -- one candidate more than there are bound names
      have hall : ((List.range (bound.length + 1)).map (start + ·)).map (generated stem)
          ⊆ bound := by
        intro name hname
        obtain ⟨k, hk, rfl⟩ := List.mem_map.mp hname
        simpa using List.find?_eq_none.mp hfind k hk
      have hnodup := hcandidates.map (generated_injective stem)
      have hlength := (List.subperm_of_subset hnodup hall).length_le
      simp only [List.length_map, List.length_range] at hlength
      omega
  | some k =>
      have hmem := List.mem_of_find?_eq_some hfind
      obtain ⟨i, -, rfl⟩ := List.mem_map.mp hmem
      have hfree := List.find?_some hfind
      exact ⟨Nat.le_add_right _ _, by simpa using hfree⟩

/-- Every candidate below the free number makes a bound name. -/
theorem generated_mem_of_lt_freeNumber {bound : List String} {stem : String} {start j : Nat}
    (hstart : start ≤ j) (hj : j < freeNumber bound stem start) : generated stem j ∈ bound := by
  unfold freeNumber at hj
  simp only at hj
  cases hfind : ((List.range (bound.length + 1)).map (start + ·)).find?
      fun k => !bound.contains (generated stem k) with
  | none =>
      rw [hfind, Option.getD_none] at hj
      omega
  | some k =>
      rw [hfind, Option.getD_some] at hj
      obtain ⟨-, i, hi, hk, hbefore⟩ := List.find?_eq_some_iff_getElem.mp hfind
      simp only [List.length_map, List.length_range] at hi
      simp only [List.getElem_map, List.getElem_range] at hk hbefore
      have hbound := hbefore (j - start) (by omega)
      rw [Nat.add_sub_cancel' hstart] at hbound
      simpa using hbound

/-! ## Lawful tables

The last condition says which numbers the generated names have. They grow from entry to entry and
the counter is one more than the last of them, or still the first number if there is none. -/

section

variable {α : Type} {stem : α → String} {explicit? : α → Option String} {first : Nat}

/-- The generated names among some entries carry the numbers `ks`, which grow from entry to entry
and begin with `first` at the least. -/
structure NumberedBy (stem : α → String) (explicit? : α → Option String) (first : Nat)
    (entries : List (α × String)) (ks : List Nat) : Prop where
  names : List.Forall₂ (fun e k => e.2 = generated (stem e.1) k)
    (entries.filter fun e => (explicit? e.1).isNone) ks
  increasing : ks.Pairwise (· < ·)
  least : ∀ k ∈ ks, first ≤ k

/-- The tables that naming makes out of an empty one. -/
structure Lawful (stem : α → String) (explicit? : α → Option String) (first : Nat)
    (t : NameTable α) : Prop where
  owners_nodup : (t.entries.map Prod.fst).Nodup
  names_nodup : t.names.Nodup
  explicit_kept : ∀ e ∈ t.entries, ∀ name, explicit? e.1 = some name → e.2 = name
  first_le_next : first ≤ t.next
  numbered : ∃ ks, NumberedBy stem explicit? first t.entries ks ∧ (∀ k ∈ ks, k < t.next) ∧
    t.next = (ks.getLast?.map (· + 1)).getD first

theorem lawful_empty : Lawful stem explicit? first (empty first) where
  owners_nodup := List.nodup_nil
  names_nodup := List.nodup_nil
  explicit_kept := by simp [empty]
  first_le_next := Nat.le_refl first
  numbered := ⟨[], ⟨List.Forall₂.nil, List.Pairwise.nil, by simp⟩, by simp, rfl⟩

theorem NumberedBy.append_explicit {entries : List (α × String)} {ks : List Nat}
    (h : NumberedBy stem explicit? first entries ks) {owner : α} {name : String}
    (howner : explicit? owner = some name) :
    NumberedBy stem explicit? first (entries ++ [(owner, name)]) ks where
  names := by
    rw [List.filter_append, List.filter_cons_of_neg (by simp [howner]), List.filter_nil,
      List.append_nil]
    exact h.names
  increasing := h.increasing
  least := h.least

theorem NumberedBy.append_generated {entries : List (α × String)} {ks : List Nat}
    (h : NumberedBy stem explicit? first entries ks) {owner : α} {k : Nat}
    (howner : explicit? owner = none) (hks : ∀ j ∈ ks, j < k) (hk : first ≤ k) :
    NumberedBy stem explicit? first (entries ++ [(owner, generated (stem owner) k)])
      (ks ++ [k]) where
  names := by
    rw [List.filter_append, List.filter_cons_of_pos (by simp [howner]), List.filter_nil]
    exact List.rel_append h.names (List.Forall₂.cons rfl List.Forall₂.nil)
  increasing := by
    refine List.pairwise_append.mpr ⟨h.increasing, List.pairwise_singleton _ _, ?_⟩
    intro j hj k' hk'
    rw [List.mem_singleton.mp hk']
    exact hks j hj
  least := by
    intro j hj
    rcases List.mem_append.mp hj with hj | hj
    · exact h.least j hj
    · rw [List.mem_singleton.mp hj]
      exact hk

end

variable {α : Type} [DecidableEq α] {t : NameTable α} {owner : α} {r : Naming α}

/-! ## One naming

All that is proved of namings goes back to these two lemmas: one for a name that is given, with a
case for each way of giving it, and one for a name that is refused. -/

/-- What a naming does: an owner with a name keeps it; another one gets a name that is not bound, by
its own choice or with a number from the counter on. -/
theorem name_cases {stem : String} {explicit? : Option String}
    (h : t.name stem explicit? owner = .ok r) :
    (t.nameOf? owner = some r.name ∧ r.table = t) ∨
      (t.nameOf? owner = none ∧ r.name ∉ t.names ∧
        r.table.entries = t.entries ++ [(owner, r.name)] ∧
        ((explicit? = some r.name ∧ r.table.next = t.next) ∨
          (explicit? = none ∧
            ∃ k, t.next ≤ k ∧ r.name = generated stem k ∧ r.table.next = k + 1))) := by
  unfold name at h
  cases howner : t.nameOf? owner with
  | some name =>
      rw [howner] at h
      obtain rfl := Except.ok.inj h
      exact Or.inl ⟨rfl, rfl⟩
  | none =>
      rw [howner] at h
      refine Or.inr ⟨rfl, ?_⟩
      cases explicit? with
      -- an explicit name is entered if it is free, and the counter stays
      | some name =>
          simp only at h
          split at h
          · simp at h
          next hfree =>
              obtain rfl := Except.ok.inj h
              exact ⟨by simpa using hfree, rfl, Or.inl ⟨rfl, rfl⟩⟩
      | none =>
          obtain rfl := Except.ok.inj h
          -- a generated name is free by the choice of its number
          obtain ⟨hstart, hfree⟩ := freeNumber_spec t.names stem t.next
          exact ⟨hfree, rfl, Or.inr ⟨rfl, _, hstart, rfl, rfl⟩⟩

/-- What is refused is an explicit name that is bound, of an owner that has no name. -/
theorem name_eq_error_iff {stem : String} {explicit? : Option String} {name : String} :
    t.name stem explicit? owner = .error name ↔
      t.nameOf? owner = none ∧ explicit? = some name ∧ name ∈ t.names := by
  unfold NameTable.name
  cases t.nameOf? owner with
  | some given => simp
  | none =>
      cases explicit? with
      | none => simp
      | some given =>
          show (if t.names.contains given then Except.error given else _) = _ ↔ _
          by_cases hbound : given ∈ t.names
          · rw [if_pos (List.contains_iff_mem.mpr hbound)]
            constructor
            · intro h
              obtain rfl := Except.error.inj h
              exact ⟨rfl, rfl, hbound⟩
            · rintro ⟨-, h, -⟩
              rw [Option.some.inj h]
          · rw [if_neg (mt List.contains_iff_mem.mp hbound)]
            constructor
            · intro h
              simp at h
            · rintro ⟨-, h, hname⟩
              exact absurd (Option.some.inj h ▸ hname) hbound

/-! ## Looking up

An entry that is there stays the entry that is found, because new entries go to the end. -/

theorem nameOf?_eq_none_iff : t.nameOf? owner = none ↔ owner ∉ t.entries.map Prod.fst := by
  simp only [nameOf?, Option.map_eq_none_iff, List.find?_eq_none, List.mem_map, not_exists, not_and,
    beq_iff_eq]

theorem nameOf?_append {u : NameTable α} {es : List (α × String)}
    (hu : u.entries = t.entries ++ es) {name : String} (h : t.nameOf? owner = some name) :
    u.nameOf? owner = some name := by
  unfold nameOf? at h ⊢
  obtain ⟨e, he, rfl⟩ := Option.map_eq_some_iff.mp h
  rw [hu, List.find?_append, he]
  rfl

/-- An owner has its name in the table after a naming. -/
theorem nameOf?_name {stem : String} {explicit? : Option String}
    (h : t.name stem explicit? owner = .ok r) :
    r.table.nameOf? owner = some r.name := by
  obtain ⟨hname, htable⟩ | ⟨hnone, -, hentries, -⟩ := name_cases h
  · rw [htable, hname]
  · have hfind : t.entries.find? (fun e => e.1 == owner) = none := by
      simpa [nameOf?] using hnone
    rw [nameOf?, hentries, List.find?_append, hfind]
    simp

/-- The entries of a table stay where they are. -/
theorem exists_append_name {stem : String} {explicit? : Option String}
    (h : t.name stem explicit? owner = .ok r) :
    ∃ es, r.table.entries = t.entries ++ es := by
  obtain ⟨-, htable⟩ | ⟨-, -, hentries, -⟩ := name_cases h
  · exact ⟨[], by rw [htable, List.append_nil]⟩
  · exact ⟨_, hentries⟩

/-! ## The order of the owners -/

theorem eraseDups_concat {β : Type} [BEq β] [LawfulBEq β] (l : List β) (a : β) :
    (l ++ [a]).eraseDups = if l.contains a then l.eraseDups else l.eraseDups ++ [a] := by
  rw [List.eraseDups_append]
  by_cases h : a ∈ l
  · simp [h, List.removeAll]
  · simp [h, List.removeAll, List.eraseDups_cons]

theorem eraseDups_map {β γ : Type} [BEq β] [LawfulBEq β] [BEq γ] [LawfulBEq γ] {f : β → γ}
    {l : List β} (hf : ∀ a ∈ l, ∀ b ∈ l, f a = f b → a = b) :
    (l.map f).eraseDups = l.eraseDups.map f := by
  induction l using List.reverseRecOn with
  | nil => rfl
  | append_singleton l a ih =>
      have hinj : ∀ b ∈ l, ∀ c ∈ l, f b = f c → b = c := fun b hb c hc =>
        hf b (List.mem_append_left _ hb) c (List.mem_append_left _ hc)
      have hmem : (l.map f).contains (f a) = l.contains a := by
        rw [Bool.eq_iff_iff, List.contains_iff_mem, List.contains_iff_mem, List.mem_map]
        constructor
        · rintro ⟨b, hb, hab⟩
          rwa [← hf b (List.mem_append_left _ hb) a (by simp) hab]
        · exact fun ha => ⟨a, ha, rfl⟩
      rw [List.map_append, List.map_singleton, eraseDups_concat, eraseDups_concat, hmem, ih hinj]
      split
      · rfl
      · rw [List.map_append, List.map_singleton]

/-- A list with one more member at the end, unless it is in the list already. -/
def addNew (owners : List α) (owner : α) : List α :=
  if owner ∈ owners then owners else owners ++ [owner]

/-- Adding the members of a list one after the other adds their first occurrences. -/
theorem foldl_addNew (owners xs : List α) :
    xs.foldl addNew owners = owners ++ (xs.filter fun x => decide (x ∉ owners)).eraseDups := by
  induction xs generalizing owners with
  | nil => simp
  | cons x xs ih =>
      rw [List.foldl_cons, ih, addNew]
      -- an owner that is there already is dropped on both sides
      by_cases hx : x ∈ owners
      · rw [if_pos hx, List.filter_cons_of_neg (by simpa using hx)]
      · rw [if_neg hx, List.filter_cons_of_pos (by simpa using hx), List.eraseDups_cons,
          List.filter_filter, List.append_assoc, List.singleton_append]
        congr 3
        refine List.filter_congr fun y _ => ?_
        simp [and_comm, beq_eq_decide]

theorem owners_name {stem : String} {explicit? : Option String}
    (h : t.name stem explicit? owner = .ok r) :
    r.table.entries.map Prod.fst = addNew (t.entries.map Prod.fst) owner := by
  obtain ⟨hname, htable⟩ | ⟨hnone, -, hentries, -⟩ := name_cases h
  · have howner : owner ∈ t.entries.map Prod.fst := by
      by_contra hnot
      rw [nameOf?_eq_none_iff.mpr hnot] at hname
      simp at hname
    rw [htable, addNew, if_pos howner]
  · rw [addNew, if_neg (nameOf?_eq_none_iff.mp hnone), hentries, List.map_append]
    rfl

/-! ## Naming in lawful tables

In each case of a naming the new entry differs from all others in owner and name. With different
owners and different names looking up is membership, and an owner can be told from its name. -/

variable {stem : α → String} {explicit? : α → Option String} {first : Nat}

/-- **Naming keeps a table lawful.** -/
theorem Lawful.name (hlawful : Lawful stem explicit? first t)
    (h : t.name (stem owner) (explicit? owner) owner = .ok r) :
    Lawful stem explicit? first r.table := by
  obtain ⟨-, htable⟩ | ⟨hnone, hfree, hentries, hcase⟩ := name_cases h
  · rw [htable]
    exact hlawful
  · obtain ⟨ks, hks, hbelow, hcounter⟩ := hlawful.numbered
    have howners : (r.table.entries.map Prod.fst).Nodup := by
      rw [hentries, List.map_append]
      exact hlawful.owners_nodup.append (List.nodup_singleton _)
        (List.disjoint_singleton.mpr (nameOf?_eq_none_iff.mp hnone))
    have hnames : r.table.names.Nodup := by
      rw [names, hentries, List.map_append]
      exact hlawful.names_nodup.append (List.nodup_singleton _)
        (List.disjoint_singleton.mpr hfree)
    have hkept : ∀ e ∈ r.table.entries, ∀ name, explicit? e.1 = some name → e.2 = name := by
      intro e he name hname
      rw [hentries] at he
      rcases List.mem_append.mp he with he | he
      · exact hlawful.explicit_kept e he name hname
      · obtain rfl := List.mem_singleton.mp he
        rcases hcase with ⟨hexplicit, -⟩ | ⟨hexplicit, -⟩
        · exact Option.some.inj (hexplicit.symm.trans hname)
        · simp [hexplicit] at hname
    obtain ⟨hexplicit, hnext⟩ | ⟨hexplicit, k, hk, hname, hnext⟩ := hcase
    · -- an explicit name takes no number
      refine ⟨howners, hnames, hkept, hnext ▸ hlawful.first_le_next, ks, ?_, hnext ▸ hbelow,
        hnext.trans hcounter⟩
      rw [hentries]
      exact hks.append_explicit hexplicit
    · -- a generated name takes a number behind all that were taken before
      have hlast : ∀ j ∈ ks, j < k := fun j hj => Nat.lt_of_lt_of_le (hbelow j hj) hk
      have hfirst : first ≤ k := Nat.le_trans hlawful.first_le_next hk
      refine ⟨howners, hnames, hkept, by omega, ks ++ [k], ?_, ?_, by simp [hnext]⟩
      · rw [hentries, hname]
        exact hks.append_generated hexplicit hlast hfirst
      · intro j hj
        rcases List.mem_append.mp hj with hj | hj
        · have := hlast j hj
          omega
        · rw [List.mem_singleton.mp hj]
          omega

/-- What is found under a key that only one member has is that member. -/
theorem find?_key_eq_some_iff {β κ : Type} [DecidableEq κ] {key : β → κ} {l : List β}
    (hkeys : (l.map key).Nodup) {k : κ} {x : β} :
    l.find? (fun y => key y == k) = some x ↔ x ∈ l ∧ key x = k := by
  constructor
  · intro h
    exact ⟨List.mem_of_find?_eq_some h, by simpa using List.find?_some h⟩
  · rintro ⟨hx, rfl⟩
    cases hfind : l.find? fun y => key y == key x with
    | none => simpa using List.find?_eq_none.mp hfind x hx
    | some y =>
        have hkey : key y = key x := by simpa using List.find?_some hfind
        rw [List.inj_on_of_nodup_map hkeys (List.mem_of_find?_eq_some hfind) hx hkey]

/-- Looking up in a lawful table finds its entries. -/
theorem Lawful.nameOf?_eq_some_iff (hlawful : Lawful stem explicit? first t) {name : String} :
    t.nameOf? owner = some name ↔ (owner, name) ∈ t.entries := by
  simp only [nameOf?, Option.map_eq_some_iff, find?_key_eq_some_iff hlawful.owners_nodup]
  constructor
  · rintro ⟨e, ⟨he, rfl⟩, rfl⟩
    exact he
  · intro h
    exact ⟨(owner, name), ⟨h, rfl⟩, rfl⟩

/-- A lawful table whose owners were added one after the other to no owners. -/
theorem Lawful.entries_eq (hlawful : Lawful stem explicit? first t) {owners : List α}
    (howners : t.entries.map Prod.fst = owners.foldl addNew []) :
    t.entries = owners.eraseDups.map fun o => (o, (t.nameOf? o).getD "") := by
  -- added one after the other the owners are their first occurrences
  have hfirst : owners.eraseDups = t.entries.map Prod.fst := by
    rw [howners, foldl_addNew]
    simp
  rw [hfirst, List.map_map]
  refine (List.map_id _).symm.trans (List.map_congr_left fun e he => ?_)
  simp [hlawful.nameOf?_eq_some_iff.mpr he]

/-- In a lawful table an owner is told by its name. -/
theorem Lawful.owner_inj (hlawful : Lawful stem explicit? first t) {o o' : α} {name : String}
    (h : t.nameOf? o = some name) (h' : t.nameOf? o' = some name) : o = o' := by
  have hentry := hlawful.nameOf?_eq_some_iff.mp h
  have hentry' := hlawful.nameOf?_eq_some_iff.mp h'
  exact congrArg Prod.fst (List.inj_on_of_nodup_map hlawful.names_nodup hentry hentry' rfl)

end GraphQuery.NameTable
