import Mathlib
import GraphQuery.Proofs.Expr.Induction

set_option autoImplicit false

/-! # Maps in order

The entries of a map stand in ascending order of their keys. `Value.sortEntries` brings entries with
different keys into this order (`Value.sortEntries_perm`), which is the only one of its kind:
entries that differ in their order only are sorted alike, and sorted entries stay as they are.
-/

namespace GraphQuery

namespace Value

variable {α β : Type}

/-- Entries in ascending order of their keys, each key once. -/
def Ascending (entries : List (String × α)) : Prop := entries.Pairwise fun a b => a.1 < b.1

/-! ## Putting one entry in

The new entry goes before the first greater key, or in the place of an equal one. Comparing keys
is enough to say where, so values can be mapped before or after. -/

theorem mem_of_mem_insertEntry {key : String} {value : α} {entries : List (String × α)}
    {e : String × α} (h : e ∈ insertEntry key value entries) : e = (key, value) ∨ e ∈ entries := by
  induction entries with
  | nil => exact Or.inl (List.mem_singleton.mp h)
  | cons e' rest ih =>
      obtain ⟨k, v⟩ := e'
      rw [insertEntry] at h
      by_cases hlt : key < k
      · rw [if_pos hlt] at h
        exact List.mem_cons.mp h
      · rw [if_neg hlt] at h
        by_cases heq : key = k
        · rw [if_pos heq] at h
          exact (List.mem_cons.mp h).imp_right (List.mem_cons_of_mem _)
        · rw [if_neg heq] at h
          rcases List.mem_cons.mp h with rfl | h
          · exact Or.inr List.mem_cons_self
          · exact (ih h).imp_right (List.mem_cons_of_mem _)

theorem ascending_insertEntry (key : String) (value : α) {entries : List (String × α)}
    (h : Ascending entries) : Ascending (insertEntry key value entries) := by
  induction entries with
  | nil => exact List.pairwise_singleton _ _
  | cons e rest ih =>
      obtain ⟨k, v⟩ := e
      obtain ⟨hfirst, hrest⟩ := List.pairwise_cons.mp h
      rw [insertEntry]
      -- the entry goes before the first one, in its place, or behind it
      by_cases hlt : key < k
      · rw [if_pos hlt]
        refine List.pairwise_cons.mpr ⟨?_, h⟩
        intro e he
        rcases List.mem_cons.mp he with rfl | he
        · exact hlt
        · exact hlt.trans (hfirst e he)
      · rw [if_neg hlt]
        by_cases heq : key = k
        · rw [if_pos heq]
          subst heq
          exact List.pairwise_cons.mpr ⟨hfirst, hrest⟩
        · rw [if_neg heq]
          have hgreater : k < key := lt_of_le_of_ne (not_lt.mp hlt) (Ne.symm heq)
          refine List.pairwise_cons.mpr ⟨?_, ih hrest⟩
          intro e he
          rcases mem_of_mem_insertEntry he with rfl | he
          · exact hgreater
          · exact hfirst e he

/-- An entry with a new key is one more entry. -/
theorem insertEntry_perm (key : String) (value : α) {entries : List (String × α)}
    (h : key ∉ entries.map Prod.fst) :
    (insertEntry key value entries).Perm ((key, value) :: entries) := by
  induction entries with
  | nil => exact List.Perm.refl _
  | cons e rest ih =>
      obtain ⟨k, v⟩ := e
      obtain ⟨hne, hrest⟩ := List.ne_and_not_mem_of_not_mem_cons h
      rw [insertEntry]
      by_cases hlt : key < k
      · rw [if_pos hlt]
      · rw [if_neg hlt, if_neg hne]
        exact ((ih hrest).cons (k, v)).trans (List.Perm.swap _ _ _)

/-- Only keys decide where an entry goes. -/
theorem insertEntry_map (f : α → β) (key : String) (value : α) (entries : List (String × α)) :
    insertEntry key (f value) (entries.map fun e => (e.1, f e.2)) =
      (insertEntry key value entries).map fun e => (e.1, f e.2) := by
  induction entries with
  | nil => rfl
  | cons e rest ih =>
      obtain ⟨k, v⟩ := e
      rw [List.map_cons, insertEntry, insertEntry, ih]
      by_cases hlt : key < k
      · rw [if_pos hlt, if_pos hlt]
        rfl
      · rw [if_neg hlt, if_neg hlt]
        by_cases heq : key = k
        · rw [if_pos heq, if_pos heq]
          rfl
        · rw [if_neg heq, if_neg heq]
          rfl

/-! ## Sorting

Entries are put in one after the other, so of several with one key the last one is left. -/

theorem ascending_sortEntries (entries : List (String × α)) : Ascending (sortEntries entries) := by
  have hfold : ∀ sorted : List (String × α), Ascending sorted →
      Ascending (entries.foldl (fun sorted e => insertEntry e.1 e.2 sorted) sorted) := by
    induction entries with
    | nil => exact fun _ h => h
    | cons e rest ih => exact fun sorted h => ih _ (ascending_insertEntry e.1 e.2 h)
  exact hfold [] List.Pairwise.nil

/-- Entries with different keys are all kept. -/
theorem sortEntries_perm {entries : List (String × α)} (h : (entries.map Prod.fst).Nodup) :
    (sortEntries entries).Perm entries := by
  have hfold : ∀ sorted : List (String × α), ((sorted ++ entries).map Prod.fst).Nodup →
      (entries.foldl (fun sorted e => insertEntry e.1 e.2 sorted) sorted).Perm
        (sorted ++ entries) := by
    clear h
    induction entries with
    | nil =>
        intro sorted _
        rw [List.append_nil]
        exact List.Perm.refl _
    | cons e rest ih =>
        intro sorted h
        -- the key of the entry is in front of all others, and then none of those before it
        have hmiddle : (sorted ++ e :: rest).Perm (e :: sorted ++ rest) := List.perm_middle
        have hkeys := (hmiddle.map Prod.fst).nodup_iff.mp h
        rw [List.cons_append, List.map_cons, List.nodup_cons, List.map_append,
          List.mem_append, not_or] at hkeys
        have hput := insertEntry_perm e.1 e.2 hkeys.1.1
        have hwhole := (hput.append_right rest).trans hmiddle.symm
        exact (ih _ ((hwhole.map Prod.fst).nodup_iff.mpr h)).trans hwhole
  exact hfold [] h

/-- Only keys decide how entries are sorted. -/
theorem sortEntries_map (f : α → β) (entries : List (String × α)) :
    sortEntries (entries.map fun e => (e.1, f e.2)) =
      (sortEntries entries).map fun e => (e.1, f e.2) := by
  have hfold : ∀ sorted : List (String × α),
      (entries.map fun e => (e.1, f e.2)).foldl (fun sorted e => insertEntry e.1 e.2 sorted)
          (sorted.map fun e => (e.1, f e.2)) =
        (entries.foldl (fun sorted e => insertEntry e.1 e.2 sorted) sorted).map
          fun e => (e.1, f e.2) := by
    induction entries with
    | nil => exact fun _ => rfl
    | cons e rest ih =>
        intro sorted
        have hput := insertEntry_map f e.1 e.2 sorted
        rw [List.map_cons, List.foldl_cons, List.foldl_cons, hput, ih]
  exact hfold []

/-! ## One order

A list in ascending order is determined by its members. -/

theorem Ascending.nodup {entries : List (String × α)} (h : Ascending entries) :
    (entries.map Prod.fst).Nodup :=
  List.pairwise_map.mpr (h.imp fun hlt => ne_of_lt hlt)

/-- There is one ascending order of some entries. -/
theorem Ascending.eq_of_perm {xs ys : List (String × α)} (hx : Ascending xs) (hy : Ascending ys)
    (h : xs.Perm ys) : xs = ys :=
  List.Perm.eq_of_pairwise (fun _ _ _ _ hab hba => absurd hba (lt_asymm hab)) hx hy h

/-- The order in which entries with different keys are given does not matter. -/
theorem sortEntries_eq_of_perm {xs ys : List (String × α)} (hx : (xs.map Prod.fst).Nodup)
    (h : xs.Perm ys) : sortEntries xs = sortEntries ys := by
  have hy : (ys.map Prod.fst).Nodup := (h.map Prod.fst).nodup_iff.mp hx
  refine (ascending_sortEntries xs).eq_of_perm (ascending_sortEntries ys) ?_
  exact (sortEntries_perm hx).trans (h.trans (sortEntries_perm hy).symm)

theorem sortEntries_eq_self {entries : List (String × α)} (h : Ascending entries) :
    sortEntries entries = entries :=
  (ascending_sortEntries entries).eq_of_perm h (sortEntries_perm h.nodup)

/-! ## Values

A value that was built from entries, at any depth, has its maps in order. The condition is asked
for where the order of entries shows: in places, in JSON forms and in literals. -/

/-- The maps in a value, at any depth, have their keys in ascending order. -/
def Ordered : Value → Prop
  | .list items => ∀ v ∈ items, v.Ordered
  | .map entries => Ascending entries ∧ ∀ e ∈ entries, e.2.Ordered
  | .null | .boolean _ | .integer _ | .float _ | .string _ | .bytes _ => True
decreasing_by
  · have := List.sizeOf_lt_of_mem ‹_›
    simp_wf
    omega
  · have := sizeOf_value_lt_of_mem ‹_›
    simp_wf
    omega

end Value

end GraphQuery
