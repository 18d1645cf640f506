import GraphQuery.Proofs.Scope.Table
import Mathlib.Data.Finset.Card
import Mathlib.Data.Finset.Dedup
import Mathlib.Order.Bounds.Defs

set_option autoImplicit false

/-! # The search for a free name

A name is generated by trying one number after the other until a name is not bound. `Search.run` is
that loop as it stands: nothing in it bounds how long it runs. It ends all the same, since numerals
are told apart and so each candidate that is passed over uses up a bound name of its own. Where it
ends is the least number that makes a free name (`freeNumber_search`).
-/

namespace GraphQuery.NameTable

/-! ## The loop

The loop is a partial function, defined by its equation alone. `Search.run_eq` says where it ends
if there is a free name at or behind the start and every candidate before that one is bound. -/

/-- A search: the bound names, and what the candidates begin with. -/
structure Search where
  bound : Finset String
  stem : String

/-- What a search finds: a free name, the number to go on with, and the names that were passed
over. -/
structure Found where
  name : String
  next : Nat
  passedOver : List String

/-- How many candidates were looked at: those that were passed over, and the free one. -/
def Found.tried (f : Found) : Nat := f.passedOver.length + 1

/-- The search from a number on: a bound candidate is passed over, and the search goes on with the
next number. -/
def Search.run (s : Search) (counter : Nat) : Option Found :=
  if generated s.stem counter ∈ s.bound then do
    let found ← s |>.run (counter + 1)
    some ⟨found.name, found.next, generated s.stem counter :: found.passedOver⟩
  else some ⟨generated s.stem counter, counter + 1, []⟩
partial_fixpoint

theorem generatedBetween_self (stem : String) (k : Nat) : generatedBetween stem k k = [] := by
  simp [generatedBetween]

theorem generatedBetween_of_lt (stem : String) {j k : Nat} (h : j < k) :
    generatedBetween stem j k = generated stem j :: generatedBetween stem (j + 1) k := by
  obtain ⟨d, rfl⟩ : ∃ d, k = j + 1 + d := ⟨k - (j + 1), by omega⟩
  have hwhole : j + 1 + d - j = d + 1 := by omega
  have hrest : j + 1 + d - (j + 1) = d := by omega
  rw [generatedBetween, generatedBetween, hwhole, hrest, List.range_succ_eq_map, List.map_cons,
    List.map_map, Nat.add_zero]
  refine congrArg _ (List.map_congr_left fun i _ => ?_)
  rw [Function.comp_apply, Nat.succ_eq_add_one, Nat.add_right_comm, Nat.add_assoc]

/-- A search ends at a free candidate if all candidates before it are bound. -/
theorem Search.run_eq (s : Search) {start k : Nat} (hstart : start ≤ k)
    (hfree : generated s.stem k ∉ s.bound)
    (hbound : ∀ j, start ≤ j → j < k → generated s.stem j ∈ s.bound) :
    s.run start = some ⟨generated s.stem k, k + 1, generatedBetween s.stem start k⟩ := by
  -- by induction on the number of candidates before the free one
  obtain ⟨d, rfl⟩ := Nat.exists_eq_add_of_le hstart
  induction d generalizing start with
  | zero =>
      rw [Nat.add_zero] at hfree
      rw [Search.run, if_neg hfree, Nat.add_zero start, generatedBetween_self]
  | succ d ih =>
      have hlt : start < start + (d + 1) := by omega
      have hsum : start + 1 + d = start + (d + 1) := by omega
      have hnext := ih (Nat.le_add_right (start + 1) d) (by rwa [hsum])
        fun j hj hjk => hbound j (by omega) (by omega)
      rw [hsum] at hnext
      rw [Search.run, if_pos (hbound start (Nat.le_refl _) hlt), hnext,
        generatedBetween_of_lt s.stem hlt]
      rfl

/-! ## What is passed over

Candidates with different numbers are different names. So the ones that were passed over are as
many bound names, and there are no more of them than bound names. -/

theorem nodup_generatedBetween (stem : String) (first beyond : Nat) :
    (generatedBetween stem first beyond).Nodup := by
  have hinjective : Function.Injective fun i => generated stem (first + i) :=
    fun _ _ h => Nat.add_left_cancel (generated_injective stem h)
  exact List.nodup_range.map hinjective

/-- The candidates that are passed over are bound names, each of them another one. -/
theorem length_generatedBetween_le {bound : Finset String} {stem : String} {first beyond : Nat}
    (h : ∀ j, first ≤ j → j < beyond → generated stem j ∈ bound) :
    (generatedBetween stem first beyond).length ≤ bound.card := by
  rw [← List.toFinset_card_of_nodup (nodup_generatedBetween stem first beyond)]
  refine Finset.card_le_card fun name hname => ?_
  obtain ⟨i, hi, rfl⟩ := List.mem_map.mp (List.mem_toFinset.mp hname)
  rw [List.mem_range] at hi
  exact h (first + i) (Nat.le_add_right _ _) (by omega)

/-! ## Where the search ends

The bounded search of `NameTable.freeNumber` and the unbounded one end at the same number, so the
bound in the definition is no restriction. -/

/-- The free number is the least one from the start on whose generated name is not bound. -/
theorem isLeast_freeNumber (bound : List String) (stem : String) (start : Nat) :
    IsLeast {k | start ≤ k ∧ generated stem k ∉ bound} (freeNumber bound stem start) := by
  obtain ⟨hstart, hfree⟩ := freeNumber_spec bound stem start
  refine ⟨⟨hstart, hfree⟩, ?_⟩
  rintro j ⟨hj, hfree⟩
  by_contra hlt
  exact hfree (generated_mem_of_lt_freeNumber hj (Nat.lt_of_not_le hlt))

/-- Where some names are bound the search ends at the free number. -/
theorem Search.run_toFinset (bound : List String) (stem : String) (start : Nat) :
    Search.run ⟨bound.toFinset, stem⟩ start =
      some ⟨generated stem (freeNumber bound stem start), freeNumber bound stem start + 1,
        generatedBetween stem start (freeNumber bound stem start)⟩ := by
  obtain ⟨hstart, hfree⟩ := freeNumber_spec bound stem start
  exact Search.run_eq ⟨bound.toFinset, stem⟩ hstart (mt List.mem_toFinset.mp hfree)
    fun j hj hlt => List.mem_toFinset.mpr (generated_mem_of_lt_freeNumber hj hlt)

/-- **The search for a free name ends**, after at most one candidate more than there are bound
names, at the least number from the start on whose generated name is not bound. It goes on behind
that number the next time. An owner without a name gets what the search finds. -/
theorem freeNumber_search (bound : List String) (stem : String) (start : Nat) :
    IsLeast {k | start ≤ k ∧ generated stem k ∉ bound} (freeNumber bound stem start) ∧
      (∃ found, Search.run ⟨bound.toFinset, stem⟩ start = some found ∧
        found.name = generated stem (freeNumber bound stem start) ∧
        found.next = freeNumber bound stem start + 1 ∧
        found.tried ≤ bound.toFinset.card + 1) ∧
      ∀ {α : Type} [DecidableEq α] (t : NameTable α) (owner : α), t.nameOf? owner = none →
        ∃ found, Search.run ⟨t.names.toFinset, stem⟩ t.next = some found ∧
          t.name stem none owner =
            .ok ⟨found.name, ⟨t.entries ++ [(owner, found.name)], found.next⟩,
              found.passedOver⟩ := by
  refine ⟨isLeast_freeNumber bound stem start,
    ⟨_, Search.run_toFinset bound stem start, rfl, rfl, ?_⟩, ?_⟩
  · refine Nat.succ_le_succ (length_generatedBetween_le fun j hj hlt => ?_)
    exact List.mem_toFinset.mpr (generated_mem_of_lt_freeNumber hj hlt)
  · intro α _ t owner hnone
    refine ⟨_, Search.run_toFinset t.names stem t.next, ?_⟩
    rw [name, hnone]

/-- A table with a gap between the names of its nodes. -/
def gapped : NameTable Nat := ⟨[(0, "n1"), (1, "n2"), (2, "n4")], 1⟩

/-- In the table with a gap the next node is `n3`, after two candidates that are passed over. -/
theorem freeNumber_search_gapped :
    gapped.nameOf? 3 = none ∧
      ∃ found, Search.run ⟨gapped.names.toFinset, "n"⟩ 1 = some found ∧
        found.name = "n3" ∧ found.next = 4 ∧ found.tried ≤ 4 ∧
        gapped.name "n" none 3 =
          .ok ⟨found.name, ⟨gapped.entries ++ [(3, found.name)], found.next⟩,
            found.passedOver⟩ := by
  have hnone : gapped.nameOf? 3 = none := rfl
  obtain ⟨-, ⟨found, hrun, hname, hnext, htried⟩, howner⟩ :=
    freeNumber_search gapped.names "n" 1
  obtain ⟨given, hgiven, htable⟩ := howner gapped 3 hnone
  obtain rfl := Option.some.inj (hrun.symm.trans hgiven)
  exact ⟨hnone, found, hrun, hname, hnext, htried, htable⟩

end GraphQuery.NameTable
