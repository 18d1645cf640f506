import GraphQuery.Json.Basic
import GraphQuery.Proofs.Expr.Induction

set_option autoImplicit false

/-! # Values that can be written

Byte arrays and floating-point numbers that are not finite can be held but not written.
`Value.unwritable` collects their kinds from everywhere in a value; the first of them is the fault
that turning the value into JSON reports, and without any the value has a JSON form.
-/

namespace GraphQuery.Value

/-- The kinds of the parts of a value that cannot be written, from left to right. -/
def unwritable : Value → List Kind
  | .null | .boolean _ | .integer _ | .string _ => []
  | .float x => if x.isFinite then [] else [.nonFiniteFloat]
  | .list items => items.flatMap unwritable
  | .map entries => entries.flatMap fun e => e.2.unwritable
  | .bytes _ => [.byteArray]
decreasing_by
  · have := List.sizeOf_lt_of_mem ‹_›
    simp_wf
    omega
  · have := sizeOf_value_lt_of_mem ‹_›
    simp_wf
    omega

/-- How a conversion ends that can fail at parts of some kinds: at the first of them, or nowhere if
there are none. The context is told by a fault and has no other effect. -/
inductive Converts {α : Type} (convert : String → Except Unsupported α) : List Kind → Prop
  | ok (j : α) (h : ∀ context, convert context = .ok j) : Converts convert []
  | error (kind : Kind) (kinds : List Kind)
      (h : ∀ context, convert context = .error ⟨kind, context⟩) :
      Converts convert (kind :: kinds)

namespace Converts

variable {α β : Type} {convert : String → Except Unsupported α} {kinds : List Kind}

theorem map (h : Converts convert kinds) (f : α → β) :
    Converts (fun context => (convert context).map f) kinds := by
  cases h with
  | ok j h => exact .ok (f j) fun context => by rw [h]; rfl
  | error kind kinds h => exact .error kind kinds fun context => by rw [h]; rfl

/-- A result does not depend on the context. -/
theorem ok_of_ok (h : Converts convert kinds) {context : String} {j : α}
    (hj : convert context = .ok j) (context' : String) : convert context' = .ok j := by
  cases h with
  | ok j' h => rw [h, ← h context, hj]
  | error kind kinds h => simp [h] at hj

end Converts

theorem toJsonItems_converts {items : List Value}
    (ih : ∀ v ∈ items, Converts (toJson · v) v.unwritable) :
    Converts (toJsonItems · items) (items.flatMap unwritable) := by
  induction items with
  | nil => exact .ok [] fun _ => rfl
  | cons v vs ihs =>
      obtain ⟨hv, hvs⟩ := List.forall_mem_cons.mp ih
      rw [List.flatMap_cons]
      generalize v.unwritable = kinds at hv
      cases hv with
      | ok j h =>
          -- what is wrong with the rest is wrong with the whole list
          have hrest := (ihs hvs).map (j :: ·)
          have hwhole : (toJsonItems · (v :: vs)) =
              fun context => (toJsonItems context vs).map (j :: ·) := by
            funext context
            rw [toJsonItems, h]
          rw [hwhole]
          exact hrest
      | error kind kinds h =>
          exact .error kind _ fun context => by rw [toJsonItems, h]

/-- The entries of a map are converted as a list of its values. -/
theorem toJsonEntries_eq (context : String) (entries : List (String × Value)) :
    toJsonEntries context entries =
      (toJsonItems context (entries.map Prod.snd)).map ((entries.map Prod.fst).zip ·) := by
  induction entries with
  | nil => rfl
  | cons e es ih =>
      obtain ⟨k, v⟩ := e
      rw [List.map_cons, List.map_cons, toJsonEntries, toJsonItems]
      cases toJson context v with
      | error e => rfl
      | ok j =>
          simp only [ih]
          cases toJsonItems context (es.map Prod.snd) <;> rfl

/-- **A value has a JSON form if nothing in it is unwritable**, and otherwise the first part that is
unwritable is the fault. -/
theorem toJson_converts (v : Value) : Converts (toJson · v) v.unwritable := by
  induction v with
  | null | boolean b | integer n | string s =>
      rw [unwritable]
      exact .ok _ fun _ => rfl
  | float x =>
      rw [unwritable]
      by_cases hx : x.isFinite = true
      · rw [if_pos hx]
        exact .ok (.float x hx) fun _ => by rw [toJson, dif_pos hx]
      · rw [if_neg hx]
        exact .error _ _ fun _ => by rw [toJson, dif_neg hx]
  | list items ih =>
      rw [unwritable]
      exact (toJsonItems_converts ih).map Json.array
  | map entries ih =>
      rw [unwritable]
      have hvalues : ∀ v ∈ entries.map Prod.snd, Converts (toJson · v) v.unwritable := by
        intro v hv
        obtain ⟨e, he, rfl⟩ := List.mem_map.mp hv
        exact ih e he
      have hentries := (toJsonItems_converts hvalues).map fun js =>
        Json.object ((entries.map Prod.fst).zip js)
      rw [List.flatMap_map] at hentries
      -- a map is converted as the list of its values, and the keys are put back
      have hwhole : (toJson · (.map entries)) = fun context =>
          (toJsonItems context (entries.map Prod.snd)).map fun js =>
            Json.object ((entries.map Prod.fst).zip js) := by
        funext context
        rw [toJson, toJsonEntries_eq]
        cases toJsonItems context (entries.map Prod.snd) <;> rfl
      rw [hwhole]
      exact hentries
  | bytes data =>
      rw [unwritable]
      exact .error _ _ fun _ => rfl

end GraphQuery.Value
