import GraphQuery.Proofs.Value.Entries
import GraphQuery.Proofs.Value.Support

set_option autoImplicit false

/-! # Places in a value

A part of a value is reached in steps, each to an item of a list or to the value of a key. The
places are ordered as the parts are written: the items of a list by their index, the values of a map
by their keys. `Value.faults` goes through the parts that cannot be written with the place of each
of them, and they come in this order (`Value.pairwise_faults`), so the first fault that is reported
is the first one there is (`Value.firstFaultAt_of_unwritable`).
-/

namespace GraphQuery.Value

/-- A kind of value that cannot be written. -/
def Kind.Unwritable (k : Kind) : Prop := k = .byteArray ∨ k = .nonFiniteFloat

instance (k : Kind) : Decidable k.Unwritable :=
  inferInstanceAs (Decidable (k = .byteArray ∨ k = .nonFiniteFloat))

/-! ## Steps

A part is smaller than what it is a part of, which gives an induction over parts for lists and
maps alike. With keys in order a step leads to one part at most. -/

/-- A step from a value to a part of it. -/
inductive Step where
  | item (i : Nat)
  | entry (key : String)
deriving DecidableEq

/-- Whether one part of a value is written before another. -/
def Step.Before : Step → Step → Prop
  | .item i, .item j => i < j
  | .entry k, .entry l => k < l
  | .item _, .entry _ | .entry _, .item _ => False

theorem Step.Before.ne {s t : Step} (h : s.Before t) : s ≠ t := by
  rintro rfl
  cases s with
  | item i => exact Nat.lt_irrefl i h
  | entry k => exact lt_irrefl k h

/-- The parts that a value is made of, in the order in which they are written. -/
def children : Value → List (Step × Value)
  | .list items => items.zipIdx.map fun e => (.item e.2, e.1)
  | .map entries => entries.map fun e => (.entry e.1, e.2)
  | .null | .boolean _ | .integer _ | .float _ | .string _ | .bytes _ => []

theorem exists_of_mem_children {v : Value} {c : Step × Value} (h : c ∈ v.children) :
    (∃ items, v = .list items ∧ c.2 ∈ items) ∨ ∃ entries, v = .map entries ∧
      ∃ e ∈ entries, c.2 = e.2 := by
  cases v with
  | list items =>
      obtain ⟨⟨w, i⟩, hmem, rfl⟩ := List.mem_map.mp h
      exact Or.inl ⟨items, rfl, (List.mem_zipIdx' hmem).2 ▸ List.getElem_mem _⟩
  | map entries =>
      obtain ⟨e, hmem, rfl⟩ := List.mem_map.mp h
      exact Or.inr ⟨entries, rfl, e, hmem, rfl⟩
  | null | boolean b | integer n | float x | string s | bytes data => simp [children] at h

theorem sizeOf_lt_of_mem_children {v : Value} {c : Step × Value} (h : c ∈ v.children) :
    sizeOf c.2 < sizeOf v := by
  rcases exists_of_mem_children h with ⟨items, rfl, hmem⟩ | ⟨entries, rfl, e, hmem, he⟩
  · have := List.sizeOf_lt_of_mem hmem
    simp only [list.sizeOf_spec]
    omega
  · have := sizeOf_value_lt_of_mem hmem
    rw [he]
    simp only [map.sizeOf_spec]
    omega

/-- What holds of a value if it holds of all its parts holds of every value. -/
theorem induct_children {motive : Value → Prop}
    (part : ∀ v, (∀ c ∈ v.children, motive c.2) → motive v) (v : Value) : motive v := by
  refine part v fun c hc => ?_
  have := sizeOf_lt_of_mem_children hc
  exact induct_children part c.2
termination_by v

theorem Ordered.child {v : Value} (hv : v.Ordered) {c : Step × Value} (h : c ∈ v.children) :
    c.2.Ordered := by
  rcases exists_of_mem_children h with ⟨items, rfl, hmem⟩ | ⟨entries, rfl, e, hmem, he⟩
  · rw [Ordered] at hv
    exact hv _ hmem
  · rw [Ordered] at hv
    rw [he]
    exact hv.2 e hmem

theorem Ordered.pairwise_children {v : Value} (hv : v.Ordered) :
    v.children.Pairwise fun c d => c.1.Before d.1 := by
  cases v with
  | list items =>
      have hindices : (items.zipIdx.map Prod.snd).Pairwise (· < ·) := by
        rw [List.zipIdx_map_snd]
        exact List.pairwise_lt_range'
      rw [List.pairwise_map] at hindices
      exact List.pairwise_map.mpr hindices
  | map entries =>
      rw [Ordered] at hv
      exact List.pairwise_map.mpr hv.1
  | null | boolean b | integer n | float x | string s | bytes data => exact List.Pairwise.nil

/-- The part that a step leads to. -/
theorem Ordered.lookup_children {v : Value} (hv : v.Ordered) {s : Step} {w : Value} :
    v.children.lookup s = some w ↔ (s, w) ∈ v.children := by
  rw [List.lookup_eq_some_iff]
  constructor
  · rintro ⟨before, after, heq, -⟩
    rw [heq]
    exact List.mem_append_right _ List.mem_cons_self
  · intro h
    obtain ⟨before, after, heq⟩ := List.append_of_mem h
    refine ⟨before, after, heq, fun c hc => ?_⟩
    have hpairwise := hv.pairwise_children
    rw [heq, List.pairwise_append] at hpairwise
    simpa using (hpairwise.2.2 c hc (s, w) List.mem_cons_self).ne.symm

/-! ## Places

A place is a list of steps, and places are compared step by step as words are. A part comes
before the parts in it. -/

/-- The steps that lead from a value to a part at any depth. -/
abbrev Place := List Step

/-- The part of a value at a place. -/
def part? (v : Value) : Place → Option Value
  | [] => some v
  | s :: p => (v.children.lookup s).bind fun w => w.part? p

/-- At a place in a value stands a part of a kind that cannot be written. -/
def FaultAt (v : Value) (p : Place) (k : Kind) : Prop :=
  ∃ w, v.part? p = some w ∧ w.kind = k ∧ k.Unwritable

/-- The first part of a value that cannot be written. -/
def FirstFaultAt (v : Value) (p : Place) (k : Kind) : Prop :=
  v.FaultAt p k ∧ ∀ q l, v.FaultAt q l → q = p ∨ List.Lex Step.Before p q

theorem faultAt_nil {v : Value} {k : Kind} : v.FaultAt [] k ↔ v.kind = k ∧ k.Unwritable := by
  simp [FaultAt, part?]

theorem Ordered.faultAt_cons {v : Value} (hv : v.Ordered) {s : Step} {p : Place} {k : Kind} :
    v.FaultAt (s :: p) k ↔ ∃ w, (s, w) ∈ v.children ∧ w.FaultAt p k := by
  constructor
  · rintro ⟨x, hx, hkind⟩
    obtain ⟨w, hw, hx⟩ := Option.bind_eq_some_iff.mp hx
    exact ⟨w, hv.lookup_children.mp hw, x, hx, hkind⟩
  · rintro ⟨w, hw, x, hx, hkind⟩
    refine ⟨x, ?_, hkind⟩
    rw [part?, hv.lookup_children.mpr hw]
    exact hx

/-! ## The parts that cannot be written

Byte arrays and floating-point numbers that are not finite have no parts. So no fault lies inside
another one, and the order of places is the order in which faults are met. -/

/-- The fault of a value itself. -/
def ownFault (v : Value) : List Kind := if v.kind.Unwritable then [v.kind] else []

/-- The places of the parts of a value that cannot be written, each with the kind of the part. -/
def faults (v : Value) : List (Place × Kind) :=
  v.ownFault.map (([], ·)) ++
    v.children.attach.flatMap fun c => c.1.2.faults.map fun f => (c.1.1 :: f.1, f.2)
termination_by v
decreasing_by exact sizeOf_lt_of_mem_children c.2

theorem faults_eq (v : Value) :
    v.faults = v.ownFault.map (([], ·)) ++
      v.children.flatMap fun c => c.2.faults.map fun f => (c.1 :: f.1, f.2) := by
  rw [faults]
  congr 1
  rw [List.flatMap_subtype
    (g := fun c : Step × Value => c.2.faults.map fun f => (c.1 :: f.1, f.2)) fun _ _ => rfl,
    List.unattach_attach]

theorem unwritable_eq (v : Value) :
    v.unwritable = v.ownFault ++ v.children.flatMap fun c => c.2.unwritable := by
  cases v with
  | null | boolean b | integer n | string s | bytes data =>
      simp [unwritable, ownFault, kind, Kind.Unwritable, children]
  | float x =>
      rw [unwritable, ownFault, kind]
      by_cases hx : x.isFinite = true <;> simp [hx, Kind.Unwritable, children]
  | list items =>
      have hitems : items.flatMap unwritable = items.zipIdx.flatMap fun e => e.1.unwritable := by
        rw [← List.flatMap_map Prod.fst unwritable, List.zipIdx_map_fst]
      rw [unwritable, children, List.flatMap_map, hitems]
      rfl
  | map entries =>
      rw [unwritable, children, List.flatMap_map]
      rfl

/-- The kinds of the parts are those that the value is said to hold. -/
theorem map_snd_faults (v : Value) : v.faults.map Prod.snd = v.unwritable := by
  induction v using induct_children with
  | part v ih =>
      rw [faults_eq, unwritable_eq, List.map_append, List.map_map, List.map_flatMap]
      congr 1
      · exact List.map_id _
      · refine List.flatMap_congr fun c hc => ?_
        rw [List.map_map, ← ih c hc]
        rfl

theorem mem_ownFault {v : Value} {k : Kind} : k ∈ v.ownFault ↔ v.kind = k ∧ k.Unwritable := by
  rw [ownFault]
  split
  next h =>
      rw [List.mem_singleton]
      constructor
      · rintro rfl
        exact ⟨rfl, h⟩
      · exact fun hk => hk.1.symm
  next h =>
      constructor
      · simp
      · rintro ⟨rfl, hk⟩
        exact absurd hk h

/-- **The faults are what stands at the places.** -/
theorem mem_faults {v : Value} (hv : v.Ordered) {p : Place} {k : Kind} :
    (p, k) ∈ v.faults ↔ v.FaultAt p k := by
  induction v using induct_children generalizing p with
  | part v ih =>
      rw [faults_eq, List.mem_append]
      cases p with
      | nil =>
          rw [faultAt_nil, ← mem_ownFault]
          simp
      | cons s p =>
          rw [hv.faultAt_cons]
          constructor
          · rintro (h | h)
            · simp at h
            · obtain ⟨⟨s', w⟩, hw, h⟩ := List.mem_flatMap.mp h
              obtain ⟨⟨p', k'⟩, hf, heq⟩ := List.mem_map.mp h
              obtain ⟨⟨rfl, rfl⟩, rfl⟩ : (s' = s ∧ p' = p) ∧ k' = k := by simpa using heq
              exact ⟨w, hw, (ih _ hw (hv.child hw)).mp hf⟩
          · rintro ⟨w, hw, hf⟩
            refine Or.inr (List.mem_flatMap.mpr ⟨(s, w), hw, ?_⟩)
            exact List.mem_map.mpr ⟨(p, k), (ih _ hw (hv.child hw)).mpr hf, rfl⟩

/-- **The faults come in the order of their places.** -/
theorem pairwise_faults {v : Value} (hv : v.Ordered) :
    v.faults.Pairwise fun f g => List.Lex Step.Before f.1 g.1 := by
  induction v using induct_children with
  | part v ih =>
      rw [faults_eq, List.pairwise_append, List.pairwise_flatMap]
      refine ⟨?_, ⟨fun c hc => ?_, hv.pairwise_children.imp fun hbefore => ?_⟩, ?_⟩
      · rw [ownFault]
        split
        · exact List.pairwise_singleton _ _
        · exact List.Pairwise.nil
      · exact List.pairwise_map.mpr ((ih c hc (hv.child hc)).imp List.Lex.cons)
      · intro f hf g hg
        obtain ⟨f', -, rfl⟩ := List.mem_map.mp hf
        obtain ⟨g', -, rfl⟩ := List.mem_map.mp hg
        exact List.Lex.rel hbefore
      · intro f hf g hg
        -- the value itself stands before its parts
        obtain ⟨k, -, rfl⟩ := List.mem_map.mp hf
        obtain ⟨c, -, hg⟩ := List.mem_flatMap.mp hg
        obtain ⟨g', -, rfl⟩ := List.mem_map.mp hg
        exact List.Lex.nil

theorem unwritable_ne_nil_iff {v : Value} (hv : v.Ordered) :
    v.unwritable ≠ [] ↔ ∃ p k, v.FaultAt p k := by
  rw [← map_snd_faults, ne_eq, List.map_eq_nil_iff, List.eq_nil_iff_forall_not_mem,
    not_forall_not, Prod.exists]
  exact exists₂_congr fun p k => mem_faults hv

theorem firstFaultAt_of_unwritable {v : Value} (hv : v.Ordered) {k : Kind} {ks : List Kind}
    (h : v.unwritable = k :: ks) : ∃ p, v.FirstFaultAt p k := by
  rw [← map_snd_faults] at h
  obtain ⟨⟨p, k'⟩, fs, hfaults, hk, -⟩ := List.map_eq_cons_iff.mp h
  obtain rfl : k' = k := hk
  have hpairwise := pairwise_faults hv
  rw [hfaults, List.pairwise_cons] at hpairwise
  refine ⟨p, (mem_faults hv).mp (hfaults ▸ List.mem_cons_self), fun q l hf => ?_⟩
  have hmem := (mem_faults hv).mpr hf
  rw [hfaults] at hmem
  rcases List.mem_cons.mp hmem with heq | hmem
  · exact Or.inl (congrArg Prod.fst heq)
  · exact Or.inr (hpairwise.1 (q, l) hmem)

end GraphQuery.Value
