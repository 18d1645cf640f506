import GraphQuery.Pattern.Basic

set_option autoImplicit false

/-! # Chains of elements

A list of elements passes through a pattern if nodes and relationships take turns in it, with a node
at both ends. `Pattern.ofElements` accepts these lists and no others, and what it accepts can be
read off the pattern again (`Pattern.ofElements_eq_ok_iff`). Of every other list it reports the
first element that is not in its place, or that the list stops behind a relationship (`ChainFault`).

Positions are those in the whole list. Going on from a position is therefore described together with
the elements before it, which are a chain themselves.
-/

namespace GraphQuery

/-! ## Chains

Taking turns with a node at both ends is a matter of positions: nodes stand at the even ones, and
the length is odd. -/

def Element.isNode : Element → Bool
  | .node _ => true
  | .relationship _ _ => false

/-- Nodes stand at even positions and relationships at odd ones. -/
def Element.Fits (x : Element) (i : Nat) : Prop := x.isNode = true ↔ i % 2 = 0

/-- Each element of a list is of the kind that its position asks for. -/
def Placed (xs : List Element) : Prop :=
  ∀ (i : Nat) (x : Element), xs[i]? = some x → x.Fits i

/-- A list in which nodes and relationships take turns, with a node at both ends. -/
structure Alternates (xs : List Element) : Prop where
  odd : xs.length % 2 = 1
  placed : Placed xs

theorem placed_nil : Placed [] := by
  intro i x hx
  simp at hx

theorem Placed.concat {xs : List Element} {x : Element} (h : Placed xs) (hx : x.Fits xs.length) :
    Placed (xs ++ [x]) := by
  intro i y hy
  by_cases hi : i < xs.length
  · rw [List.getElem?_append_left hi] at hy
    exact h i y hy
  · rw [List.getElem?_append_right (by omega)] at hy
    obtain ⟨hlt, rfl⟩ := List.getElem?_eq_some_iff.mp hy
    have hend : i = xs.length := by
      simp only [List.length_singleton] at hlt
      omega
    subst hend
    simpa using hx

namespace Alternates

variable {xs : List Element}

/-- A relationship may stand behind a chain. -/
theorem placed_concat (h : Alternates xs) (r : Relationship) (direction : Direction) :
    Placed (xs ++ [.relationship r direction]) :=
  h.placed.concat (by simp [Element.Fits, Element.isNode, h.odd])

/-- A relationship and a node go on with a chain. -/
theorem concat (h : Alternates xs) (r : Relationship) (direction : Direction) (n : Node) :
    Alternates (xs ++ [.relationship r direction, .node n]) := by
  have hodd := h.odd
  constructor
  · simp only [List.length_append, List.length_cons, List.length_nil]
    omega
  · have hnode : Element.Fits (.node n) (xs ++ [Element.relationship r direction]).length := by
      simp only [Element.Fits, Element.isNode, List.length_append, List.length_singleton, true_iff]
      omega
    have hwhole := (h.placed_concat r direction).concat hnode
    rwa [List.append_assoc] at hwhole

end Alternates

/-! ## The elements of a pattern

Reading the elements off a pattern is the inverse of making it. `Pattern.Built` is the same
relation said by calls: a pattern that is built by them has the elements that they were given. -/

def Segment.elements (s : Segment) : List Element :=
  [.relationship s.relationship s.direction, .node s.node]

namespace Pattern

/-- What a pattern passes, in order. -/
def elements (p : Pattern) : List Element := .node p.start :: p.segments.flatMap Segment.elements

/-- The pattern that is built by calls one after the other, and the elements that they are given. -/
inductive Built : List Element → Pattern → Prop
  | node (n : Node) : Built [.node n] (ofNode n)
  | related {xs : List Element} {p : Pattern} (h : Built xs p) (r : Relationship)
      (direction : Direction) (n : Node) :
      Built (xs ++ [.relationship r direction, .node n]) (p.related r direction n)
  | outgoing {xs : List Element} {p : Pattern} (h : Built xs p) (r : Relationship) (n : Node) :
      Built (xs ++ [.relationship r .right, .node n]) (p.outgoing r n)
  | incoming {xs : List Element} {p : Pattern} (h : Built xs p) (r : Relationship) (n : Node) :
      Built (xs ++ [.relationship r .left, .node n]) (p.incoming r n)
  | undirected {xs : List Element} {p : Pattern} (h : Built xs p) (r : Relationship) (n : Node) :
      Built (xs ++ [.relationship r .both, .node n]) (p.undirected r n)

@[simp] theorem elements_ofNode (n : Node) : (ofNode n).elements = [.node n] := rfl

@[simp] theorem elements_related (p : Pattern) (r : Relationship) (direction : Direction)
    (n : Node) :
    (p.related r direction n).elements = p.elements ++ [.relationship r direction, .node n] := by
  simp [elements, related, Segment.elements]

theorem Built.elements_eq {xs : List Element} {p : Pattern} (h : Built xs p) : p.elements = xs := by
  induction h with
  | node n => exact elements_ofNode n
  | related _ r direction n ih => rw [elements_related, ih]
  | outgoing _ r n ih | incoming _ r n ih | undirected _ r n ih =>
      exact (elements_related _ r _ n).trans (by rw [ih])

/-! ## Accepted lists

The recursion takes two elements at a time, so the induction follows the function and not the
list. -/

theorem segmentsOf_eq_ok_iff (position : Nat) (xs : List Element) (segments : List Segment) :
    segmentsOf position xs = .ok segments ↔ segments.flatMap Segment.elements = xs := by
  constructor
  · intro h
    fun_induction segmentsOf position xs generalizing segments with
    | case1 => rw [← Except.ok.inj h]; rfl
    | case2 | case3 | case4 => simp at h
    | case5 position r direction n rest ih =>
        cases hrest : segmentsOf (position + 2) rest with
        | error e => simp [hrest, Except.map] at h
        | ok tail =>
            rw [hrest] at h
            rw [← Except.ok.inj h, List.flatMap_cons, ih tail hrest]
            rfl
  · rintro rfl
    induction segments generalizing position with
    | nil => rfl
    | cons s segments ih =>
        show (segmentsOf (position + 2) (segments.flatMap Segment.elements)).map (s :: ·) = _
        rw [ih]
        rfl

theorem ofElements_eq_ok_iff (xs : List Element) (p : Pattern) :
    ofElements xs = .ok p ↔ p.elements = xs := by
  obtain ⟨start, segments⟩ := p
  cases xs with
  | nil => simp [ofElements, elements]
  | cons x xs =>
      cases x with
      | relationship r direction => simp [ofElements, elements]
      | node n =>
          -- the first element is the start, and the rest goes on from position one
          have hiff := segmentsOf_eq_ok_iff 1 xs
          rw [ofElements]
          cases hrest : segmentsOf 1 xs with
          | error e =>
              have hnone := hiff segments
              rw [hrest] at hnone
              simp only [reduceCtorEq, false_iff] at hnone
              simp [elements, Except.map, hnone]
          | ok tail =>
              have htail := (hiff tail).mp hrest
              have hsome := hiff segments
              rw [hrest, Except.ok.injEq] at hsome
              simp [elements, Except.map, ← hsome, eq_comm]

end Pattern

/-! ## What is wrong with other lists

A list that is no chain is empty, or has an element out of place, or ends too early. The three
exclude each other, and the first element out of place is determined, so there is one fault to a
list. -/

/-- An element that is the first of a list not to fit its position. -/
structure FirstMisplaced (xs : List Element) (k : Nat) (x : Element) : Prop where
  at_position : xs[k]? = some x
  misfit : ¬ x.Fits k
  before : ∀ (i : Nat) (y : Element), i < k → xs[i]? = some y → y.Fits i

/-- What an element out of place is reported as: it is of the kind of the element before it, unless
the list begins with it. -/
def Element.faultAt : Element → Nat → StructureError
  | .node _, k => .consecutiveNodes (k - 1) k
  | .relationship _ _, 0 => .startsWithRelationship
  | .relationship _ _, k + 1 => .consecutiveRelationships k (k + 1)

/-- What keeps a list from being a chain: it has no elements, one of them is out of place, or all
are in place and the last one is a relationship. -/
inductive ChainFault (xs : List Element) : StructureError → Prop
  | empty (h : xs = []) : ChainFault xs .emptyPattern
  | misplaced (k : Nat) (x : Element) (h : FirstMisplaced xs k x) : ChainFault xs (x.faultAt k)
  | unfinished (hne : xs ≠ []) (heven : xs.length % 2 = 0) (h : Placed xs) :
      ChainFault xs (.endsWithRelationship (xs.length - 1))

theorem FirstMisplaced.unique {xs : List Element} {k l : Nat} {x y : Element}
    (h : FirstMisplaced xs k x) (h' : FirstMisplaced xs l y) : k = l ∧ x = y := by
  have hkl : k = l := by
    rcases Nat.lt_trichotomy k l with hlt | heq | hlt
    · exact absurd (h'.before k x hlt h.at_position) h.misfit
    · exact heq
    · exact absurd (h.before l y hlt h'.at_position) h'.misfit
  subst hkl
  exact ⟨rfl, Option.some.inj (h.at_position.symm.trans h'.at_position)⟩

theorem FirstMisplaced.not_placed {xs : List Element} {k : Nat} {x : Element}
    (h : FirstMisplaced xs k x) : ¬ Placed xs :=
  fun hplaced => h.misfit (hplaced k x h.at_position)

theorem FirstMisplaced.ne_nil {xs : List Element} {k : Nat} {x : Element}
    (h : FirstMisplaced xs k x) : xs ≠ [] := by
  rintro rfl
  simpa using h.at_position

/-- An element behind elements that are in place. -/
theorem Placed.firstMisplaced {before : List Element} {x : Element} (h : Placed before)
    (after : List Element) (hx : ¬ x.Fits before.length) :
    FirstMisplaced (before ++ x :: after) before.length x := by
  refine ⟨by simp, hx, ?_⟩
  intro i y hi hy
  rw [List.getElem?_append_left hi] at hy
  exact h i y hy

namespace ChainFault

variable {xs : List Element} {e e' : StructureError}

/-- There is one fault to report. -/
theorem unique (h : ChainFault xs e) (h' : ChainFault xs e') : e = e' := by
  cases h with
  | empty hnil =>
      cases h' with
      | empty => rfl
      | misplaced k x hx => exact absurd hnil hx.ne_nil
      | unfinished hne => exact absurd hnil hne
  | misplaced k x hx =>
      cases h' with
      | empty hnil => exact absurd hnil hx.ne_nil
      | misplaced l y hy =>
          obtain ⟨rfl, rfl⟩ := hx.unique hy
          rfl
      | unfinished _ _ hplaced => exact absurd hplaced hx.not_placed
  | unfinished hne _ hplaced =>
      cases h' with
      | empty hnil => exact absurd hnil hne
      | misplaced l y hy => exact absurd hplaced hy.not_placed
      | unfinished => rfl

theorem not_alternates (h : ChainFault xs e) : ¬ Alternates xs := by
  intro halt
  have hodd := halt.odd
  cases h with
  | empty hnil =>
      subst hnil
      simp at hodd
  | misplaced k x hx => exact hx.not_placed halt.placed
  | unfinished _ heven => omega

end ChainFault

/-! ## The outcome

Acceptance and faults are settled in one induction. Its hypothesis is about the whole list: the
elements before the position are a chain, and the position is their number. -/

/-- What a list of elements comes to: something is made of a chain, and of another list its fault is
told. -/
def Settled {α : Type} (xs : List Element) : Except StructureError α → Prop
  | .ok _ => Alternates xs
  | .error e => ChainFault xs e

theorem Settled.map {α β : Type} {xs : List Element} {r : Except StructureError α}
    (h : Settled xs r) (f : α → β) : Settled xs (r.map f) := by
  cases r with
  | ok a => exact h
  | error e => exact h

namespace Pattern

/-- Going on behind a chain settles the whole list. -/
theorem settled_segmentsOf {before : List Element} (hbefore : Alternates before)
    (xs : List Element) : Settled (before ++ xs) (segmentsOf before.length xs) := by
  generalize hposition : before.length = position
  have hodd := hbefore.odd
  fun_induction segmentsOf position xs generalizing before with
  | case1 position =>
      show Alternates (before ++ [])
      rw [List.append_nil]
      exact hbefore
  | case2 position n rest =>
      show ChainFault (before ++ .node n :: rest) (Element.faultAt (.node n) position)
      rw [← hposition]
      have hmisfit : ¬ Element.Fits (.node n) before.length := by
        simp [Element.Fits, Element.isNode, hodd]
      exact .misplaced _ _ (hbefore.placed.firstMisplaced rest hmisfit)
  | case3 position r direction =>
      show ChainFault (before ++ [.relationship r direction]) (.endsWithRelationship position)
      have hlength : (before ++ [Element.relationship r direction]).length = position + 1 := by
        simp [hposition]
      have hfault := ChainFault.unfinished (by simp) (by omega) (hbefore.placed_concat r direction)
      rwa [hlength, Nat.add_sub_cancel] at hfault
  | case4 position r direction r' direction' rest =>
      show ChainFault (before ++ .relationship r direction :: .relationship r' direction' :: rest)
        (Element.faultAt (.relationship r' direction') (position + 1))
      have hlength : (before ++ [Element.relationship r direction]).length = position + 1 := by
        simp [hposition]
      -- a relationship out of place is one behind a relationship in its place
      have hmisfit : ¬ Element.Fits (.relationship r' direction')
          (before ++ [Element.relationship r direction]).length := by
        rw [hlength]
        simp only [Element.Fits, Element.isNode, Bool.false_eq_true, false_iff,
          Decidable.not_not]
        omega
      have hfirst := (hbefore.placed_concat r direction).firstMisplaced rest hmisfit
      rw [List.append_assoc, hlength] at hfirst
      exact .misplaced _ _ hfirst
  | case5 position r direction n rest ih =>
      have hnext := hbefore.concat r direction n
      have hlength :
          (before ++ [Element.relationship r direction, .node n]).length = position + 2 := by
        simp [hposition]
      have hrest := ih hnext hlength hnext.odd
      rw [List.append_assoc] at hrest
      exact hrest.map _

theorem settled_ofElements (xs : List Element) : Settled xs (ofElements xs) := by
  cases xs with
  | nil => exact ChainFault.empty rfl
  | cons x xs =>
      cases x with
      | relationship r direction =>
          have hmisfit : ¬ Element.Fits (.relationship r direction) 0 := by
            simp [Element.Fits, Element.isNode]
          exact ChainFault.misplaced 0 _ (placed_nil.firstMisplaced xs hmisfit)
      | node n =>
          have hfirst : Alternates [.node n] :=
            ⟨rfl, placed_nil.concat (by simp [Element.Fits, Element.isNode])⟩
          have hrest := settled_segmentsOf hfirst xs
          exact hrest.map _

/-- **The chains are accepted, and everything else is reported at its first fault.** What is
accepted can be read off the pattern, and the elements given to the calls that build a pattern are
accepted as that pattern. -/
theorem ofElements_chains (xs : List Element) :
    ((∃ p, ofElements xs = .ok p) ↔ Alternates xs) ∧
      (∀ p, ofElements xs = .ok p ↔ p.elements = xs) ∧
      (∀ p, Built xs p → ofElements xs = .ok p) ∧
      ∀ e, ofElements xs = .error e ↔ ChainFault xs e := by
  have hsettled := settled_ofElements xs
  refine ⟨?_, ofElements_eq_ok_iff xs, ?_, ?_⟩
  · constructor
    · rintro ⟨p, hp⟩
      rw [hp] at hsettled
      exact hsettled
    · intro halt
      cases h : ofElements xs with
      | ok p => exact ⟨p, rfl⟩
      | error e =>
          rw [h] at hsettled
          exact absurd halt hsettled.not_alternates
  · intro p hp
    exact (ofElements_eq_ok_iff xs p).mpr hp.elements_eq
  · intro e
    constructor
    · intro he
      rw [he] at hsettled
      exact hsettled
    · intro hfault
      cases h : ofElements xs with
      | ok p =>
          rw [h] at hsettled
          exact absurd hsettled hfault.not_alternates
      | error e' =>
          rw [h] at hsettled
          rw [hfault.unique hsettled]

end Pattern

end GraphQuery
