import GraphQuery.Pattern.Entity

set_option autoImplicit false

/-! # Patterns

A pattern is a chain of nodes with a relationship between two of them, so it starts and ends with a
node by construction. `Pattern.ofElements` makes one from a list of nodes and relationships, or says
where the list stops being such a chain.
-/

namespace GraphQuery

/-- The direction in which a pattern passes a relationship. -/
inductive Direction where
  | left
  | right
  | both
deriving DecidableEq

def Direction.reversed : Direction → Direction
  | .left => .right
  | .right => .left
  | .both => .both

/-- A relationship of a pattern, and the node it leads to. -/
structure Segment where
  relationship : Relationship
  direction : Direction
  node : Node

instance : BEq Segment :=
  ⟨fun a b => a.relationship == b.relationship && a.direction == b.direction && a.node == b.node⟩

structure Pattern where
  start : Node
  segments : List Segment

instance : BEq Pattern := ⟨fun a b => a.start == b.start && a.segments == b.segments⟩

/-- A node or a relationship on the way through a pattern. -/
inductive Element where
  | node (n : Node)
  | relationship (r : Relationship) (direction : Direction)

namespace Pattern

/-! ## Chains

A pattern grows at its end. `Pattern.related` is the general step, and `outgoing`, `incoming` and
`undirected` are that step with one direction each. -/

def ofNode (n : Node) : Pattern := ⟨n, []⟩

/-- The pattern with one more segment. -/
def related (p : Pattern) (r : Relationship) (direction : Direction) (n : Node) : Pattern :=
  ⟨p.start, p.segments ++ [⟨r, direction, n⟩]⟩

def outgoing (p : Pattern) (r : Relationship) (n : Node) : Pattern := p.related r .right n

def incoming (p : Pattern) (r : Relationship) (n : Node) : Pattern := p.related r .left n

def undirected (p : Pattern) (r : Relationship) (n : Node) : Pattern := p.related r .both n

/-! ## From a list of elements

A list is read from left to right and the first place where it stops being a chain is reported:
two nodes or two relationships in a row, a relationship at the start, or one that leads nowhere. -/

/-- The segments for the elements after a node, the first of which has the given position. -/
def segmentsOf (position : Nat) : List Element → Except StructureError (List Segment)
  | [] => .ok []
  | .node _ :: _ => .error (.consecutiveNodes (position - 1) position)
  | [.relationship _ _] => .error (.endsWithRelationship position)
  | .relationship _ _ :: .relationship _ _ :: _ =>
      .error (.consecutiveRelationships position (position + 1))
  | .relationship r direction :: .node n :: rest =>
      (segmentsOf (position + 2) rest).map (⟨r, direction, n⟩ :: ·)

/-- The pattern that passes the elements in order. -/
def ofElements : List Element → Except StructureError Pattern
  | [] => .error .emptyPattern
  | .relationship _ _ :: _ => .error .startsWithRelationship
  | .node start :: rest => (segmentsOf 1 rest).map (⟨start, ·⟩)

/-! ## Reversal

Reversing exchanges the arrowheads of one relationship and leaves the nodes where they are, so a
pattern is still read in the same order. A connection without direction stays as it is. -/

/-- The segments with the direction of one of them reversed. -/
def reverseAt : Nat → List Segment → List Segment
  | _, [] => []
  | 0, s :: rest => ⟨s.relationship, s.direction.reversed, s.node⟩ :: rest
  | i + 1, s :: rest => s :: reverseAt i rest

/-- The pattern with the direction of one segment reversed. A pattern without that segment stays as
it is. -/
def reverseSegment (p : Pattern) (index : Nat) : Pattern := ⟨p.start, reverseAt index p.segments⟩

end Pattern

end GraphQuery
