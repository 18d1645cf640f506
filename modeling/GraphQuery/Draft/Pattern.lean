import GraphQuery.Draft.Expr
import GraphQuery.Pattern.Basic

set_option autoImplicit false

/-! # Drafts of patterns

A node stands in round brackets, a relationship in square ones between the two parts of its arrow.
Both begin with their variable.

A direction decides both parts of the arrow: an arrowhead is on the side that it points to, and a
connection without direction has none. The segments of a pattern are written one after another,
each with the node that it leads to, so every node of a chain is written once.
-/

namespace GraphQuery

open Draft

def Draft.count (n : Nat) : Lexeme := .numeral (Number.naturalNumeral n)

/-- A range of hops: a star, and the bounds with two full stops between them. One number stands for
two equal bounds. -/
def Hops.lexemes (h : Hops) : List Lexeme :=
  match h.least?, h.most? with
  | none, none => [.mark "*"]
  | some least, some most =>
      if least = most then [.mark "*", count least]
      else [.mark "*", count least, .mark "..", count most]
  | none, some most => [.mark "*", .mark "..", count most]
  | some least, none => [.mark "*", count least, .mark ".."]

/-- A property list after a blank, or nothing if it is empty. -/
def Properties.draft (ps : Properties) : Draft :=
  if ps.isEmpty then [] else space :: braces (commas (Expr.draftEntries .propertyKey ps))

def Node.draft (n : Node) : Draft :=
  parens (.var n.toVar :: (n.labels.flatMap fun l => [mark ":", name .label l]) ++
    n.properties.draft)

/-- The draft of a relationship without its arrow. -/
def Relationship.draft (r : Relationship) : Draft :=
  brackets (.var r.toVar ::
    (match r.type? with
      | some type => [mark ":", name .relationshipType type]
      | none => []) ++
    (match r.hops? with
      | some hops => hops.lexemes.map .lexeme
      | none => []) ++
    r.properties.draft)

def Direction.before : Direction → Lexeme
  | .left => .mark "<-"
  | .right | .both => .mark "-"

def Direction.after : Direction → Lexeme
  | .right => .mark "->"
  | .left | .both => .mark "-"

def Segment.draft (s : Segment) : Draft :=
  .lexeme s.direction.before :: (s.relationship.draft ++
    .lexeme s.direction.after :: s.node.draft)

def Pattern.draft (p : Pattern) : Draft := p.start.draft ++ p.segments.flatMap Segment.draft

end GraphQuery
