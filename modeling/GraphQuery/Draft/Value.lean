import GraphQuery.Draft.Basic

set_option autoImplicit false

/-! # Drafts of literals

A value as an inline literal. Byte arrays and floating-point numbers that are not finite have no
literal, and a map with an empty key has none either; the draft has the fault in its place.

The keys of a map literal are names, written bare when they are plain identifiers; its entries
have the order of the map, which is the order of their keys.
-/

namespace GraphQuery.Value

open Draft

/-- The fault of a value without a literal. -/
def noLiteral (kind : Kind) : Piece := .fault (.unsupported ⟨kind, "inline literal"⟩)

mutual

/-- The draft of a value as an inline literal. -/
def draft : Value → Draft
  | .null => [word "NULL"]
  | .boolean b => [word (if b then "true" else "false")]
  | .integer n => [.lexeme (.numeral (Number.integerNumeral n.toInt))]
  | .float x =>
      if x.isFinite then [.lexeme (.numeral (Number.floatNumeral x))]
      else [noLiteral .nonFiniteFloat]
  | .string s => [.lexeme (.quoted s)]
  | .list items => brackets (commas (draftItems items))
  | .map entries => braces (commas (draftEntries entries))
  | .bytes _ => [noLiteral .byteArray]

def draftItems : List Value → List Draft
  | [] => []
  | v :: vs => v.draft :: draftItems vs

def draftEntries : List (String × Value) → List Draft
  | [] => []
  | (k, v) :: es => entry .mapKey k v.draft :: draftEntries es

end

end GraphQuery.Value
