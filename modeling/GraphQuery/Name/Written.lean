import GraphQuery.Name.Reserved

set_option autoImplicit false

/-! # Written names

How a name stands in a query. A plain identifier is written bare; any other name is put between
backquotes, with each backquote inside it written twice. Where a variable or a parameter is named
a reserved word is put between backquotes too. Labels, relationship types and keys stand after
punctuation, so a reserved word may be bare there.

The characters between the backquotes are otherwise left alone: a control character or a line
break in a name is in the text as it is.
-/

namespace GraphQuery.Name

def backquote : Char := '\x60'

/-- A text with every backquote written twice. -/
def doubled : List Char → List Char
  | [] => []
  | c :: cs => if c = backquote then backquote :: backquote :: doubled cs else c :: doubled cs

def backquoted (cs : List Char) : List Char := backquote :: (cs ++ [backquote])

/-- The written form of a label, relationship type or key. -/
def written (name : String) : List Char :=
  if isPlain name then name.toList else backquoted (doubled name.toList)

/-- The written form of a variable or parameter name. A reserved word has no backquote in it, so
none has to be written twice. -/
def writtenBinding (name : String) : List Char :=
  if isReserved name then backquoted name.toList else written name

end GraphQuery.Name
