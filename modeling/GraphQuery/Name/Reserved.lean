import GraphQuery.Name.Basic

set_option autoImplicit false

/-! # Reserved words

The words of the query language that cannot stand bare where a variable or a parameter is named.
They are reserved in every letter case.
-/

namespace GraphQuery.Name

/-- The reserved words in small letters: clauses and their modifiers, operators, literals, and
words kept for schema commands. -/
def reservedWords : List String :=
  [ "all", "asc", "ascending", "by", "call", "create", "delete", "desc", "descending", "detach",
    "exists", "limit", "mandatory", "match", "merge", "on", "optional", "order", "remove",
    "return", "scalar", "set", "skip", "union", "unwind", "where", "with", "yield",
    "and", "as", "case", "contains", "distinct", "else", "end", "ends", "in", "is", "not", "of",
    "or", "starts", "then", "when", "xor",
    "false", "null", "true",
    "add", "constraint", "do", "drop", "for", "require", "unique" ]

def isReserved (name : String) : Bool := reservedWords.contains (smallLetters name)

end GraphQuery.Name
