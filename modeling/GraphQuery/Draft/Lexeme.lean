import GraphQuery.Name.Written
import GraphQuery.Number.Numeral
import GraphQuery.Text.Quoted

set_option autoImplicit false

/-! # Lexemes

The smallest parts of a query text. A lexeme holds the name or string as the caller gave it, and
`Lexeme.written` is the one place where it is escaped.

The kinds of lexemes are the kinds of escaping. A `name` and a `binding` differ in whether a
reserved word has to be put between backquotes; words, marks, numerals and gaps are written as
they are.
-/

namespace GraphQuery

/-- A part of a query text. -/
inductive Lexeme where
  /-- A keyword, a word operator or the name of a function. -/
  | word (text : String)
  /-- Punctuation or an operator made of marks. -/
  | mark (text : String)
  /-- A number literal. -/
  | numeral (digits : List Char)
  /-- A label, a relationship type or a key. -/
  | name (raw : String)
  /-- The name of a variable or a parameter. -/
  | binding (raw : String)
  /-- A string literal. -/
  | quoted (raw : String)
  /-- A blank between two lexemes. -/
  | gap (blank : Char)
deriving DecidableEq

namespace Lexeme

/-- The characters of a lexeme. -/
def written : Lexeme → List Char
  | .word text => text.toList
  | .mark text => text.toList
  | .numeral digits => digits
  | .name raw => Name.written raw
  | .binding raw => Name.writtenBinding raw
  | .quoted raw => Text.quoted raw
  | .gap blank => [blank]

def textOf (ls : List Lexeme) : String := String.ofList (ls.flatMap written)

end Lexeme

end GraphQuery
