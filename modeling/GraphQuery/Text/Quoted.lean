set_option autoImplicit false

/-! # Quoted strings

A string literal stands between single quotes. Inside it a backslash, a single quote and the
characters line feed, carriage return and tab are written as a backslash and a letter or mark; every
other character stands for itself.

A text in quotes is thus on one line as far as line feeds and carriage returns go; control
characters other than the three are not changed.
-/

namespace GraphQuery.Text

/-- The written form of one character of a string literal. -/
def escaped (c : Char) : List Char :=
  if c = '\\' then ['\\', '\\']
  else if c = '\'' then ['\\', '\'']
  else if c = '\n' then ['\\', 'n']
  else if c = '\r' then ['\\', 'r']
  else if c = '\t' then ['\\', 't']
  else [c]

def quoted (text : String) : List Char := '\'' :: (text.toList.flatMap escaped ++ ['\''])

end GraphQuery.Text
