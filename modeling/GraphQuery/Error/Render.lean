import GraphQuery.Json.Basic

set_option autoImplicit false

/-! # Faults of rendering

What can keep a well-formed statement from being written: a value of a kind that has no written
form, one name for two variables or two parameters, and a name without characters.

A conflict tells the name and its name space, an empty name tells what it was to be the name of,
and a value without a written form tells its kind and where it stands. None of them tells the
place in the text, for there is no text where a build fails.
-/

namespace GraphQuery

/-- Variables and parameters have names of their own. -/
inductive NameSpace where
  | vars
  | params
deriving DecidableEq

def NameSpace.member : NameSpace → String
  | .vars => "variable"
  | .params => "parameter"

/-- What a name is the name of. -/
inductive NameRole where
  | variableName
  | paramName
  | label
  | relationshipType
  | propertyKey
  | mapKey
deriving DecidableEq

/-- A role in words. -/
def NameRole.text : NameRole → String
  | .variableName => "variable name"
  | .paramName => "parameter name"
  | .label => "label"
  | .relationshipType => "relationship type"
  | .propertyKey => "property key"
  | .mapKey => "map key"

/-- A fault of rendering. -/
inductive RenderError where
  | unsupported (value : Unsupported)
  | namingConflict (space : NameSpace) (name : String)
  | emptyName (role : NameRole)
deriving DecidableEq

def Unsupported.message (u : Unsupported) : String :=
  "Unsupported " ++ u.kind.text ++ " value in " ++ u.context

/-- The wording of a fault. -/
def RenderError.message : RenderError → String
  | .unsupported value => value.message
  | .namingConflict space name =>
      "Name '" ++ name ++ "' is bound to two different " ++ space.member ++
        "s in one statement (use distinct names or share one instance)"
  | .emptyName role =>
      "Empty " ++ role.text ++
        " cannot be written into a query (names need at least one character)"

end GraphQuery
