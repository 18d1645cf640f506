import GraphQuery.Error.Render
import GraphQuery.Scope.Table
import GraphQuery.Settings.Basic

set_option autoImplicit false

/-! # Naming scopes

A scope holds the names of the variables and parameters that a text has mentioned so far. Variables
of all kinds are numbered together from one; parameters are numbered from zero on their own. A
scope belongs to one build, so names never travel from one build to the next.

The table of the variables and the table of the parameters are looked after by the same function,
`NameTable.name`, and know nothing of each other: a parameter and a variable may have one name,
since a parameter is written with a dollar sign before it.
-/

namespace GraphQuery

/-- The names in force at a place in a text. -/
structure Scope where
  settings : Settings
  vars : NameTable Variable
  params : NameTable Param
  /-- Generated names that were bound already, in the order in which they were met. -/
  passedOver : List String

namespace Scope

def new (settings : Settings) : Scope := ⟨settings, .empty 1, .empty 0, []⟩

/-- The name of a variable, given on its first mention. -/
def nameVar (s : Scope) (v : Variable) : Except RenderError String × Scope :=
  match s.vars.name (s.settings.prefixFor v.kind) v.name? v with
  | .ok n => (.ok n.name, ⟨s.settings, n.table, s.params, s.passedOver ++ n.passedOver⟩)
  | .error name => (.error (.namingConflict .vars name), s)

/-- The name of a parameter, given on its first mention. -/
def nameParam (s : Scope) (p : Param) : Except RenderError String × Scope :=
  match s.params.name s.settings.paramPrefix p.name? p with
  | .ok n => (.ok n.name, ⟨s.settings, s.vars, n.table, s.passedOver ++ n.passedOver⟩)
  | .error name => (.error (.namingConflict .params name), s)

/-- The JSON forms of the values of some named parameters, in order. -/
def paramValues : List (Param × String) → Except Unsupported (List (String × Json))
  | [] => .ok []
  | (p, name) :: rest =>
      match p.value.toJson ("parameter $" ++ name) with
      | .error e => .error e
      | .ok j => (paramValues rest).map ((name, j) :: ·)

/-- The parameters of the scope with the JSON forms of their values, in the order of first
mention. -/
def values (s : Scope) : Except Unsupported (List (String × Json)) := paramValues s.params.entries

end Scope

end GraphQuery
