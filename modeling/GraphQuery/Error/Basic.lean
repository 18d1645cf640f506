import GraphQuery.Clause.Keyword
import GraphQuery.Error.Render
import GraphQuery.Error.Structure
import GraphQuery.Settings.Basic

set_option autoImplicit false

/-! # Faults

All that can go wrong on the way from parts to a query, under one type.

The faults of the constructs are told apart by when they can be found: a `StructureError` when an
expression or a pattern is made, a `ClauseError` when a clause is added, a `RenderError` only
when the statement is written.
-/

namespace GraphQuery

/-- A fault of any kind. -/
inductive QueryError where
  | invalidStructure (e : StructureError)
  | invalidClause (e : ClauseError)
  | failedBuild (e : RenderError)
  | invalidSettings (e : SettingsError)

/-- The wording of a fault, with what was being done in front of it. A fault of settings that is
told by its parts has none. -/
def QueryError.message? : QueryError → Option String
  | .invalidStructure e => some ("Invalid query structure: " ++ e.message)
  | .invalidClause e => some ("Invalid clause: " ++ e.message)
  | .failedBuild e => some ("Build failed: " ++ e.message)
  | .invalidSettings e => e.message?.map ("Invalid build configuration: " ++ ·)

end GraphQuery
