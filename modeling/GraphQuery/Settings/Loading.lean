import GraphQuery.Settings.Basic

set_option autoImplicit false

/-! # Loading settings

Settings are loaded from the environment or from a document, and checked before anybody sees them.

Every setting has a variable in the environment. A variable that gives no text leaves the standard
setting, be it that the variable is not set or that its value is not Unicode: nothing is reported in
either case. A layout that is neither `true` nor `false` is reported before any prefix is looked at.

How a document is decoded is left to a decoder, which is a parameter here: it gives the settings of
a document, or none if the document cannot be decoded.
-/

namespace GraphQuery

/-- What looking up a variable of the environment gives. -/
inductive EnvironmentValue where
  | text (value : String)
  | unset
  | notUnicode
deriving DecidableEq

/-- The text of a variable, and a standard text for a variable that gives none. -/
def EnvironmentValue.getD : EnvironmentValue → String → String
  | .text value, _ => value
  | .unset, standard => standard
  | .notUnicode, standard => standard

/-- The variables of an environment, by their names. -/
abbrev Environment := String → EnvironmentValue

namespace Settings

/-- The variable of the environment for a prefix. -/
def environmentName : PrefixField → String
  | .node => "CYPHER_BUILDER_NODE_PREFIX"
  | .param => "CYPHER_BUILDER_PARAM_PREFIX"
  | .relationship => "CYPHER_BUILDER_RELATIONSHIP_PREFIX"
  | .plain => "CYPHER_BUILDER_VARIABLE_PREFIX"

/-- The variable of the environment for the layout. -/
def layoutName : String := "CYPHER_BUILDER_PRETTY"

def layoutOf (text : String) : Option Bool :=
  if text = "true" then some true else if text = "false" then some false else none

/-- The settings of an environment. -/
def ofEnvironment (env : Environment) : Except SettingsError Settings :=
  let prefixOf (f : PrefixField) : String := (env (environmentName f)).getD (standard.get f)
  let layout := (env layoutName).getD "true"
  match layoutOf layout with
  | none => .error (.environment layoutName layout)
  | some pretty =>
      check ⟨prefixOf .node, prefixOf .relationship, prefixOf .plain, prefixOf .param, pretty⟩

/-- The settings of a document, which may not have been readable. -/
def ofDocument (decode : String → Option Settings) (document? : Option String) :
    Except SettingsError Settings :=
  match document? with
  | none => .error .unreadable
  | some document =>
      match decode document with
      | none => .error (.malformed document)
      | some settings => check settings

end Settings

end GraphQuery
