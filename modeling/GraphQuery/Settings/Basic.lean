import GraphQuery.Name.Basic
import GraphQuery.Variable

set_option autoImplicit false

/-! # Settings

How generated names begin and how clauses are laid out. A generated name is a prefix and a number,
so a prefix has to be a plain identifier; `Settings.check` finds the prefixes that are not.

The prefixes that break the rule are reported together, in the order of their names in a settings
document, and not only the first of them.
-/

namespace GraphQuery

/-- Naming and layout of a build. -/
structure Settings where
  nodePrefix : String
  relationshipPrefix : String
  variablePrefix : String
  paramPrefix : String
  /-- One clause a line, or all clauses on one line. -/
  pretty : Bool
deriving DecidableEq

/-- The prefixes of the settings, in the order of their names. -/
inductive PrefixField where
  | node
  | param
  | relationship
  | plain
deriving DecidableEq

/-- The name of a prefix in a settings document. -/
def PrefixField.name : PrefixField → String
  | .node => "node_prefix"
  | .param => "param_prefix"
  | .relationship => "relationship_prefix"
  | .plain => "variable_prefix"

def PrefixField.all : List PrefixField := [.node, .param, .relationship, .plain]

/-- Why there are no settings. -/
inductive SettingsError where
  /-- A document that could not be read. -/
  | unreadable
  /-- A document that is no mapping of settings. -/
  | malformed (document : String)
  /-- A variable of the environment that holds neither `true` nor `false`. -/
  | environment (name value : String)
  /-- Prefixes that are no plain identifiers. -/
  | prefixes (fields : List PrefixField)
deriving DecidableEq

/-- What a prefix has to be. -/
def SettingsError.prefixRule : String := "Prefix must be a non-empty plain identifier"

/-- The wording of a fault in the environment; the other faults are told by their parts. -/
def SettingsError.message? : SettingsError → Option String
  | .environment name value =>
      some ("Parse error for " ++ name ++ ": " ++ value ++
        " - provided string was not `true` or `false`")
  | _ => none

namespace Settings

/-- The settings where nothing else is said. -/
def standard : Settings where
  nodePrefix := "n"
  relationshipPrefix := "r"
  variablePrefix := "v"
  paramPrefix := "param"
  pretty := true

/-- The standard names with all clauses on one line. -/
def compact : Settings where
  nodePrefix := "n"
  relationshipPrefix := "r"
  variablePrefix := "v"
  paramPrefix := "param"
  pretty := false

/-- The prefix of generated names for variables of a kind. -/
def prefixFor (s : Settings) : VariableKind → String
  | .node => s.nodePrefix
  | .relationship => s.relationshipPrefix
  | .plain => s.variablePrefix

def separator (s : Settings) : Char := if s.pretty then '\n' else ' '

/-- The value of a prefix. -/
def get (s : Settings) : PrefixField → String
  | .node => s.nodePrefix
  | .param => s.paramPrefix
  | .relationship => s.relationshipPrefix
  | .plain => s.variablePrefix

/-- The settings if every prefix is a plain identifier, and otherwise the prefixes that are not. -/
def check (s : Settings) : Except SettingsError Settings :=
  match PrefixField.all.filter fun f => !Name.isPlain (s.get f) with
  | [] => .ok s
  | fields => .error (.prefixes fields)

end Settings

end GraphQuery
