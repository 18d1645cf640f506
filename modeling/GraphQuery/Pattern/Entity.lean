import GraphQuery.Expr.Basic
import GraphQuery.Pattern.Hops

set_option autoImplicit false

/-! # Nodes and relationships

The nodes and relationships of a pattern, with what the pattern says about them. Labels and property
keys stand in the order in which they were first given, each once; a property given again takes the
later value and keeps its place.

A node and a relationship have a number, which is the number of the variable that they are
(`toVar`), and an explicit name or none. The functions that say more about one of them give back
the same node or relationship with one part changed; what was said before is only ever replaced
where it is said again.
-/

namespace GraphQuery

/-- Properties with their values, in order. -/
abbrev Properties := List (String × Expr)

/-- The properties with one more given. -/
def Properties.put (key : String) (value : Expr) : Properties → Properties
  | [] => [(key, value)]
  | (k, v) :: rest => if k = key then (k, value) :: rest else (k, v) :: put key value rest

/-- A node variable with its labels and properties. -/
structure Node where
  id : Nat
  name? : Option String
  labels : List String
  properties : Properties

namespace Node

def blank (id : Nat) : Node := ⟨id, none, [], []⟩

def toVar (n : Node) : Variable := ⟨n.id, .node, n.name?⟩

def named (n : Node) (name : String) : Node := ⟨n.id, some name, n.labels, n.properties⟩

/-- The node with one more label; a label it has already changes nothing. -/
def addLabel (n : Node) (label : String) : Node :=
  if label ∈ n.labels then n else ⟨n.id, n.name?, n.labels ++ [label], n.properties⟩

def addLabels (n : Node) (labels : List String) : Node := labels.foldl addLabel n

def setProperty (n : Node) (key : String) (value : Expr) : Node :=
  ⟨n.id, n.name?, n.labels, n.properties.put key value⟩

/-- Nodes are equal if they are the same variable. -/
instance : BEq Node := ⟨fun a b => a.toVar == b.toVar⟩

end Node

/-- A relationship variable with its type, properties and hops. -/
structure Relationship where
  id : Nat
  name? : Option String
  type? : Option String
  properties : Properties
  hops? : Option Hops

namespace Relationship

/-- The relationship of a type, or of any type, without name, properties and hops. -/
def blank (id : Nat) (type? : Option String) : Relationship := ⟨id, none, type?, [], none⟩

def toVar (r : Relationship) : Variable := ⟨r.id, .relationship, r.name?⟩

def named (r : Relationship) (name : String) : Relationship :=
  ⟨r.id, some name, r.type?, r.properties, r.hops?⟩

def setProperty (r : Relationship) (key : String) (value : Expr) : Relationship :=
  ⟨r.id, r.name?, r.type?, r.properties.put key value, r.hops?⟩

def setHops (r : Relationship) (hops : Hops) : Relationship :=
  ⟨r.id, r.name?, r.type?, r.properties, some hops⟩

/-- Relationships are equal if they are the same variable. -/
instance : BEq Relationship := ⟨fun a b => a.toVar == b.toVar⟩

end Relationship

end GraphQuery
