import GraphQuery.Expr.Basic
import GraphQuery.Name.Basic

set_option autoImplicit false

/-! # Functions

The functions that the query language defines, with the number of arguments they take. A call of a
known function is written with the function's own spelling whatever the letter case it was asked
for in, takes a number of arguments that the function allows, and has `DISTINCT` only if the
function is an aggregate. A call of any other function only needs a dotted identifier as its name.

The known functions are listed by how many arguments they take. Two of them never have the same
small letters, so looking a name up in any letter case finds one signature at most.
-/

namespace GraphQuery

/-- A known function. -/
structure Signature where
  name : String
  arity : Arity
  aggregate : Bool
deriving DecidableEq

/-- Whether a number of arguments is allowed. -/
def Arity.allows (a : Arity) (count : Nat) : Bool :=
  decide (a.least ≤ count) && (a.most?.all fun most => decide (count ≤ most))

namespace Signature

/-- The aggregates: functions of all rows of a group. -/
def aggregates : List Signature :=
  (["count", "collect", "sum", "avg", "min", "max", "stDev"].map fun f => ⟨f, ⟨1, some 1⟩, true⟩) ++
  (["percentileCont", "percentileDisc"].map fun f => ⟨f, ⟨2, some 2⟩, true⟩)

/-- The functions of a single row that take a fixed number of arguments. -/
def fixed : List Signature :=
  (["timestamp", "rand"].map fun f => ⟨f, ⟨0, some 0⟩, false⟩) ++
  ([ "elementId", "id", "type", "labels", "keys", "properties", "size", "length", "head", "last",
      "startNode", "endNode", "toInteger", "toFloat", "toBoolean", "toString", "nodes",
      "relationships", "reverse", "tail", "toLower", "toUpper", "trim", "ltrim", "rtrim", "abs",
      "ceil", "floor", "sign", "sqrt", "duration"].map fun f => ⟨f, ⟨1, some 1⟩, false⟩) ++
  (["left", "right", "split"].map fun f => ⟨f, ⟨2, some 2⟩, false⟩) ++
  [⟨"replace", ⟨3, some 3⟩, false⟩]

/-- The functions of a single row with arguments that may be left out or repeated. -/
def flexible : List Signature :=
  (["date", "datetime", "localdatetime"].map fun f => ⟨f, ⟨0, some 1⟩, false⟩) ++
  (["range", "substring"].map fun f => ⟨f, ⟨2, some 3⟩, false⟩) ++
  [⟨"round", ⟨1, some 3⟩, false⟩, ⟨"coalesce", ⟨1, none⟩, false⟩]

def known : List Signature := aggregates ++ fixed ++ flexible

/-- The known function of a name in any letter case. -/
def find? (name : String) : Option Signature :=
  known.find? fun s => Name.smallLetters s.name == Name.smallLetters name

end Signature

/-! ## Calls -/

/-- The spelling of a function in a call with so many arguments, or why there is no such call. A
wrong number of arguments is found before a `DISTINCT` that is out of place. -/
def functionSpelling (name : String) (count : Nat) (distinct : Bool) :
    Except StructureError String :=
  if !Name.isDotted name then .error (.functionName name)
  else match Signature.find? name with
    | none => .ok name
    | some s =>
        if !s.arity.allows count then .error (.functionArity s.name s.arity count)
        else if distinct && !s.aggregate then .error (.distinctNotAggregate s.name)
        else .ok s.name

namespace Expr

def callOf (name : String) (distinct : Bool) (args : List Expr) : Except StructureError Expr :=
  (functionSpelling name args.length distinct).map fun spelling => .call spelling distinct args

/-! ### Calls of known functions with one argument

Each of these is accepted as it stands, so there is nothing to report. `count` and `collect` come
a second time with `DISTINCT`, which makes a value that several rows share count once; `sum`,
`avg`, `min` and `max` are aggregates too but have no such second form. The others read a string,
a list, or a node or relationship: `relationshipType` is called `type` in a query. -/

def count (e : Expr) : Expr := .call "count" false [e]

def countDistinct (e : Expr) : Expr := .call "count" true [e]

def collect (e : Expr) : Expr := .call "collect" false [e]

def collectDistinct (e : Expr) : Expr := .call "collect" true [e]

def sum (e : Expr) : Expr := .call "sum" false [e]

def avg (e : Expr) : Expr := .call "avg" false [e]

def min (e : Expr) : Expr := .call "min" false [e]

def max (e : Expr) : Expr := .call "max" false [e]

def size (e : Expr) : Expr := .call "size" false [e]

def toLower (e : Expr) : Expr := .call "toLower" false [e]

def toUpper (e : Expr) : Expr := .call "toUpper" false [e]

def trim (e : Expr) : Expr := .call "trim" false [e]

def labels (e : Expr) : Expr := .call "labels" false [e]

/-- The type of a relationship. -/
def relationshipType (e : Expr) : Expr := .call "type" false [e]

/-- The identifier that the store gave to a node or a relationship. -/
def elementId (e : Expr) : Expr := .call "elementId" false [e]

/-- The first of its arguments that is not null; there must be one. -/
def coalesce (args : List Expr) : Except StructureError Expr := callOf "coalesce" false args

end Expr

end GraphQuery
