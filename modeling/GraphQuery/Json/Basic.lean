import GraphQuery.Value.Basic

set_option autoImplicit false

/-! # JSON values

Parameters leave a build as JSON values, and property values can be made from JSON values. A JSON
number is an integer or a finite floating-point number. An integer within the range of 64 bits with
a sign becomes an integer value; one beyond it becomes the nearest floating-point number.
-/

namespace GraphQuery

open Number

inductive Json where
  | null
  | boolean (b : Bool)
  | integer (n : Int)
  | float (x : Binary64) (finite : x.isFinite = true)
  | string (s : String)
  | array (items : List Json)
  | object (members : List (String × Json))

/-- A value of a kind that cannot be written, and where it was to be written. -/
structure Unsupported where
  kind : Value.Kind
  context : String
deriving DecidableEq

namespace Value

/-! ## From values to JSON

The first fault is the one that is reported, so the three functions stop at it. An entry without
a fault keeps its key whatever the key is: an empty key has a JSON form and no literal. -/

mutual

/-- The JSON form of a value, or the first part of it that has none: list items from left to right,
map entries in the order of their keys. -/
def toJson (context : String) : Value → Except Unsupported Json
  | .null => .ok .null
  | .boolean b => .ok (.boolean b)
  | .integer n => .ok (.integer n.toInt)
  | .float x => if h : x.isFinite then .ok (.float x h) else .error ⟨.nonFiniteFloat, context⟩
  | .string s => .ok (.string s)
  | .list items => (toJsonItems context items).map .array
  | .map entries => (toJsonEntries context entries).map .object
  | .bytes _ => .error ⟨.byteArray, context⟩

def toJsonItems (context : String) : List Value → Except Unsupported (List Json)
  | [] => .ok []
  | v :: vs =>
      match toJson context v with
      | .error e => .error e
      | .ok j => (toJsonItems context vs).map (j :: ·)

/-- The JSON forms of the entries of a map. -/
def toJsonEntries (context : String) :
    List (String × Value) → Except Unsupported (List (String × Json))
  | [] => .ok []
  | (k, v) :: es =>
      match toJson context v with
      | .error e => .error e
      | .ok j => (toJsonEntries context es).map ((k, j) :: ·)

end

/-! ## From JSON to values

There is no fault in this direction. Several members with one key leave the value of the last,
since the entries of a map are sorted by `Value.ofEntries`. -/

/-- The value of a JSON integer. -/
def ofInteger (n : Int) : Value :=
  if Int64.minValue.toInt ≤ n ∧ n ≤ Int64.maxValue.toInt then .integer (Int64.ofInt n)
  else .float (Binary64.ofInt n)

mutual

/-- The value of a JSON value. -/
def ofJson : Json → Value
  | .null => .null
  | .boolean b => .boolean b
  | .integer n => ofInteger n
  | .float x _ => .float x
  | .string s => .string s
  | .array items => .list (ofJsonItems items)
  | .object members => ofEntries (ofJsonMembers members)

def ofJsonItems : List Json → List Value
  | [] => []
  | j :: js => ofJson j :: ofJsonItems js

def ofJsonMembers : List (String × Json) → List (String × Value)
  | [] => []
  | (k, j) :: ms => (k, ofJson j) :: ofJsonMembers ms

end

end Value

end GraphQuery
