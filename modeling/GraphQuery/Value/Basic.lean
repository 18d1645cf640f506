import GraphQuery.Number.Binary64

set_option autoImplicit false

/-! # Property values

The values that a property, a parameter or an inline literal can hold. The entries of a map stand
in ascending order of their keys, each key once; `Value.ofEntries` builds such a map from any list
of entries. Byte arrays and floating-point numbers that are not finite can be held but not written.
-/

namespace GraphQuery

open Number

/-- A property value. -/
inductive Value where
  | null
  | boolean (b : Bool)
  | integer (n : Int64)
  | float (x : Binary64)
  | string (s : String)
  | list (items : List Value)
  | map (entries : List (String × Value))
  | bytes (data : List UInt8)

namespace Value

/-! ## Kinds

Messages name a value by its kind. A floating-point number that is not finite has a kind of its
own, because it is refused where a finite one is written. -/

/-- The kind of a value. -/
inductive Kind where
  | null
  | boolean
  | integer
  | float
  | nonFiniteFloat
  | string
  | list
  | map
  | byteArray
deriving DecidableEq

def Kind.text : Kind → String
  | .null => "null"
  | .boolean => "boolean"
  | .integer => "integer"
  | .float => "float"
  | .nonFiniteFloat => "non-finite float"
  | .string => "string"
  | .list => "list"
  | .map => "map"
  | .byteArray => "byte array"

/-- The kind of a value; floating-point numbers that are not finite have one of their own. -/
def kind : Value → Kind
  | .null => .null
  | .boolean _ => .boolean
  | .integer _ => .integer
  | .float x => if x.isFinite then .float else .nonFiniteFloat
  | .string _ => .string
  | .list _ => .list
  | .map _ => .map
  | .bytes _ => .byteArray

/-! ## Maps

Putting an entry into a list with ascending keys keeps the keys ascending, so a map that is built
entry by entry is in order from the first entry on. -/

/-- An entry put into a list of entries with ascending keys. It takes the place of the entry with
the same key, if there is one. -/
def insertEntry {α : Type} (key : String) (value : α) : List (String × α) → List (String × α)
  | [] => [(key, value)]
  | (k, v) :: rest =>
      if key < k then (key, value) :: (k, v) :: rest
      else if key = k then (key, value) :: rest
      else (k, v) :: insertEntry key value rest

/-- The entries in ascending order of their keys; of several with one key the last counts. -/
def sortEntries {α : Type} (entries : List (String × α)) : List (String × α) :=
  entries.foldl (fun sorted e => insertEntry e.1 e.2 sorted) []

def ofEntries (entries : List (String × Value)) : Value := .map (sortEntries entries)

/-! ## Equality

There are two comparisons, which differ in how floating-point numbers are compared: `same` looks
at their bits, so a value is always the same as itself, and `equal` compares them as numbers are
compared. Lists and maps are compared member by member in both. -/

mutual

/-- Whether two values are the same, floating-point numbers by their bits. -/
def same : Value → Value → Bool
  | .null, .null => true
  | .boolean a, .boolean b => a == b
  | .integer a, .integer b => a == b
  | .float a, .float b => a == b
  | .string a, .string b => a == b
  | .list a, .list b => sameItems a b
  | .map a, .map b => sameEntries a b
  | .bytes a, .bytes b => a == b
  | _, _ => false

def sameItems : List Value → List Value → Bool
  | [], [] => true
  | a :: as, b :: bs => same a b && sameItems as bs
  | _, _ => false

def sameEntries : List (String × Value) → List (String × Value) → Bool
  | [], [] => true
  | (k, a) :: as, (l, b) :: bs => k == l && same a b && sameEntries as bs
  | _, _ => false

end

mutual

theorem same_iff : (a b : Value) → (same a b = true ↔ a = b)
  | .list a, b => by cases b <;> simp [same, sameItems_iff a]
  | .map a, b => by cases b <;> simp [same, sameEntries_iff a]
  | .null, b => by cases b <;> simp [same]
  | .boolean _, b => by cases b <;> simp [same]
  | .integer _, b => by cases b <;> simp [same]
  | .float _, b => by cases b <;> simp [same]
  | .string _, b => by cases b <;> simp [same]
  | .bytes _, b => by cases b <;> simp [same]

theorem sameItems_iff : (as bs : List Value) → (sameItems as bs = true ↔ as = bs)
  | [], bs => by cases bs <;> simp [sameItems]
  | a :: as, bs => by cases bs <;> simp [sameItems, same_iff a, sameItems_iff as]

theorem sameEntries_iff : (as bs : List (String × Value)) → (sameEntries as bs = true ↔ as = bs)
  | [], bs => by cases bs <;> simp [sameEntries]
  | (k, a) :: as, bs => by
      rcases bs with _ | ⟨⟨l, b⟩, bs⟩ <;>
        simp [sameEntries, same_iff a, sameEntries_iff as]

end

instance : DecidableEq Value := fun a b => decidable_of_iff _ (same_iff a b)

mutual

/-- Whether two values are equal, floating-point numbers as numbers: not-a-number is not equal to
itself. An integer never equals a floating-point number. -/
def equal : Value → Value → Bool
  | .null, .null => true
  | .boolean a, .boolean b => a == b
  | .integer a, .integer b => a == b
  | .float a, .float b => a.numEq b
  | .string a, .string b => a == b
  | .list a, .list b => equalItems a b
  | .map a, .map b => equalEntries a b
  | .bytes a, .bytes b => a == b
  | _, _ => false

def equalItems : List Value → List Value → Bool
  | [], [] => true
  | a :: as, b :: bs => equal a b && equalItems as bs
  | _, _ => false

def equalEntries : List (String × Value) → List (String × Value) → Bool
  | [], [] => true
  | (k, a) :: as, (l, b) :: bs => k == l && equal a b && equalEntries as bs
  | _, _ => false

end

end Value

end GraphQuery
