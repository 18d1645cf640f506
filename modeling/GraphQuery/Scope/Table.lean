set_option autoImplicit false

/-! # Name tables

A table gives each of its owners a name, each name to one owner, in the order in which the owners
came. An owner without an explicit name gets a prefix and a number: the least number from the
table's counter on that makes a name which is not bound.

An owner that is named already keeps its name and changes nothing. A new owner is bound to its
explicit name, if it has one and the name is not bound, and to a generated name otherwise; either
way it goes to the end of the entries. The counter moves past the number that was used, so
numbers that were tried and passed over are not tried again.
-/

namespace GraphQuery

/-- Owners with their names in the order of naming, and the number to go on with. -/
structure NameTable (α : Type) where
  entries : List (α × String)
  next : Nat

/-- The outcome of naming an owner: its name, the table with it, and the generated names that were
bound already. -/
structure Naming (α : Type) where
  name : String
  table : NameTable α
  passedOver : List String

namespace NameTable

variable {α : Type}

def empty (first : Nat) : NameTable α := ⟨[], first⟩

/-- The bound names in the order of naming. -/
def names (t : NameTable α) : List String := t.entries.map Prod.snd

/-- The name of an owner. -/
def nameOf? [DecidableEq α] (t : NameTable α) (owner : α) : Option String :=
  (t.entries.find? fun e => e.1 == owner).map Prod.snd

def bind (t : NameTable α) (owner : α) (name : String) : NameTable α :=
  ⟨t.entries ++ [(owner, name)], t.next⟩

def generated (stem : String) (number : Nat) : String := stem ++ toString number

/-- The least number from a start on whose generated name is not bound. There are more candidates
than bound names, so one of them is free. -/
def freeNumber (bound : List String) (stem : String) (start : Nat) : Nat :=
  let candidates := (List.range (bound.length + 1)).map (start + ·)
  (candidates.find? fun k => !bound.contains (generated stem k)).getD start

/-- The generated names from one number up to another. -/
def generatedBetween (stem : String) (first beyond : Nat) : List String :=
  (List.range (beyond - first)).map fun i => generated stem (first + i)

/-- The name of an owner, given on the first occasion. An explicit name that another owner has is
refused and nothing changes. -/
def name [DecidableEq α] (t : NameTable α) (stem : String) (explicit? : Option String)
    (owner : α) : Except String (Naming α) :=
  match t.nameOf? owner with
  | some name => .ok ⟨name, t, []⟩
  | none =>
      match explicit? with
      | some name =>
          if t.names.contains name then .error name else .ok ⟨name, t.bind owner name, []⟩
      | none =>
          -- the numbers passed over are not tried again
          let k := freeNumber t.names stem t.next
          let name := generated stem k
          .ok ⟨name, ⟨t.entries ++ [(owner, name)], k + 1⟩, generatedBetween stem t.next k⟩

end NameTable

end GraphQuery
