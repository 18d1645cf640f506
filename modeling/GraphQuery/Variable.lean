import GraphQuery.Value.Basic

set_option autoImplicit false

/-! # Variables and parameters

A variable stands for a node, a relationship or a plain value; a parameter stands for a value that
travels beside the query text. Both are told apart by a number of their own: two variables with
different numbers are different however alike they are otherwise, and a copy of a variable is the
same variable. A caller gives each new variable and each new parameter a fresh number.
-/

namespace GraphQuery

inductive VariableKind where
  | node
  | relationship
  | plain
deriving DecidableEq

/-- A variable. One with an explicit name is written with exactly that name. -/
structure Variable where
  id : Nat
  kind : VariableKind
  name? : Option String
deriving DecidableEq

/-- A plain variable, which names a projected or unwound value. -/
structure Alias where
  id : Nat
  name? : Option String
deriving DecidableEq

def Alias.toVar (a : Alias) : Variable := ⟨a.id, .plain, a.name?⟩

/-- A parameter with the value it stands for. -/
structure Param where
  id : Nat
  name? : Option String
  value : Value
deriving DecidableEq

end GraphQuery
