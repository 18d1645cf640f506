import GraphQuery.Clause.Keyword
import GraphQuery.Pattern.Basic

set_option autoImplicit false

/-! # Clauses

The clauses of a statement. A clause that lists patterns, items or targets lists one at least, which
its type says; the functions that take a list report an empty one.
-/

namespace GraphQuery

/-- A list with at least one member. -/
structure OneOrMore (α : Type) where
  head : α
  tail : List α

namespace OneOrMore

variable {α : Type}

def toList (xs : OneOrMore α) : List α := xs.head :: xs.tail

def single (x : α) : OneOrMore α := ⟨x, []⟩

def append (xs ys : OneOrMore α) : OneOrMore α := ⟨xs.head, xs.tail ++ ys.toList⟩

/-- A list with at least one member, or the given fault. -/
def ofList {ε : Type} (fault : ε) : List α → Except ε (OneOrMore α)
  | [] => .error fault
  | x :: xs => .ok ⟨x, xs⟩

@[simp] theorem toList_single (x : α) : (single x).toList = [x] := rfl

@[simp] theorem toList_append (xs ys : OneOrMore α) :
    (xs.append ys).toList = xs.toList ++ ys.toList := rfl

theorem ofList_toList {ε : Type} (fault : ε) (xs : OneOrMore α) :
    ofList fault xs.toList = .ok xs := rfl

end OneOrMore

/-! ## Parts of clauses

A projection and a sort item hold whole expressions; an assignment names its target by the
variable alone, since only a property of a node or a relationship can be given a value. -/

/-- A projected expression, with the variable that names it from there on. -/
structure Item where
  expr : Expr
  alias? : Option Alias

/-- What a statement passes on or returns. -/
structure Projection where
  distinct : Bool
  items : OneOrMore Item

structure SortItem where
  expr : Expr
  descending : Bool

/-- A property that is given a value. -/
structure Assignment where
  target : Variable
  key : String
  value : Expr

/-! ## Clauses -/

/-- A clause of a statement. -/
inductive Clause where
  | matching (optional : Bool) (patterns : OneOrMore Pattern)
  | filter (condition : Expr)
  | projecting (projection : Projection)
  | returning (projection : Projection)
  | orderBy (items : OneOrMore SortItem)
  | skip (count : Expr)
  | limit (count : Expr)
  | unwind (source : Expr) (target : Alias)
  | create (patterns : OneOrMore Pattern)
  | merge (pattern : Pattern)
  | set (assignments : OneOrMore Assignment)
  | delete (detach : Bool) (targets : OneOrMore Variable)

namespace Clause

/-- The keyword that a clause begins with. -/
def keyword : Clause → Keyword
  | .matching optional _ => if optional then .optionalMatching else .matching
  | .filter _ => .filter
  | .projecting _ => .projecting
  | .returning _ => .returning
  | .orderBy _ => .orderBy
  | .skip _ => .skip
  | .limit _ => .limit
  | .unwind _ _ => .unwind
  | .create _ => .create
  | .merge _ => .merge
  | .set _ => .set
  | .delete detach _ => if detach then .detachDelete else .delete

end Clause

/-! ### Clauses from lists

These are the entry points for callers that hold their parts as a list. Each hands the list to
`OneOrMore.ofList` with the fault for its own clause, and a list with a member is never refused. -/

def Projection.ofItems (distinct : Bool) (items : List Item) : Except ClauseError Projection :=
  (OneOrMore.ofList .emptyProjection items).map (⟨distinct, ·⟩)

namespace Clause

/-- The clause that matches a list of patterns. -/
def matchOf (optional : Bool) (patterns : List Pattern) : Except ClauseError Clause :=
  (OneOrMore.ofList (.emptyPatternList (if optional then .optionalMatching else .matching))
    patterns).map (.matching optional ·)

def createOf (patterns : List Pattern) : Except ClauseError Clause :=
  (OneOrMore.ofList (.emptyPatternList .create) patterns).map .create

def orderByOf (items : List SortItem) : Except ClauseError Clause :=
  (OneOrMore.ofList .emptySortItems items).map .orderBy

def setOf (assignments : List Assignment) : Except ClauseError Clause :=
  (OneOrMore.ofList .emptyAssignments assignments).map .set

def deleteOf (detach : Bool) (targets : List Variable) : Except ClauseError Clause :=
  (OneOrMore.ofList (.emptyTargets (if detach then .detachDelete else .delete)) targets).map
    (.delete detach ·)

end Clause

end GraphQuery
