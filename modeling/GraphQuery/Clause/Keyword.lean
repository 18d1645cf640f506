set_option autoImplicit false

/-! # Clause keywords

The words that clauses begin with, and what can be wrong with a clause.

A keyword is a list of words, because `OPTIONAL MATCH`, `ORDER BY` and `DETACH DELETE` are
written with a blank inside. Messages have the words as one text, drafts have them one by one.
-/

namespace GraphQuery

inductive Keyword where
  | matching
  | optionalMatching
  | filter
  | projecting
  | returning
  | orderBy
  | skip
  | limit
  | unwind
  | create
  | merge
  | set
  | delete
  | detachDelete
deriving DecidableEq

def Keyword.all : List Keyword :=
  [.matching, .optionalMatching, .filter, .projecting, .returning, .orderBy, .skip, .limit,
    .unwind, .create, .merge, .set, .delete, .detachDelete]

/-- The words of a keyword. -/
def Keyword.words : Keyword → List String
  | .matching => ["MATCH"]
  | .optionalMatching => ["OPTIONAL", "MATCH"]
  | .filter => ["WHERE"]
  | .projecting => ["WITH"]
  | .returning => ["RETURN"]
  | .orderBy => ["ORDER", "BY"]
  | .skip => ["SKIP"]
  | .limit => ["LIMIT"]
  | .unwind => ["UNWIND"]
  | .create => ["CREATE"]
  | .merge => ["MERGE"]
  | .set => ["SET"]
  | .delete => ["DELETE"]
  | .detachDelete => ["DETACH", "DELETE"]

def Keyword.text (k : Keyword) : String := " ".intercalate k.words

/-- A clause without a part that it needs, or a clause where it must not stand. -/
inductive ClauseError where
  | emptyProjection
  | emptyPatternList (clause : Keyword)
  | emptyAssignments
  | emptyTargets (clause : Keyword)
  | emptySortItems
  | order (clause : Keyword) (after? : Option Keyword)
deriving DecidableEq

/-- The wording of a fault. -/
def ClauseError.message : ClauseError → String
  | .emptyProjection => "Projection list is empty (at least one projection required)"
  | .emptyPatternList clause => clause.text ++ " clause is empty (at least one pattern required)"
  | .emptyAssignments => "SET clause is empty (at least one assignment required)"
  | .emptyTargets clause => clause.text ++ " clause is empty (at least one variable required)"
  | .emptySortItems => "ORDER BY clause is empty (at least one sort item required)"
  | .order clause after? =>
      clause.text ++ " cannot follow " ++
        (after?.map Keyword.text).getD "the start of the statement"

end GraphQuery
