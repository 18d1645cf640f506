import GraphQuery.Clause.Equality

set_option autoImplicit false

/-! # Statements

A statement is a list of clauses in an order that the query language allows. `Statement.push` adds a
clause at the end:

* `WHERE` follows `MATCH`, `OPTIONAL MATCH`, `WITH` or the modifiers of a `WITH`, and joins a
  `WHERE` at the end by `AND`;
* `ORDER BY` follows `RETURN` or `WITH`, and adds its items to an `ORDER BY` at the end;
* `SKIP` follows `RETURN`, `WITH` or `ORDER BY`, and takes the place of a `SKIP` at the end;
* `LIMIT` follows `RETURN`, `WITH`, `ORDER BY` or `SKIP`, and takes the place of a `LIMIT` at the
  end;
* after a `RETURN` there are only these three modifiers.

Mostly the last clause decides what may follow. Two questions need more of the statement: whether
there is a `RETURN` anywhere, and, for a `WHERE` behind modifiers, which clause the modifiers
belong to.
-/

namespace GraphQuery

structure Statement where
  clauses : List Clause

instance : BEq Statement := ⟨fun a b => a.clauses == b.clauses⟩

/-- Whether a clause modifies the projection before it. -/
def Clause.isModifier : Clause → Bool
  | .orderBy _ | .skip _ | .limit _ => true
  | _ => false

namespace Statement

def empty : Statement := ⟨[]⟩

def last? (s : Statement) : Option Clause := s.clauses.getLast?

def add (s : Statement) (c : Clause) : Statement := ⟨s.clauses ++ [c]⟩

/-- The statement with another clause in the place of the last. -/
def replaceLast (s : Statement) (c : Clause) : Statement := ⟨s.clauses.dropLast ++ [c]⟩

/-- Whether the statement returns something. -/
def hasReturn (s : Statement) : Bool := s.clauses.any fun c => c.keyword == .returning

/-- The keyword of the last clause that is no modifier: the one that modifiers at the end belong
to. -/
def modified? (s : Statement) : Option Keyword :=
  (s.clauses.reverse.find? fun c => !c.isModifier).map Clause.keyword

/-- The fault of a clause that may not stand after the last one. -/
def outOfOrder (s : Statement) (k : Keyword) : ClauseError :=
  .order k (s.last?.map Clause.keyword)

/-! ## Adding a clause

The four clauses with rules of their own have a function each, and `push` sends a clause to its
function. Any other clause is refused after a `RETURN` and added at the end otherwise. A refused
clause leaves nothing behind, for the statement before it is what the caller still has. -/

/-- The statement with a condition added by `AND`. -/
def pushFilter (s : Statement) (condition : Expr) : Except ClauseError Statement :=
  match s.last? with
  | some (.filter existing) => .ok (s.replaceLast (.filter (existing.and condition)))
  | some (.matching _ _) | some (.projecting _) => .ok (s.add (.filter condition))
  | some c =>
      -- the modifiers at the end may belong to a `WITH`
      if c.isModifier && s.modified? == some .projecting then .ok (s.add (.filter condition))
      else .error (s.outOfOrder .filter)
  | none => .error (s.outOfOrder .filter)

/-- The statement with more items to sort by. -/
def pushOrderBy (s : Statement) (items : OneOrMore SortItem) : Except ClauseError Statement :=
  match s.last? with
  | some (.orderBy existing) => .ok (s.replaceLast (.orderBy (existing.append items)))
  | some (.returning _) | some (.projecting _) => .ok (s.add (.orderBy items))
  | _ => .error (s.outOfOrder .orderBy)

/-- The statement with a number of rows to skip. -/
def pushSkip (s : Statement) (count : Expr) : Except ClauseError Statement :=
  match s.last? with
  | some (.skip _) => .ok (s.replaceLast (.skip count))
  | some (.returning _) | some (.projecting _) | some (.orderBy _) => .ok (s.add (.skip count))
  | _ => .error (s.outOfOrder .skip)

/-- The statement with a number of rows to keep. -/
def pushLimit (s : Statement) (count : Expr) : Except ClauseError Statement :=
  match s.last? with
  | some (.limit _) => .ok (s.replaceLast (.limit count))
  | some (.returning _) | some (.projecting _) | some (.orderBy _) | some (.skip _) =>
      .ok (s.add (.limit count))
  | _ => .error (s.outOfOrder .limit)

/-- The statement with a clause added at the end. -/
def push (s : Statement) (c : Clause) : Except ClauseError Statement :=
  -- behind a `RETURN` there are only its modifiers
  if s.hasReturn && !c.isModifier then .error (.order c.keyword (some .returning))
  else match c with
    | .filter condition => s.pushFilter condition
    | .orderBy items => s.pushOrderBy items
    | .skip count => s.pushSkip count
    | .limit count => s.pushLimit count
    | c => .ok (s.add c)

/-! ## One clause at a time

A statement is mostly written as a chain of these. Each makes one clause of its arguments and
pushes it, and the clauses that list patterns list just the one given. `whereAll` and `whereAny`
join a `WHERE` at the end, by `AND` and by `OR`; all others start a clause, apart from `skip` and
`limit`, which take the place of their own clause at the end. -/

def matching (s : Statement) (p : Pattern) : Except ClauseError Statement :=
  s.push (.matching false (.single p))

def optionalMatching (s : Statement) (p : Pattern) : Except ClauseError Statement :=
  s.push (.matching true (.single p))

/-- The statement that also needs a condition. -/
def whereAll (s : Statement) (condition : Expr) : Except ClauseError Statement :=
  s.push (.filter condition)

/-- The statement that is content with a condition: a `WHERE` at the end is joined by `OR`, and
without one a `WHERE` begins. -/
def whereAny (s : Statement) (condition : Expr) : Except ClauseError Statement :=
  match s.last? with
  | some (.filter existing) => .ok (s.replaceLast (.filter (existing.or condition)))
  | _ => s.whereAll condition

def create (s : Statement) (p : Pattern) : Except ClauseError Statement :=
  s.push (.create (.single p))

def merge (s : Statement) (p : Pattern) : Except ClauseError Statement := s.push (.merge p)

def skip (s : Statement) (count : Expr) : Except ClauseError Statement := s.push (.skip count)

def limit (s : Statement) (count : Expr) : Except ClauseError Statement := s.push (.limit count)

def unwind (s : Statement) (source : Expr) (target : Alias) : Except ClauseError Statement :=
  s.push (.unwind source target)

end Statement

/-- A number of rows as an expression. -/
def Expr.rows (n : Nat) : Expr := .literal (.integer (Int64.ofNat n))

end GraphQuery
