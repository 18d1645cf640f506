import GraphQuery.Draft.Pattern
import GraphQuery.Statement.Basic

set_option autoImplicit false

/-! # Drafts of clauses and statements

A clause is its keyword and what it lists, a statement is its clauses with the separator of the
settings between two of them.

The layout of a query is decided here and nowhere else: the separator between two clauses is the
one gap that can be a line feed, and every other gap of a draft is a blank.
-/

namespace GraphQuery

open Draft

/-- The draft of a projected item. A variable that names itself is written once. -/
def Item.draft (i : Item) : Draft :=
  match i.alias? with
  | none => i.expr.draft
  | some a =>
      if i.expr.equal (.var a.toVar) then i.expr.draft
      else i.expr.draft ++ [space, word "AS", space, .var a.toVar]

def Projection.draft (p : Projection) : Draft :=
  (if p.distinct then [word "DISTINCT", space] else []) ++ commas (p.items.toList.map Item.draft)

def SortItem.draft (i : SortItem) : Draft :=
  i.expr.draft ++ if i.descending then [space, word "DESC"] else []

/-- The draft of an assignment. -/
def Assignment.draft (a : Assignment) : Draft :=
  .var a.target :: mark "." :: name .propertyKey a.key :: space :: mark "=" :: space ::
    a.value.draft

/-- The draft of what follows the keyword of a clause. -/
def Clause.body : Clause → Draft
  | .matching _ patterns => commas (patterns.toList.map Pattern.draft)
  | .filter condition => condition.draft
  | .projecting projection => projection.draft
  | .returning projection => projection.draft
  | .orderBy items => commas (items.toList.map SortItem.draft)
  | .skip count => count.draft
  | .limit count => count.draft
  | .unwind source target => source.draft ++ [space, word "AS", space, .var target.toVar]
  | .create patterns => commas (patterns.toList.map Pattern.draft)
  | .merge pattern => pattern.draft
  | .set assignments => commas (assignments.toList.map Assignment.draft)
  | .delete _ targets => commas (targets.toList.map fun v => [.var v])

def Clause.draft (c : Clause) : Draft := words c.keyword.words ++ space :: c.body

/-- The draft of a statement with the given blank between two clauses. -/
def Statement.draft (separator : Char) (s : Statement) : Draft :=
  [.lexeme (.gap separator)].intercalate (s.clauses.map Clause.draft)

end GraphQuery
