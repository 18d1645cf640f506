import GraphQuery.Proofs.Print.Statement
import GraphQuery.Proofs.Tree.Expr

set_option autoImplicit false

/-! # Trees of statements

What a reader of a statement can know of it: its clauses in order with all that they list, names in
the place of variables and parameters, and trees in the place of expressions. An alias that is the
projected variable itself leaves no trace.
-/

namespace GraphQuery

/-! ## Trees

There is a type of trees for each part of a statement. It has the fields of the part without the
numbers: a node is known by its name, and an expression by its tree. -/

structure NodeTree where
  name : String
  labels : List String
  properties : List (String × Tree)

/-- A relationship as it is read. -/
structure RelationshipTree where
  name : String
  type? : Option String
  hops? : Option Hops
  properties : List (String × Tree)

structure SegmentTree where
  relationship : RelationshipTree
  direction : Direction
  node : NodeTree

structure PatternTree where
  start : NodeTree
  segments : List SegmentTree

structure ItemTree where
  expr : Tree
  alias? : Option String

structure ProjectionTree where
  distinct : Bool
  items : List ItemTree

structure SortItemTree where
  expr : Tree
  descending : Bool

structure AssignmentTree where
  target : String
  key : String
  value : Tree

/-- A clause as it is read. -/
inductive ClauseTree where
  | matching (optional : Bool) (patterns : List PatternTree)
  | filter (condition : Tree)
  | projecting (projection : ProjectionTree)
  | returning (projection : ProjectionTree)
  | orderBy (items : List SortItemTree)
  | skip (count : Tree)
  | limit (count : Tree)
  | unwind (source : Tree) (target : String)
  | create (patterns : List PatternTree)
  | merge (pattern : PatternTree)
  | set (assignments : List AssignmentTree)
  | delete (detach : Bool) (targets : List String)

/-! ## The tree of a statement

The trees are made with the names that the statement leaves in its scope. Labels, types, keys,
directions, hops and all flags are kept as they are. -/

def Properties.tree (n : Names) (ps : Properties) : List (String × Tree) :=
  ps.map fun e => (e.1, e.2.tree n)

def Node.tree (n : Names) (x : Node) : NodeTree :=
  ⟨n.var x.toVar, x.labels, Properties.tree n x.properties⟩

def Relationship.tree (n : Names) (r : Relationship) : RelationshipTree :=
  ⟨n.var r.toVar, r.type?, r.hops?, Properties.tree n r.properties⟩

def Segment.tree (n : Names) (s : Segment) : SegmentTree :=
  ⟨s.relationship.tree n, s.direction, s.node.tree n⟩

def Pattern.tree (n : Names) (p : Pattern) : PatternTree :=
  ⟨p.start.tree n, p.segments.map (Segment.tree n)⟩

def Item.tree (n : Names) (i : Item) : ItemTree :=
  ⟨i.expr.tree n, i.shownAlias?.map fun a => n.var a.toVar⟩

def Projection.tree (n : Names) (p : Projection) : ProjectionTree :=
  ⟨p.distinct, p.items.toList.map (Item.tree n)⟩

def SortItem.tree (n : Names) (i : SortItem) : SortItemTree := ⟨i.expr.tree n, i.descending⟩

def Assignment.tree (n : Names) (a : Assignment) : AssignmentTree :=
  ⟨n.var a.target, a.key, a.value.tree n⟩

/-- The tree of a clause. -/
def Clause.tree (n : Names) : Clause → ClauseTree
  | .matching optional patterns => .matching optional (patterns.toList.map (Pattern.tree n))
  | .filter condition => .filter (condition.tree n)
  | .projecting projection => .projecting (projection.tree n)
  | .returning projection => .returning (projection.tree n)
  | .orderBy items => .orderBy (items.toList.map (SortItem.tree n))
  | .skip count => .skip (count.tree n)
  | .limit count => .limit (count.tree n)
  | .unwind source target => .unwind (source.tree n) (n.var target.toVar)
  | .create patterns => .create (patterns.toList.map (Pattern.tree n))
  | .merge pattern => .merge (pattern.tree n)
  | .set assignments => .set (assignments.toList.map (Assignment.tree n))
  | .delete detach targets => .delete detach (targets.toList.map n.var)

def Statement.tree (n : Names) (st : Statement) : List ClauseTree :=
  st.clauses.map (Clause.tree n)

/-! ## Expressions without faults

A statement whose draft has no fault has only expressions whose drafts have none. The lemmas pass
this from the draft of each part to the expressions in it. -/

theorem Properties.sound_exprs {ps : Properties} (h : Draft.Sound ps.draft) :
    ∀ e ∈ ps.exprs, Draft.Sound e.draft := by
  intro e he
  obtain ⟨entry, hentry, rfl⟩ := List.mem_map.mp he
  unfold draft at h
  split at h
  next hempty =>
      rw [List.isEmpty_iff.mp hempty] at hentry
      exact absurd hentry List.not_mem_nil
  · rw [Expr.draftEntries_eq_map] at h
    exact ((Draft.sound_cons.mp h).2.of_braces.of_commas (List.mem_map_of_mem hentry)).of_entry

theorem Node.sound_exprs {x : Node} (h : Draft.Sound x.draft) :
    ∀ e ∈ Properties.exprs x.properties, Draft.Sound e.draft :=
  Properties.sound_exprs (Draft.sound_append.mp h.of_parens).2

theorem Relationship.sound_exprs {r : Relationship} (h : Draft.Sound r.draft) :
    ∀ e ∈ Properties.exprs r.properties, Draft.Sound e.draft :=
  Properties.sound_exprs (Draft.sound_append.mp h.of_brackets).2

theorem Segment.sound_exprs {s : Segment} (h : Draft.Sound s.draft) :
    ∀ e ∈ s.exprs, Draft.Sound e.draft := by
  obtain ⟨hrelationship, hnode⟩ := Draft.sound_append.mp (Draft.sound_cons.mp h).2
  exact List.forall_mem_append.mpr
    ⟨Relationship.sound_exprs hrelationship, Node.sound_exprs (Draft.sound_cons.mp hnode).2⟩

theorem Pattern.sound_exprs {p : Pattern} (h : Draft.Sound p.draft) :
    ∀ e ∈ p.exprs, Draft.Sound e.draft := by
  obtain ⟨hstart, hsegments⟩ := Draft.sound_append.mp h
  refine List.forall_mem_append.mpr ⟨Node.sound_exprs hstart, fun e he => ?_⟩
  obtain ⟨s, hs, hes⟩ := List.mem_flatMap.mp he
  have hsound : Draft.Sound s.draft :=
    fun piece hpiece => hsegments piece (List.mem_flatMap.mpr ⟨s, hs, hpiece⟩)
  exact Segment.sound_exprs hsound e hes

theorem Clause.sound_patterns {patterns : OneOrMore Pattern}
    (h : Draft.Sound (Draft.commas (patterns.toList.map Pattern.draft))) :
    ∀ e ∈ patterns.toList.flatMap Pattern.exprs, Draft.Sound e.draft := by
  intro e he
  obtain ⟨p, hp, hep⟩ := List.mem_flatMap.mp he
  exact Pattern.sound_exprs (h.of_commas (List.mem_map_of_mem hp)) e hep

theorem Projection.sound_exprs {p : Projection} (h : Draft.Sound p.draft) :
    ∀ e ∈ p.items.toList.map Item.expr, Draft.Sound e.draft := by
  intro e he
  obtain ⟨i, hi, rfl⟩ := List.mem_map.mp he
  have hitem := (Draft.sound_append.mp h).2.of_commas (List.mem_map_of_mem hi)
  rw [Item.draft_eq] at hitem
  exact (Draft.sound_append.mp hitem).1

theorem Clause.sound_exprs {c : Clause} (h : Draft.Sound c.body) :
    ∀ e ∈ c.exprs, Draft.Sound e.draft := by
  cases c with
  | matching optional patterns => exact sound_patterns h
  | create patterns => exact sound_patterns h
  | filter e | skip e | limit e => exact List.forall_mem_singleton.mpr h
  | projecting projection | returning projection => exact Projection.sound_exprs h
  | orderBy items =>
      intro e he
      obtain ⟨i, hi, rfl⟩ := List.mem_map.mp he
      exact (Draft.sound_append.mp (h.of_commas (List.mem_map_of_mem hi))).1
  | unwind source target => exact List.forall_mem_singleton.mpr (Draft.sound_append.mp h).1
  | merge pattern => exact Pattern.sound_exprs h
  | set assignments =>
      intro e he
      obtain ⟨a, ha, rfl⟩ := List.mem_map.mp he
      have hassignment := h.of_commas (List.mem_map_of_mem ha)
      simp only [Assignment.draft, Draft.sound_cons] at hassignment
      exact hassignment.2.2.2.2.2.2
  | delete detach targets => simp [exprs]

/-- In a readable statement whose draft has no fault every expression can be read back. -/
theorem Statement.every_legible {separator : Char} {st : Statement}
    (hreadable : st.Every Expr.Readable) (hsound : Draft.Sound (st.draft separator)) :
    st.Every Expr.Legible := by
  intro c hc e he
  have hclause : Draft.Sound c.draft := hsound.of_intercalate (List.mem_map_of_mem hc)
  have hbody := (Draft.sound_cons.mp (Draft.sound_append.mp hclause).2).2
  exact Expr.every_legible (hreadable c hc e he) (Clause.sound_exprs hbody e he)

end GraphQuery
