import GraphQuery.Proofs.Draft.Fault
import GraphQuery.Proofs.Expr.Every
import GraphQuery.Proofs.Print.Statement
import GraphQuery.Proofs.Value.Support

set_option autoImplicit false

/-! # What cannot be printed

The draft of a statement has a fault for each empty label, type or key in it and for each part of
an inline literal that cannot be written, and no other fault (`Statement.eachFault_draft`).
-/

namespace GraphQuery

open Draft (EachFault)

variable {P : RenderError → Prop}

/-! ## Values

A value has faults of two sorts: the empty keys of its maps, and the kinds of its parts that
cannot be written. They are listed by two recursions, and the faults of the draft are those of
both lists. -/

namespace Value

/-- The keys of the maps in a value. -/
def keys : Value → List String
  | .null | .boolean _ | .integer _ | .float _ | .string _ | .bytes _ => []
  | .list items => items.flatMap keys
  | .map entries => entries.flatMap fun e => e.1 :: e.2.keys
decreasing_by
  · have := List.sizeOf_lt_of_mem ‹_›
    simp_wf
    omega
  · have := sizeOf_value_lt_of_mem ‹_›
    simp_wf
    omega

/-- A condition on the faults of a value as an inline literal. -/
def EachFault (P : RenderError → Prop) (v : Value) : Prop :=
  (∀ key ∈ v.keys, key = "" → P (.emptyName .mapKey)) ∧
    ∀ kind ∈ v.unwritable, P (.unsupported ⟨kind, "inline literal"⟩)

theorem eachFault_draft (v : Value) : Draft.EachFault P v.draft ↔ v.EachFault P := by
  unfold EachFault
  induction v with
  | null | boolean b | integer n | string s => simp [draft, keys, unwritable]
  | float x =>
      rw [draft, keys, unwritable]
      split <;> simp [noLiteral]
  | list items ih =>
      rw [draft, draftItems_eq_map, keys, unwritable, Draft.eachFault_brackets,
        Draft.eachFault_commas, List.forall_mem_map, List.forall_mem_flatMap,
        List.forall_mem_flatMap, ← forall₂_and]
      exact forall₂_congr ih
  | map entries ih =>
      rw [draft, draftEntries_eq_map, keys, unwritable, Draft.eachFault_braces,
        Draft.eachFault_commas, List.forall_mem_map, List.forall_mem_flatMap,
        List.forall_mem_flatMap, ← forall₂_and]
      refine forall₂_congr fun e he => ?_
      rw [Draft.eachFault_entry, ih e he, List.forall_mem_cons, and_assoc]
  | bytes data => simp [draft, keys, unwritable, noLiteral]

end Value

/-! ## Expressions

The faults that are an expression's own are told apart from those of the expressions in it, so
that the condition can be put in the form of `Expr.Every`. -/

namespace Expr

/-- A condition on the faults of an expression that are not those of an expression in it. -/
def OwnFaults (P : RenderError → Prop) : Expr → Prop
  | .property _ key => key = "" → P (.emptyName .propertyKey)
  | .map entries => ∀ e ∈ entries, e.1 = "" → P (.emptyName .mapKey)
  | .literal value => value.EachFault P
  | _ => True

theorem eachFault_entries {role : NameRole} {entries : List (String × Expr)}
    (ih : ∀ e ∈ entries, EachFault P e.2.draft ↔ e.2.Every (OwnFaults P)) :
    EachFault P (Draft.commas (draftEntries role entries)) ↔
      (∀ e ∈ entries, e.1 = "" → P (.emptyName role)) ∧
        ∀ e ∈ entries, e.2.Every (OwnFaults P) := by
  rw [draftEntries_eq_map, Draft.eachFault_commas, List.forall_mem_map, ← forall₂_and]
  refine forall₂_congr fun e he => ?_
  rw [Draft.eachFault_entry, ih e he]

theorem eachFault_items {items : List Expr}
    (ih : ∀ e ∈ items, EachFault P e.draft ↔ e.Every (OwnFaults P)) :
    EachFault P (Draft.commas (draftItems items)) ↔ ∀ e ∈ items, e.Every (OwnFaults P) := by
  rw [draftItems_eq_map, Draft.eachFault_commas, List.forall_mem_map]
  exact forall₂_congr ih

theorem eachFault_comparison (op : Comparison) : EachFault P op.draft := by
  cases op <;> simp [Comparison.draft]

theorem eachFault_arithmetic (op : Arithmetic) : EachFault P op.draft := by
  cases op <;> simp [Arithmetic.draft]

/-- The faults in the draft of an expression are those of the expressions in it. -/
theorem eachFault_draft (e : Expr) : EachFault P e.draft ↔ e.Every (OwnFaults P) := by
  induction e with
  | var v => simp [draft, Every, OwnFaults]
  | property v key => simp [draft, Every, OwnFaults]
  | param p => simp [draft, Every, OwnFaults]
  | literal value =>
      rw [draft, Every]
      exact value.eachFault_draft
  | list items ih =>
      rw [draft, Every, Draft.eachFault_brackets, eachFault_items ih]
      simp [OwnFaults]
  | map entries ih =>
      rw [draft, Every, Draft.eachFault_braces, eachFault_entries ih]
      rfl
  | compare op left right ihl ihr =>
      rw [draft, Every, Draft.eachFault_binary (eachFault_comparison op),
        Draft.eachFault_parensIf, Draft.eachFault_parensIf, ihl, ihr]
      simp [OwnFaults]
  | isNull operand negated ih =>
      rw [draft, Every, Draft.eachFault_append, Draft.eachFault_parensIf, ih]
      simp [OwnFaults]
  | arith op left right ihl ihr =>
      rw [draft, Every, Draft.eachFault_binary (eachFault_arithmetic op),
        Draft.eachFault_parensIf, Draft.eachFault_parensIf, ihl, ihr]
      simp [OwnFaults]
  | group op operands ih =>
      -- neither a connective nor `DISTINCT` has a fault
      have hsep : EachFault P [Draft.space, Draft.word op.text, Draft.space] := by simp
      rw [draft, Every, draftOperands_eq_map, Draft.eachFault_intercalate hsep,
        List.forall_mem_map]
      simp only [Draft.eachFault_parensIf, OwnFaults, true_and]
      exact forall₂_congr ih
  | not operand ih =>
      rw [draft, Every, Draft.eachFault_cons, Draft.eachFault_cons, Draft.eachFault_parensIf, ih]
      simp [OwnFaults]
  | call name distinct args ih =>
      have hdistinct : EachFault P
          (if distinct then [Draft.word "DISTINCT", Draft.space] else []) := by
        cases distinct <;> simp
      rw [draft, Every, Draft.eachFault_cons, Draft.eachFault_parens, Draft.eachFault_append,
        eachFault_items ih]
      simp [OwnFaults, hdistinct]

end Expr

/-! ## Patterns

Labels, types and keys are collected with what each of them is the name of, because a fault tells
it. The names come first and the expressions behind them, whatever their order in the text is: a
condition on all faults does not look at the order. -/

/-- A condition on the faults of some names, each with what it is the name of, and of some
expressions. -/
def FaultsIn (P : RenderError → Prop) (names : List (NameRole × String)) (exprs : List Expr) :
    Prop :=
  (∀ n ∈ names, n.2 = "" → P (.emptyName n.1)) ∧ ∀ e ∈ exprs, e.Every (Expr.OwnFaults P)

namespace FaultsIn

theorem append_iff {names names' : List (NameRole × String)} {exprs exprs' : List Expr} :
    FaultsIn P (names ++ names') (exprs ++ exprs') ↔
      FaultsIn P names exprs ∧ FaultsIn P names' exprs' := by
  unfold FaultsIn
  rw [List.forall_mem_append, List.forall_mem_append, and_and_and_comm]

theorem flatMap_iff {α : Type} {f : α → List (NameRole × String)} {g : α → List Expr}
    {xs : List α} :
    FaultsIn P (xs.flatMap f) (xs.flatMap g) ↔ ∀ x ∈ xs, FaultsIn P (f x) (g x) := by
  unfold FaultsIn
  rw [List.forall_mem_flatMap, List.forall_mem_flatMap, ← forall₂_and]

theorem map_iff {α : Type} {f : α → NameRole × String} {g : α → Expr} {xs : List α} :
    FaultsIn P (xs.map f) (xs.map g) ↔ ∀ x ∈ xs,
      ((f x).2 = "" → P (.emptyName (f x).1)) ∧ (g x).Every (Expr.OwnFaults P) := by
  unfold FaultsIn
  rw [List.forall_mem_map, List.forall_mem_map, ← forall₂_and]

/-- Faults of names alone. -/
theorem names_iff {names : List (NameRole × String)} :
    FaultsIn P names [] ↔ ∀ n ∈ names, n.2 = "" → P (.emptyName n.1) := by
  simp [FaultsIn]

/-- Faults of expressions alone. -/
theorem exprs_iff {exprs : List Expr} :
    FaultsIn P [] exprs ↔ ∀ e ∈ exprs, e.Every (Expr.OwnFaults P) := by
  simp [FaultsIn]

end FaultsIn

def Properties.schemaNames (ps : Properties) : List (NameRole × String) :=
  ps.map fun e => (.propertyKey, e.1)

theorem Properties.eachFault_draft (ps : Properties) :
    EachFault P ps.draft ↔ FaultsIn P ps.schemaNames ps.exprs := by
  unfold draft schemaNames exprs
  rw [FaultsIn.map_iff]
  split
  next hps => simp [List.isEmpty_iff.mp hps]
  · rw [Draft.eachFault_cons, Draft.eachFault_braces,
      Expr.eachFault_entries fun e _ => e.2.eachFault_draft, ← forall₂_and]
    simp

def Node.schemaNames (x : Node) : List (NameRole × String) :=
  x.labels.map (fun l => (.label, l)) ++ Properties.schemaNames x.properties

theorem Node.eachFault_draft (x : Node) :
    EachFault P x.draft ↔ FaultsIn P x.schemaNames (Properties.exprs x.properties) := by
  have hlabels : EachFault P (x.labels.flatMap fun l => [Draft.mark ":", Draft.name .label l]) ↔
      FaultsIn P (x.labels.map fun l => (.label, l)) [] := by
    rw [Draft.eachFault_flatMap, FaultsIn.names_iff, List.forall_mem_map]
    simp
  rw [draft, Draft.eachFault_parens, Draft.eachFault_append, Draft.eachFault_cons, hlabels,
    Properties.eachFault_draft, Draft.allows_var, true_and, ← FaultsIn.append_iff]
  rfl

def Relationship.schemaNames (r : Relationship) : List (NameRole × String) :=
  r.type?.toList.map (fun type => (.relationshipType, type)) ++
    Properties.schemaNames r.properties

theorem Relationship.eachFault_draft (r : Relationship) :
    EachFault P r.draft ↔ FaultsIn P r.schemaNames (Properties.exprs r.properties) := by
  have htype : EachFault P (r.type?.elim [] typeDraft) ↔
      FaultsIn P (r.type?.toList.map fun type => (.relationshipType, type)) [] := by
    rw [FaultsIn.names_iff]
    cases r.type? with
    | none => simp
    | some type => simp [typeDraft]
  have hhops : EachFault P (r.hops?.elim [] fun hops => hops.lexemes.map .lexeme) := by
    cases r.hops? with
    | none => simp
    | some hops => exact List.forall_mem_map.mpr fun l _ => trivial
  rw [draft_eq, Draft.eachFault_brackets, Draft.eachFault_cons, Draft.eachFault_append,
    Draft.eachFault_append, htype, Properties.eachFault_draft, Draft.allows_var, true_and,
    and_iff_right hhops, ← FaultsIn.append_iff]
  rfl

def Segment.schemaNames (s : Segment) : List (NameRole × String) :=
  s.relationship.schemaNames ++ s.node.schemaNames

theorem Segment.eachFault_draft (s : Segment) :
    EachFault P s.draft ↔ FaultsIn P s.schemaNames s.exprs := by
  rw [schemaNames, exprs, FaultsIn.append_iff, ← s.relationship.eachFault_draft,
    ← s.node.eachFault_draft, draft]
  simp

def Pattern.schemaNames (p : Pattern) : List (NameRole × String) :=
  p.start.schemaNames ++ p.segments.flatMap Segment.schemaNames

theorem Pattern.eachFault_draft (p : Pattern) :
    EachFault P p.draft ↔ FaultsIn P p.schemaNames p.exprs := by
  rw [schemaNames, exprs, FaultsIn.append_iff, FaultsIn.flatMap_iff, draft,
    Draft.eachFault_append, Draft.eachFault_flatMap, p.start.eachFault_draft]
  exact and_congr_right fun _ => forall₂_congr fun s _ => s.eachFault_draft

/-! ## Clauses and statements

Clause by clause the names and the expressions are those of its parts. Keywords and separators
have no faults. -/

theorem Item.eachFault_draft (i : Item) :
    EachFault P i.draft ↔ i.expr.Every (Expr.OwnFaults P) := by
  rw [draft_eq, Draft.eachFault_append, i.expr.eachFault_draft]
  cases i.shownAlias? <;> simp

theorem Projection.eachFault_draft (p : Projection) :
    EachFault P p.draft ↔ FaultsIn P [] (p.items.toList.map Item.expr) := by
  have hdistinct : EachFault P
      (if p.distinct then [Draft.word "DISTINCT", Draft.space] else []) := by
    cases p.distinct <;> simp
  rw [draft, Draft.eachFault_append, Draft.eachFault_commas, and_iff_right hdistinct,
    List.forall_mem_map, FaultsIn.exprs_iff, List.forall_mem_map]
  exact forall₂_congr fun i _ => i.eachFault_draft

theorem SortItem.eachFault_draft (i : SortItem) :
    EachFault P i.draft ↔ i.expr.Every (Expr.OwnFaults P) := by
  rw [draft, Draft.eachFault_append, i.expr.eachFault_draft]
  cases i.descending <;> simp

theorem Assignment.eachFault_draft (a : Assignment) :
    EachFault P a.draft ↔
      (a.key = "" → P (.emptyName .propertyKey)) ∧ a.value.Every (Expr.OwnFaults P) := by
  simp [draft, a.value.eachFault_draft]

/-- The labels, types and keys in a clause. -/
def Clause.schemaNames : Clause → List (NameRole × String)
  | .matching _ patterns | .create patterns => patterns.toList.flatMap Pattern.schemaNames
  | .merge pattern => pattern.schemaNames
  | .set assignments => assignments.toList.map fun a => (.propertyKey, a.key)
  | .filter _ | .projecting _ | .returning _ | .orderBy _ | .skip _ | .limit _ | .unwind _ _
  | .delete _ _ => []

theorem Clause.eachFault_body (c : Clause) :
    EachFault P c.body ↔ FaultsIn P c.schemaNames c.exprs := by
  cases c with
  | matching optional patterns | create patterns =>
      rw [body, schemaNames, exprs, Draft.eachFault_commas, List.forall_mem_map,
        FaultsIn.flatMap_iff]
      exact forall₂_congr fun p _ => p.eachFault_draft
  | filter e | skip e | limit e =>
      rw [body, schemaNames, exprs, FaultsIn.exprs_iff, List.forall_mem_singleton]
      exact e.eachFault_draft
  | projecting projection | returning projection => exact projection.eachFault_draft
  | orderBy items =>
      rw [body, schemaNames, exprs, Draft.eachFault_commas, List.forall_mem_map,
        FaultsIn.exprs_iff, List.forall_mem_map]
      exact forall₂_congr fun i _ => i.eachFault_draft
  | unwind source target =>
      rw [body, schemaNames, exprs, FaultsIn.exprs_iff, List.forall_mem_singleton,
        Draft.eachFault_append, source.eachFault_draft]
      simp
  | merge pattern => exact pattern.eachFault_draft
  | set assignments =>
      rw [body, schemaNames, exprs, Draft.eachFault_commas, List.forall_mem_map,
        FaultsIn.map_iff]
      exact forall₂_congr fun a _ => a.eachFault_draft
  | delete detach targets => simp [body, schemaNames, exprs, FaultsIn]

def Statement.schemaNames (st : Statement) : List (NameRole × String) :=
  st.clauses.flatMap Clause.schemaNames

/-- **The faults in the draft of a statement** are those of its names that are empty, and of the
parts of its inline literals that cannot be written. -/
theorem Statement.eachFault_draft (st : Statement) (separator : Char) :
    EachFault P (st.draft separator) ↔
      (∀ n ∈ st.schemaNames, n.2 = "" → P (.emptyName n.1)) ∧ st.Every (Expr.OwnFaults P) := by
  have hseparator : EachFault P [.lexeme (.gap separator)] := by simp
  rw [draft, Draft.eachFault_intercalate hseparator, List.forall_mem_map, schemaNames,
    List.forall_mem_flatMap, Statement.Every, ← forall₂_and]
  refine forall₂_congr fun c _ => ?_
  rw [Clause.draft, Draft.eachFault_append, Draft.eachFault_cons, c.eachFault_body]
  simp [FaultsIn, Clause.Every]

end GraphQuery
