import GraphQuery.Proofs.Draft.Renaming
import GraphQuery.Proofs.Print.TwoPass

set_option autoImplicit false

/-! # Texts do not show identities

A statement with other identities has the draft with the other identities. What is laid out depends
on identities in one place only: an item is written without its alias if it is the variable that the
alias is, so the renaming must keep apart what is mentioned. Then the two statements have the same
text or the same fault, and the same names in the same order (`Statement.render_rename`).
-/

namespace GraphQuery

variable {r : Renaming} {ms : List Mention}

/-! ## Expressions

Renaming changes variables and parameters and nothing that layout looks at: precedences and
brackets stay, and so do keys and names of functions. -/

namespace Expr

/-- An expression over other identities. -/
def rename (r : Renaming) : Expr → Expr
  | .var v => .var (r.var v)
  | .property v key => .property (r.var v) key
  | .param p => .param (r.param p)
  | .literal value => .literal value
  | .list items => .list (items.map (rename r))
  | .map entries => .map (entries.map fun e => (e.1, e.2.rename r))
  | .compare op left right => .compare op (left.rename r) (right.rename r)
  | .isNull operand negated => .isNull (operand.rename r) negated
  | .arith op left right => .arith op (left.rename r) (right.rename r)
  | .group op operands => .group op (operands.map (rename r))
  | .not operand => .not (operand.rename r)
  | .call name distinct args => .call name distinct (args.map (rename r))
decreasing_by
  all_goals simp_wf
  all_goals first
    | omega
    | (have hmem := List.sizeOf_lt_of_mem ‹_›; omega)
    | (have hmem := sizeOf_value_lt_of_mem ‹_›; omega)

@[simp] theorem precedence_rename (e : Expr) : (e.rename r).precedence = e.precedence := by
  cases e <;> rw [rename] <;> rfl

@[simp] theorem needsParensInComparison_rename (e : Expr) :
    (e.rename r).needsParensInComparison = e.needsParensInComparison := by
  rw [needsParensInComparison, precedence_rename, needsParensInComparison]

@[simp] theorem needsParensInGroup_rename (op : Connective) (e : Expr) :
    (e.rename r).needsParensInGroup op = e.needsParensInGroup op := by
  cases e <;> rw [rename] <;> rfl

/-- The draft of an expression over other identities is its draft with the other identities. -/
theorem draft_rename (e : Expr) : (e.rename r).draft = e.draft.rename r := by
  induction e with
  | var v | property v key | param p => simp [rename, draft]
  | literal value =>
      rw [rename, draft, Draft.rename_of_mentions_eq_nil value.mentions_draft]
  | list items ih =>
      rw [rename, draft, draft, draftItems_eq_map, draftItems_eq_map, Draft.rename_brackets,
        Draft.rename_commas, Draft.map_rename_map ih]
  | map entries ih =>
      rw [rename, draft, draft, draftEntries_eq_map, draftEntries_eq_map, Draft.rename_braces,
        Draft.rename_commas, Draft.map_rename_map]
      intro e he
      rw [Draft.rename_entry, ih e he]
  | compare op left right ihl ihr =>
      simp [rename, draft, Draft.rename_binary op.mentions_draft, ihl, ihr]
  | isNull operand negated ih => simp [rename, draft, ih]
  | arith op left right ihl ihr =>
      simp [rename, draft, Draft.rename_binary op.mentions_draft, ihl, ihr]
  | group op operands ih =>
      rw [rename, draft, draft, draftOperands_eq_map, draftOperands_eq_map,
        Draft.rename_intercalate rfl, Draft.map_rename_map]
      intro e he
      rw [Draft.rename_parensIf, needsParensInGroup_rename, ih e he]
  | not operand ih => simp [rename, draft, ih]
  | call name distinct args ih =>
      have hargs : Draft.commas (draftItems (args.map (rename r))) =
          Draft.rename r (Draft.commas (draftItems args)) := by
        rw [draftItems_eq_map, draftItems_eq_map, Draft.rename_commas, Draft.map_rename_map ih]
      rw [rename, draft, draft, hargs]
      cases distinct <;> simp

/-- A variable that is told apart from another one is still told apart from it under other
identities, and a variable that is the other one still is. -/
theorem equal_var_rename {e : Expr} {v : Variable}
    (h : ∀ w, e = .var w → r.var w = r.var v → w = v) :
    (e.rename r).equal (.var (r.var v)) = e.equal (.var v) := by
  cases e with
  | var w =>
      rw [rename, equal, equal]
      by_cases hw : w = v
      · simp [hw]
      · simp [hw, mt (h w rfl) hw]
  | _ => rw [rename, equal, equal] <;> simp

end Expr

/-! ## Patterns

The number of a node or a relationship is that of the variable that it is, so it is renamed as
the variable is. -/

def Properties.rename (r : Renaming) (ps : Properties) : Properties :=
  ps.map fun e => (e.1, e.2.rename r)

theorem Properties.draft_rename (ps : Properties) :
    Properties.draft (ps.rename r) = ps.draft.rename r := by
  unfold draft rename
  by_cases hps : ps.isEmpty = true
  · simp [hps]
  · have hentries : (Expr.draftEntries .propertyKey ps).map (Draft.rename r) =
        Expr.draftEntries .propertyKey (ps.map fun e => (e.1, e.2.rename r)) := by
      rw [Expr.draftEntries_eq_map, Expr.draftEntries_eq_map, Draft.map_rename_map]
      intro e _
      rw [Draft.rename_entry, e.2.draft_rename]
    simp [hps, hentries]

def Node.rename (r : Renaming) (x : Node) : Node :=
  ⟨r.varId x.toVar, x.name?, x.labels, Properties.rename r x.properties⟩

theorem Node.draft_rename (x : Node) : (x.rename r).draft = x.draft.rename r := by
  have hlabels : Draft.rename r (x.labels.flatMap fun l =>
      [Draft.mark ":", Draft.name .label l]) =
        x.labels.flatMap fun l => [Draft.mark ":", Draft.name .label l] := by
    refine Draft.rename_of_mentions_eq_nil ?_
    induction x.labels with
    | nil => rfl
    | cons l ls ih => simp [ih]
  rw [draft, draft, Draft.rename_parens, Draft.rename_append, Draft.rename_cons, hlabels,
    ← Properties.draft_rename]
  rfl

def Relationship.rename (r : Renaming) (x : Relationship) : Relationship :=
  ⟨r.varId x.toVar, x.name?, x.type?, Properties.rename r x.properties, x.hops?⟩

theorem Relationship.draft_rename (x : Relationship) : (x.rename r).draft = x.draft.rename r := by
  have htype : Draft.rename r (x.type?.elim [] typeDraft) = x.type?.elim [] typeDraft := by
    cases x.type? <;> simp [typeDraft]
  have hhops : Draft.rename r (x.hops?.elim [] fun hops => hops.lexemes.map .lexeme) =
      x.hops?.elim [] fun hops => hops.lexemes.map .lexeme := by
    cases x.hops? with
    | none => rfl
    | some hops => simp [Draft.rename, Piece.rename]
  rw [draft_eq, draft_eq, Draft.rename_brackets, Draft.rename_cons, Draft.rename_append,
    Draft.rename_append, htype, hhops, ← Properties.draft_rename]
  rfl

def Segment.rename (r : Renaming) (s : Segment) : Segment :=
  ⟨s.relationship.rename r, s.direction, s.node.rename r⟩

theorem Segment.draft_rename (s : Segment) : (s.rename r).draft = s.draft.rename r := by
  rw [draft, draft, Draft.rename_cons, Draft.rename_append, Draft.rename_cons,
    ← s.relationship.draft_rename, ← s.node.draft_rename]
  rfl

def Pattern.rename (r : Renaming) (p : Pattern) : Pattern :=
  ⟨p.start.rename r, p.segments.map (Segment.rename r)⟩

theorem Pattern.draft_rename (p : Pattern) : (p.rename r).draft = p.draft.rename r := by
  have hsegments : Draft.rename r (p.segments.flatMap Segment.draft) =
      (p.segments.map (Segment.rename r)).flatMap Segment.draft := by
    rw [List.flatMap_map]
    induction p.segments with
    | nil => rfl
    | cons s ss ih =>
        rw [List.flatMap_cons, Draft.rename_append, ih, ← s.draft_rename, List.flatMap_cons]
  rw [draft, draft, Draft.rename_append, hsegments, ← p.start.draft_rename]
  rfl

/-! ## Clauses

The hypothesis that mentions are kept apart is needed for drafts here, and nowhere before: an
alias is left out if it is the projected variable itself, and two variables must not become one. -/

def OneOrMore.map {α β : Type} (f : α → β) (xs : OneOrMore α) : OneOrMore β :=
  ⟨f xs.head, xs.tail.map f⟩

@[simp] theorem OneOrMore.toList_map {α β : Type} (f : α → β) (xs : OneOrMore α) :
    (xs.map f).toList = xs.toList.map f := rfl

def Item.rename (r : Renaming) (i : Item) : Item := ⟨i.expr.rename r, i.alias?.map r.plain⟩

/-- The alias that is written stays the one that is written. -/
theorem Item.shownAlias?_rename {i : Item} (hr : r.Separates ms) (hi : i.mentions ⊆ ms) :
    (i.rename r).shownAlias? = i.shownAlias?.map r.plain := by
  obtain ⟨e, _ | a⟩ := i
  · rfl
  · have hsame : (e.rename r).equal (.var (r.plain a).toVar) = e.equal (.var a.toVar) := by
      refine Expr.equal_var_rename fun w hw heq => ?_
      subst hw
      by_contra hne
      -- as the alias is another variable it is written, so that both are mentioned
      have hmentions : Item.mentions ⟨.var w, some a⟩ = [.var w, .var a.toVar] := by
        simp [Item.mentions, Expr.mentions, Item.shownAlias?, Expr.equal, hne]
      rw [hmentions] at hi
      exact hne (hr.vars (hi (by simp)) (hi (by simp)) heq)
    simp only [rename, shownAlias?, Option.map_some, Option.filter_some, hsame]
    split <;> rfl

theorem Item.draft_rename {i : Item} (hr : r.Separates ms) (hi : i.mentions ⊆ ms) :
    (i.rename r).draft = i.draft.rename r := by
  rw [draft_eq, draft_eq, shownAlias?_rename hr hi, Draft.rename_append, ← i.expr.draft_rename]
  cases i.shownAlias? <;> rfl

def Projection.rename (r : Renaming) (p : Projection) : Projection :=
  ⟨p.distinct, p.items.map (Item.rename r)⟩

theorem Projection.draft_rename {p : Projection} (hr : r.Separates ms) (hp : p.mentions ⊆ ms) :
    (p.rename r).draft = p.draft.rename r := by
  have hitems : ∀ i ∈ p.items.toList, (i.rename r).draft = i.draft.rename r := fun i hi =>
    Item.draft_rename hr fun _ hm => hp (List.mem_flatMap.mpr ⟨i, hi, hm⟩)
  rw [draft, draft, Draft.rename_append, Draft.rename_commas, Draft.map_rename_map hitems]
  obtain ⟨_ | _, items⟩ := p <;> rfl

def SortItem.rename (r : Renaming) (i : SortItem) : SortItem := ⟨i.expr.rename r, i.descending⟩

theorem SortItem.draft_rename (i : SortItem) : (i.rename r).draft = i.draft.rename r := by
  rw [draft, draft, Draft.rename_append, ← i.expr.draft_rename]
  obtain ⟨e, _ | _⟩ := i <;> rfl

def Assignment.rename (r : Renaming) (a : Assignment) : Assignment :=
  ⟨r.var a.target, a.key, a.value.rename r⟩

theorem Assignment.draft_rename (a : Assignment) : (a.rename r).draft = a.draft.rename r := by
  simp [draft, rename, a.value.draft_rename]

/-- A clause over other identities. -/
def Clause.rename (r : Renaming) : Clause → Clause
  | .matching optional patterns => .matching optional (patterns.map (Pattern.rename r))
  | .filter condition => .filter (condition.rename r)
  | .projecting projection => .projecting (projection.rename r)
  | .returning projection => .returning (projection.rename r)
  | .orderBy items => .orderBy (items.map (SortItem.rename r))
  | .skip count => .skip (count.rename r)
  | .limit count => .limit (count.rename r)
  | .unwind source target => .unwind (source.rename r) (r.plain target)
  | .create patterns => .create (patterns.map (Pattern.rename r))
  | .merge pattern => .merge (pattern.rename r)
  | .set assignments => .set (assignments.map (Assignment.rename r))
  | .delete detach targets => .delete detach (targets.map r.var)

@[simp] theorem Clause.keyword_rename (c : Clause) : (c.rename r).keyword = c.keyword := by
  cases c <;> rfl

theorem Clause.body_rename {c : Clause} (hr : r.Separates ms) (hc : c.mentions ⊆ ms) :
    (c.rename r).body = c.body.rename r := by
  cases c with
  | matching optional patterns | create patterns =>
      rw [rename, body, body, OneOrMore.toList_map, Draft.rename_commas,
        Draft.map_rename_map fun p _ => p.draft_rename]
  | filter e | skip e | limit e => exact e.draft_rename
  | projecting projection | returning projection => exact Projection.draft_rename hr hc
  | orderBy items =>
      rw [rename, body, body, OneOrMore.toList_map, Draft.rename_commas,
        Draft.map_rename_map fun i _ => i.draft_rename]
  | unwind source target =>
      rw [rename, body, body, Draft.rename_append, source.draft_rename]
      rfl
  | merge pattern => exact pattern.draft_rename
  | set assignments =>
      rw [rename, body, body, OneOrMore.toList_map, Draft.rename_commas,
        Draft.map_rename_map fun a _ => a.draft_rename]
  | delete detach targets =>
      rw [rename, body, body, OneOrMore.toList_map, Draft.rename_commas,
        Draft.map_rename_map (g := r.var) fun v _ => rfl]

theorem Clause.draft_rename {c : Clause} (hr : r.Separates ms) (hc : c.mentions ⊆ ms) :
    (c.rename r).draft = c.draft.rename r := by
  rw [draft, draft, keyword_rename, body_rename hr hc]
  simp

/-! ## Statements

A draft over other identities is filled in as the draft is, so the theorem is an instance of
`Scope.fill_rename` once the drafts are known to correspond. -/

namespace Statement

variable {st : Statement}

def rename (r : Renaming) (st : Statement) : Statement := ⟨st.clauses.map (Clause.rename r)⟩

theorem draft_rename (hr : r.Separates st.mentions) (separator : Char) :
    (st.rename r).draft separator = (st.draft separator).rename r := by
  rw [draft, draft, rename, Draft.rename_intercalate rfl, Draft.map_rename_map]
  exact fun c hc => Clause.draft_rename hr fun _ hm => List.mem_flatMap.mpr ⟨c, hc, hm⟩

/-- **No text depends on identities or values.** Let a statement be given other identities for its
variables and parameters, such that those which it mentions stay different, and other values for its
parameters. It is then rendered as before: the text or the fault is the same, the names of the
variables and those of the parameters are the same in the same order, and so are the generated names
that were passed over. -/
theorem render_rename (settings : Settings) (hr : r.Separates st.mentions) :
    ((st.rename r).render (Scope.new settings)).1 = (st.render (Scope.new settings)).1 ∧
      ((st.rename r).render (Scope.new settings)).2.vars.names =
        (st.render (Scope.new settings)).2.vars.names ∧
      ((st.rename r).render (Scope.new settings)).2.params.names =
        (st.render (Scope.new settings)).2.params.names ∧
      ((st.rename r).render (Scope.new settings)).2.passedOver =
        (st.render (Scope.new settings)).2.passedOver := by
  have hrender : (st.rename r).render (Scope.new settings) =
      ((st.render (Scope.new settings)).1, (st.render (Scope.new settings)).2.rename r) := by
    unfold render
    rw [draft_rename hr, ← Scope.rename_new (r := r)]
    refine Scope.rename_render hr (Scope.ownedBy_new settings _) ?_
    rw [mentions_draft]
    exact List.Subset.refl _
  rw [hrender]
  exact ⟨rfl, NameTable.names_map .., NameTable.names_map .., rfl⟩

/-- The numbers of variables and parameters counted down from ten, and no value for a parameter. -/
def countdown : Renaming := ⟨fun v => 10 - v.id, fun p => 10 - p.id, fun _ => .null⟩

theorem render_rename_countdown :
    countdown.Separates acquaintances.mentions ∧
      ∃ text, ((acquaintances.rename countdown).render (Scope.new .standard)).1 = .ok text ∧
        (acquaintances.render (Scope.new .standard)).1 = .ok text := by
  have hseparates : countdown.Separates acquaintances.mentions := by
    have hall : ∀ m ∈ acquaintances.mentions, ∀ m' ∈ acquaintances.mentions,
        countdown.mention m = countdown.mention m' → m = m' := by
      rw [← mentions_draft '\n']
      decide
    exact fun m hm m' hm' => hall m hm m' hm'
  have hrender : ∃ text, (acquaintances.render (Scope.new .standard)).1 = .ok text := ⟨_, rfl⟩
  obtain ⟨text, h⟩ := hrender
  exact ⟨hseparates, text, (render_rename .standard hseparates).1.trans h, h⟩

end Statement

end GraphQuery
