import GraphQuery.Proofs.Token.ClauseWord
import GraphQuery.Proofs.Token.Statement

set_option autoImplicit false

/-! # The clause words of statements

The tokens of a statement show the words of its keywords, and besides them only what the names of
functions begin with that it calls outside all brackets: no variable, parameter, label, type, key or
string shows a word (`Statement.exposes`).
-/

namespace GraphQuery

open Token (Hides Exposes neutral_mark)

/-! ## Values and expressions

The tokens of an operator or a literal show nothing. An operand in brackets is hidden with all
that it calls, so the calls that are collected depend on where the printer writes brackets. -/

theorem Value.exposes (v : Value) : Exposes v.tokens [] := by
  induction v with
  | null => rw [tokens]; exact Exposes.words ["NULL"] (by decide)
  | boolean b =>
      rw [tokens]
      exact Exposes.words [if b then "true" else "false"] (by cases b <;> decide)
  | integer n | float x | string s =>
      rw [tokens]
      exact Exposes.nil.cons ⟨rfl, rfl, rfl⟩
  | list items ih =>
      rw [tokens]
      exact Exposes.brackets (Exposes.commas_nil ih).hides
  | map entries ih =>
      rw [tokens]
      exact Exposes.braces (Hides.commas fun e he => (ih e he).hides.entry e.1)
  | bytes data =>
      rw [tokens]
      exact Exposes.nil

theorem Comparison.exposes (op : Comparison) : Exposes op.tokens [] := by
  cases op with
  | contains | member => exact Exposes.words _ (by decide)
  | startsWith | endsWith => exact Exposes.affixed (by decide)
  | equal | notEqual | less | greater | lessOrEqual | greaterOrEqual | regex =>
      exact Exposes.nil.cons (neutral_mark (by decide))

theorem Arithmetic.exposes (op : Arithmetic) : Exposes [.mark op.mark] [] := by
  cases op <;> exact Exposes.nil.cons (neutral_mark (by decide))

namespace Expr

/-- The names of the functions that an expression calls outside all brackets, those around operands
among them. -/
def openCalls : Expr → List String
  | .var _ | .property _ _ | .param _ | .literal _ | .list _ | .map _ => []
  | .compare _ left right =>
      (if left.needsParensInComparison then [] else left.openCalls) ++
        if right.needsParensInComparison then [] else right.openCalls
  | .isNull operand _ => if operand.needsParensInComparison then [] else operand.openCalls
  | .arith op left right =>
      (if left.precedence < op.precedence then [] else left.openCalls) ++
        if right.precedence ≤ op.precedence then [] else right.openCalls
  | .group op operands =>
      operands.flatMap fun e => if e.needsParensInGroup op then [] else e.openCalls
  | .not operand => if operand.precedence < .not then [] else operand.openCalls
  | .call name _ _ => [name]
decreasing_by
  all_goals simp_wf
  all_goals first
    | omega
    | (have hmem := List.sizeOf_lt_of_mem ‹_›; omega)

/-- An operand that may stand between brackets. -/
theorem exposes_operand {ts : List Token} {calls : List String} (needed : Bool)
    (h : Exposes ts (calls.flatMap Name.clauseWords)) :
    Exposes (Token.parensIf needed ts)
      ((if needed then [] else calls).flatMap Name.clauseWords) := by
  cases needed with
  | false => exact h
  | true => exact Exposes.parens h.hides

/-- An expression shows what the names of the functions show that it calls outside all
brackets. -/
theorem exposes (n : Names) (e : Expr) :
    Exposes (e.tokens n) (e.openCalls.flatMap Name.clauseWords) := by
  induction e with
  | var v =>
      rw [tokens, openCalls]
      exact Exposes.binding _
  | property v key =>
      rw [tokens, openCalls]
      exact (Exposes.binding _).member key
  | param p =>
      rw [tokens, openCalls]
      exact (Exposes.binding _).cons (neutral_mark (by decide))
  | literal value =>
      rw [tokens, openCalls]
      exact value.exposes
  | list items ih =>
      rw [tokens, openCalls]
      -- between brackets the items show nothing, whatever they call
      exact Exposes.brackets (Hides.commas fun e he => (ih e he).hides)
  | map entries ih =>
      rw [tokens, openCalls]
      exact Exposes.braces (Hides.commas fun e he => (ih e he).hides.entry e.1)
  | compare op left right ihl ihr =>
      rw [tokens, openCalls, List.flatMap_append]
      exact (exposes_operand _ ihl).binary op.exposes (exposes_operand _ ihr)
  | isNull operand negated ih =>
      have hwords : Exposes (Token.words (if negated then ["IS", "NOT", "NULL"]
          else ["IS", "NULL"])) [] := Exposes.words _ (by cases negated <;> decide)
      have hwhole := (exposes_operand operand.needsParensInComparison ih).append hwords
      rw [tokens, openCalls]
      rwa [List.append_nil] at hwhole
  | arith op left right ihl ihr =>
      rw [tokens, openCalls, List.flatMap_append]
      have hleft := exposes_operand (left.precedence < op.precedence) ihl
      have hright := exposes_operand (right.precedence ≤ op.precedence) ihr
      simp only [decide_eq_true_eq] at hleft hright
      exact hleft.binary op.exposes hright
  | group op operands ih =>
      have hsep : Exposes [Token.keyword op.text] [] :=
        Exposes.words [op.text] (by cases op <;> decide)
      rw [tokens, openCalls, List.flatMap_assoc]
      exact Exposes.additive.intercalate hsep fun e he => exposes_operand _ (ih e he)
  | not operand ih =>
      have hnot : Exposes [Token.keyword "NOT"] [] := Exposes.words ["NOT"] (by decide)
      have hoperand := exposes_operand (operand.precedence < .not) ih
      simp only [decide_eq_true_eq] at hoperand
      rw [tokens, openCalls]
      exact hnot.append hoperand
  | call name distinct args ih =>
      rw [tokens, openCalls, List.flatMap_singleton]
      have hdistinct := (Exposes.optional "DISTINCT" (by decide) distinct).hides
      exact Exposes.call name
        (hdistinct.append (Hides.commas fun e he => (ih e he).hides))

end Expr

/-! ## Patterns

The nodes and relationships of a pattern stand in brackets, and between them are only marks. -/

theorem Properties.exposes (n : Names) (ps : Properties) : Exposes (ps.tokens n) [] := by
  unfold tokens
  split
  · exact Exposes.nil
  · exact Exposes.braces (Hides.commas fun e _ => (e.2.exposes n).hides.entry e.1)

theorem Node.exposes (n : Names) (x : Node) : Exposes (x.tokens n) [] := by
  have hlabels : Hides (x.labels.flatMap fun l => [.mark .colon, .ofName l]) := by
    refine Hides.plain fun t ht => ?_
    obtain ⟨l, -, ht⟩ := List.mem_flatMap.mp ht
    rcases List.mem_pair.mp ht with rfl | rfl <;> rfl
  have hbody := hlabels.append (Properties.exposes n x.properties).hides
  exact Exposes.parens (hbody.cons rfl)

theorem Hops.hides (h : Hops) : Hides h.tokens := by
  unfold tokens
  refine Hides.plain ?_
  split
  · decide
  · split <;> simp [count, Token.isBracket, Mark.opens, Mark.closes]
  · simp [count, Token.isBracket, Mark.opens, Mark.closes]
  · simp [count, Token.isBracket, Mark.opens, Mark.closes]

theorem Relationship.exposes (n : Names) (r : Relationship) : Exposes (r.tokens n) [] := by
  have htype : Hides (r.type?.elim [] fun type => [.mark .colon, .ofName type]) := by
    cases r.type? with
    | none => exact Hides.nil
    | some type => exact (Hides.nil.cons rfl).cons rfl
  have hhops : Hides (r.hops?.elim [] Hops.tokens) := by
    cases r.hops? with
    | none => exact Hides.nil
    | some hops => exact hops.hides
  have hbody := htype.append (hhops.append (Properties.exposes n r.properties).hides)
  exact Exposes.brackets (hbody.cons rfl)

theorem Segment.exposes (n : Names) (s : Segment) : Exposes (s.tokens n) [] := by
  have hafter := (s.node.exposes n).cons (neutral_mark (m := s.direction.markAfter)
    (by cases s.direction <;> decide))
  exact ((s.relationship.exposes n).append hafter).cons
    (neutral_mark (by cases s.direction <;> decide))

theorem Pattern.exposes (n : Names) (p : Pattern) : Exposes (p.tokens n) [] := by
  have hsegments := Exposes.additive.flatMap (g := fun _ => [])
    fun (s : Segment) (_ : s ∈ p.segments) => s.exposes n
  rw [List.flatMap_eq_nil_iff.mpr fun _ _ => rfl] at hsegments
  exact (p.start.exposes n).append hsegments

/-! ## Clauses and statements

A clause shows its keyword and what its expressions show that stand outside all brackets.
Patterns show nothing, so only items, conditions, sort items, numbers of rows and assigned values
are left. -/

theorem Alias.exposes (n : Names) (a : Alias) : Exposes (a.tokens n) [] :=
  (Exposes.words ["AS"] (by decide)).append (Exposes.binding _)

theorem Item.exposes (n : Names) (i : Item) :
    Exposes (i.tokens n) (i.expr.openCalls.flatMap Name.clauseWords) := by
  have halias : Exposes (i.shownAlias?.elim [] (Alias.tokens n)) [] := by
    cases i.shownAlias? with
    | none => exact Exposes.nil
    | some a => exact a.exposes n
  have hwhole := (i.expr.exposes n).append halias
  rwa [List.append_nil] at hwhole

theorem Projection.exposes (n : Names) (p : Projection) :
    Exposes (p.tokens n)
      ((p.items.toList.map Item.expr).flatMap fun e => e.openCalls.flatMap Name.clauseWords) := by
  have hitems := Exposes.commas fun (i : Item) (_ : i ∈ p.items.toList) => i.exposes n
  rw [List.flatMap_map]
  exact (Exposes.optional "DISTINCT" (by decide) p.distinct).append hitems

theorem SortItem.exposes (n : Names) (i : SortItem) :
    Exposes (i.tokens n) (i.expr.openCalls.flatMap Name.clauseWords) := by
  have hwhole := (i.expr.exposes n).append (Exposes.optional "DESC" (by decide) i.descending)
  rwa [List.append_nil] at hwhole

theorem Assignment.exposes (n : Names) (a : Assignment) :
    Exposes (a.tokens n) (a.value.openCalls.flatMap Name.clauseWords) := by
  have htarget := (Exposes.binding (n.var a.target)).member a.key
  exact htarget.append ((a.value.exposes n).cons (neutral_mark (by decide)))

namespace Clause

/-- The expressions of a clause that stand outside all brackets. -/
def openExprs : Clause → List Expr
  | .matching _ _ | .create _ | .merge _ | .delete _ _ => []
  | .filter e | .skip e | .limit e => [e]
  | .projecting projection | .returning projection => projection.items.toList.map Item.expr
  | .orderBy items => items.toList.map SortItem.expr
  | .unwind source _ => [source]
  | .set assignments => assignments.toList.map Assignment.value

/-- The names of the functions that a clause calls outside all brackets. -/
def openCalls (c : Clause) : List String := c.openExprs.flatMap Expr.openCalls

theorem exposes_body (n : Names) (c : Clause) :
    Exposes (c.bodyTokens n) (c.openCalls.flatMap Name.clauseWords) := by
  rw [openCalls, List.flatMap_assoc]
  cases c with
  | matching optional patterns | create patterns => exact Exposes.commas_nil fun p _ => p.exposes n
  | filter e | skip e | limit e =>
      rw [openExprs, List.flatMap_singleton]
      exact e.exposes n
  | projecting projection | returning projection => exact projection.exposes n
  | orderBy items =>
      rw [openExprs, List.flatMap_map]
      exact Exposes.commas fun i _ => i.exposes n
  | unwind source target =>
      have hwhole := (source.exposes n).append (target.exposes n)
      rw [openExprs, List.flatMap_singleton]
      rwa [List.append_nil] at hwhole
  | merge pattern => exact pattern.exposes n
  | set assignments =>
      rw [openExprs, List.flatMap_map]
      exact Exposes.commas fun a _ => a.exposes n
  | delete detach targets => exact Exposes.commas_nil fun v _ => Exposes.binding _

end Clause

def Keyword.clauseWords (k : Keyword) : List String :=
  (k.words.filter Name.isClauseWord).map Name.smallLetters

theorem Keyword.exposes (k : Keyword) : Exposes (Token.words k.words) k.clauseWords :=
  Exposes.keywords (by cases k <;> decide)

theorem Clause.exposes (n : Names) (c : Clause) :
    Exposes (c.tokens n) (c.keyword.clauseWords ++ c.openCalls.flatMap Name.clauseWords) :=
  c.keyword.exposes.append (c.exposes_body n)

def Statement.openCalls (st : Statement) : List String := st.clauses.flatMap Clause.openCalls

/-- **The clause words of a statement**: those of its keywords, and behind each of them those that
the names of functions begin with that the clause calls outside all brackets. -/
theorem Statement.exposes (n : Names) (st : Statement) :
    Exposes (st.tokens n) (st.clauses.flatMap fun c =>
      c.keyword.clauseWords ++ c.openCalls.flatMap Name.clauseWords) :=
  Exposes.additive.flatMap fun c _ => c.exposes n

end GraphQuery
