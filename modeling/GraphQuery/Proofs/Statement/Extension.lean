import GraphQuery.Proofs.Print.Fault
import GraphQuery.Proofs.Statement.Calls

set_option autoImplicit false

/-! # What a call leaves of a statement

A call adds a clause, or it joins something to the last clause, or it puts a number of rows in the
place of another one. Except in the last case the statement after the call mentions first what was
mentioned before it, and every fault is still there (`Statement.call_continues`).
-/

namespace GraphQuery

/-! ## Expressions

An operand that is added comes last, in a group that is there or in a new one around it. -/

namespace Expr

/-- A further operand of a group comes behind what was there, in the group or beside it. -/
theorem mentions_extend (op : Connective) (e operand : Expr) :
    (e.extend op operand).mentions = e.mentions ++ operand.mentions := by
  have hpair : (Expr.group op [e, operand]).mentions = e.mentions ++ operand.mentions := by
    simp [mentions]
  cases e with
  | group op' operands =>
      simp only [extend]
      split
      · simp [mentions]
      · exact hpair
  | _ => exact hpair

end Expr

/-! ## Clauses

The two ways in which a clause is extended have this in common: the mentions before the extension
stay the first ones, and no fault is lost. -/

/-- A clause with more in it at the end: a condition with one more operand, or more items to sort
by. -/
inductive Clause.Extended : Clause → Clause → Prop
  | filter (op : Connective) (e operand : Expr) :
      Extended (.filter e) (.filter (e.extend op operand))
  | orderBy (items items' : OneOrMore SortItem) :
      Extended (.orderBy items) (.orderBy (items.append items'))

namespace Clause.Extended

variable {c c' : Clause} {P : RenderError → Prop}

theorem prefix_mentions (h : Extended c c') : c.mentions <+: c'.mentions := by
  cases h with
  | filter op e operand => exact ⟨_, (e.mentions_extend op operand).symm⟩
  | orderBy items items' =>
      rw [mentions, mentions, OneOrMore.toList_append, List.flatMap_append]
      exact List.prefix_append ..

theorem eachFault (h : Extended c c') (hfault : Draft.EachFault P c'.draft) :
    Draft.EachFault P c.draft := by
  rw [draft, Draft.eachFault_append, Draft.eachFault_cons] at hfault ⊢
  refine ⟨by simp, trivial, ?_⟩
  have hbody := c'.eachFault_body.mp hfault.2.2
  rw [eachFault_body]
  cases h with
  | filter op e operand =>
      simp only [exprs, FaultsIn.exprs_iff, List.forall_mem_singleton, schemaNames] at hbody ⊢
      exact ((Expr.every_extend_iff (fun _ _ => trivial) op e operand).mp hbody).1
  | orderBy items items' =>
      simp only [exprs, FaultsIn.exprs_iff, schemaNames, OneOrMore.toList_append,
        List.map_append, List.forall_mem_append] at hbody ⊢
      exact hbody.1

end Clause.Extended

/-! ## Statements

The steps are the cases of a call. That a step continues the statement is shown for an added
clause and for an extended one; a number of rows that takes the place of another one need not
continue it. -/

namespace Statement

variable {s s' : Statement} {c : Call}

/-- The last clause of a statement is `SKIP` or `LIMIT`, and another clause is in its place. -/
def Recounted (s s' : Statement) : Prop :=
  ∃ last clause, s.last? = some last ∧ (last.keyword = .skip ∨ last.keyword = .limit) ∧
    s' = s.replaceLast clause

/-- What a call can make of a statement: it has one more clause, or the last clause is extended, or
it is a number of rows and another one is in its place. -/
inductive Step (s : Statement) : Statement → Prop
  | added (clause : Clause) : Step s (s.add clause)
  | extended (last clause : Clause) (hlast : s.last? = some last)
      (h : last.Extended clause) : Step s (s.replaceLast clause)
  | recounted (s' : Statement) (h : s.Recounted s') : Step s s'

/-- A clause that is joined to one of its kind extends it or is put in its place. -/
theorem step_joined {last clause joined : Clause} (hlast : s.last? = some last)
    (h : last.joined? clause = some joined) : s.Step (s.replaceLast joined) := by
  unfold Clause.joined? at h
  split at h
  next e e' =>
      obtain rfl := Option.some.inj h
      exact .extended _ _ hlast (.filter .and e e')
  next items items' =>
      obtain rfl := Option.some.inj h
      exact .extended _ _ hlast (.orderBy items items')
  next => exact .recounted _ ⟨_, _, hlast, Or.inl rfl, rfl⟩
  next => exact .recounted _ ⟨_, _, hlast, Or.inr rfl, rfl⟩
  next => simp at h

theorem step_push {clause : Clause} (h : s.push clause = .ok s') : s.Step s' := by
  rw [push_eq] at h
  split at h
  · simp at h
  split at h
  next joined hjoined =>
      obtain rfl := Except.ok.inj h
      obtain ⟨last, hlast, hjoined⟩ := Option.bind_eq_some_iff.mp hjoined
      exact step_joined hlast hjoined
  · split at h
    · obtain rfl := Except.ok.inj h
      exact .added clause
    · simp at h

/-- A condition that is joined by OR extends the one before it. -/
theorem step_whereAny {condition : Expr} (h : s.whereAny condition = .ok s') : s.Step s' := by
  unfold whereAny at h
  split at h
  next e hlast =>
      obtain rfl := Except.ok.inj h
      exact .extended _ _ hlast (.filter .or e condition)
  · exact step_push h

/-- **What a call does** is one of these steps. -/
theorem step_call (h : s.call c = .ok s') : s.Step s' := by
  cases c with
  | whereAny condition => exact step_whereAny h
  | delete detach targets =>
      simp only [call] at h
      cases htargets : Clause.deleteOf detach targets with
      | error e => simp [htargets, Except.bind] at h
      | ok clause => exact step_push (by simpa [htargets, Except.bind] using h)
  | _ => exact step_push h

/-- The second statement mentions first what the first one mentions, and is without faults only if
the first one is. -/
structure Continues (s s' : Statement) : Prop where
  mentions : s.mentions <+: s'.mentions
  sound : ∀ separator, Draft.Sound (s'.draft separator) → Draft.Sound (s.draft separator)

theorem sound_draft_iff_forall {separator : Char} :
    Draft.Sound (s.draft separator) ↔ ∀ c ∈ s.clauses, Draft.Sound c.draft := by
  have hseparator : Draft.EachFault (fun _ => False) [.lexeme (.gap separator)] := by simp
  simp only [Draft.sound_iff, draft, Draft.eachFault_intercalate hseparator, List.forall_mem_map]

theorem continues_add (s : Statement) (clause : Clause) : s.Continues (s.add clause) where
  mentions := ⟨clause.mentions, by simp [mentions, add]⟩
  sound separator h := by
    rw [sound_draft_iff_forall] at h ⊢
    exact fun c hc => h c (List.mem_append_left _ hc)

theorem continues_extended {last clause : Clause} (hlast : s.last? = some last)
    (h : last.Extended clause) : s.Continues (s.replaceLast clause) := by
  obtain ⟨front, hfront⟩ := List.getLast?_eq_some_iff.mp hlast
  have hclauses : (s.replaceLast clause).clauses = front ++ [clause] := by
    simp [replaceLast, hfront]
  constructor
  · rw [mentions, mentions, hfront, hclauses, List.flatMap_append, List.flatMap_append,
      List.flatMap_singleton, List.flatMap_singleton, List.prefix_append_right_inj]
    exact h.prefix_mentions
  · intro separator hsound
    rw [sound_draft_iff_forall, hclauses, List.forall_mem_append, List.forall_mem_singleton]
      at hsound
    rw [sound_draft_iff_forall, hfront, List.forall_mem_append, List.forall_mem_singleton]
    exact ⟨hsound.1, Draft.sound_iff.mpr (h.eachFault (Draft.sound_iff.mp hsound.2))⟩

/-- **A call continues a statement** unless it puts a number of rows in the place of another one. -/
theorem call_continues (h : s.call c = .ok s') (hcount : ¬s.Recounted s') : s.Continues s' := by
  cases step_call h with
  | added clause => exact continues_add s clause
  | extended last clause hlast hextended => exact continues_extended hlast hextended
  | recounted _ hrecounted => exact absurd hrecounted hcount

end Statement

end GraphQuery
