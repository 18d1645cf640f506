import GraphQuery.Proofs.Statement.Push

set_option autoImplicit false

/-! # Sequences of calls

A statement is made by calls one after the other, each of which adds a clause or joins one to the
last clause; a call that fails leaves the statement as it was. `Statement.Call` is such a call and
`Statement.made` the statement that calls make. The main result of this module is that calls make
exactly the statements whose keywords are in the order of `ClauseOrder.statement`
(`Statement.keywords_made`).
-/

namespace GraphQuery.Statement

/-! ## Calls

There is a call for each function that extends a statement, and `push` stands for any clause. A
call that fails is part of a sequence too: it leaves the statement as it was, and the sequence
goes on. -/

/-- A call that extends a statement: any clause is pushed, or one that is made from its parts. A
condition joins the one before it by AND or by OR. -/
inductive Call where
  | push (c : Clause)
  | matching (p : Pattern)
  | optionalMatching (p : Pattern)
  | whereAll (condition : Expr)
  | whereAny (condition : Expr)
  | projecting (p : Projection)
  | returning (p : Projection)
  | orderBy (items : OneOrMore SortItem)
  | skip (count : UInt32)
  | skipParam (count : Param)
  | limit (count : UInt32)
  | limitParam (count : Param)
  | unwind (source : Expr) (target : Alias)
  | create (p : Pattern)
  | merge (p : Pattern)
  | set (assignments : OneOrMore Assignment)
  | delete (detach : Bool) (targets : List Variable)

/-- What a call makes of a statement. -/
def call (s : Statement) : Call → Except ClauseError Statement
  | .push c => s.push c
  | .matching p => s.matching p
  | .optionalMatching p => s.optionalMatching p
  | .whereAll condition => s.whereAll condition
  | .whereAny condition => s.whereAny condition
  | .projecting p => s.push (.projecting p)
  | .returning p => s.push (.returning p)
  | .orderBy items => s.push (.orderBy items)
  | .skip count => s.skip (.rows count.toNat)
  | .skipParam count => s.skip (.param count)
  | .limit count => s.limit (.rows count.toNat)
  | .limitParam count => s.limit (.param count)
  | .unwind source target => s.unwind source target
  | .create p => s.create p
  | .merge p => s.merge p
  | .set assignments => s.push (.set assignments)
  | .delete detach targets => (Clause.deleteOf detach targets).bind s.push

/-- The statement after a call, the same one if the call fails. -/
def after (s : Statement) (c : Call) : Statement :=
  match s.call c with
  | .ok s' => s'
  | .error _ => s

/-- The statement that a sequence of calls makes. -/
def made (calls : List Call) : Statement := calls.foldl after .empty

theorem made_concat (calls : List Call) (c : Call) :
    made (calls ++ [c]) = (made calls).after c := by
  simp [made]

variable {s s' : Statement} {c : Call}

/-- What a call does: it pushes a clause, or it joins a condition to the one at the end. -/
theorem call_cases (h : s.call c = .ok s') :
    (∃ clause, s.push clause = .ok s') ∨
      ∃ existing joined, s.last? = some (.filter existing) ∧
        s' = s.replaceLast (.filter joined) := by
  cases c with
  | whereAny condition =>
      simp only [call, whereAny] at h
      split at h
      next existing hlast =>
          obtain rfl := Except.ok.inj h
          exact Or.inr ⟨existing, _, hlast, rfl⟩
      · exact Or.inl ⟨_, h⟩
  | delete detach targets =>
      simp only [call] at h
      cases htargets : Clause.deleteOf detach targets with
      | error e => simp [htargets, Except.bind] at h
      | ok clause => exact Or.inl ⟨clause, by simpa [htargets, Except.bind] using h⟩
  | _ => exact Or.inl ⟨_, h⟩

/-! ## The keywords of what is made

One direction is an invariant of calls. For the other one there is a sample clause for each
keyword, and a word of the language is made keyword by keyword: its phases say that each clause
can be pushed. -/

/-- One more keyword keeps a phase if it repeats the last one, and else if it leads to another
phase. -/
theorem exists_run_joined_iff {p : ClauseOrder.Phase} {ks : List Keyword} {k : Keyword}
    (hp : ClauseOrder.Phase.closed.run ks = some p) :
    (∃ q, ClauseOrder.Phase.closed.run (ClauseOrder.joined ks k) = some q) ↔
      (ClauseOrder.repeats k = true ∧ ks.getLast? = some k) ∨ ∃ q, p.next k = some q := by
  unfold ClauseOrder.joined
  by_cases hrepeat : ClauseOrder.repeats k = true ∧ ks.getLast? = some k
  · rw [if_pos (by simpa using hrepeat)]
    exact ⟨fun _ => Or.inl hrepeat, fun _ => ⟨p, hp⟩⟩
  · rw [if_neg (by simpa using hrepeat)]
    simp [ClauseOrder.Phase.run_append, hp, hrepeat]

/-- A push to a statement in clause order succeeds exactly if the keywords stay in clause order. -/
theorem exists_push_iff_mem {clause : Clause}
    (h : s.keywords ∈ ClauseOrder.statement.matches') :
    (∃ s', s.push clause = .ok s') ↔
      ClauseOrder.joined s.keywords clause.keyword ∈ ClauseOrder.statement.matches' := by
  obtain ⟨p, hp⟩ := ClauseOrder.mem_statement_iff.mp h
  rw [exists_push_iff hp, ClauseOrder.mem_statement_iff, exists_run_joined_iff hp]

/-- A call keeps the keywords in clause order. -/
theorem keywords_after (h : s.keywords ∈ ClauseOrder.statement.matches') (c : Call) :
    (s.after c).keywords ∈ ClauseOrder.statement.matches' := by
  unfold after
  cases hcall : s.call c with
  | error e => exact h
  | ok s' =>
      rcases call_cases hcall with ⟨clause, hpush⟩ | ⟨existing, joined, hlast, rfl⟩
      · rw [keywords_push hpush]
        exact (exists_push_iff_mem h).mp ⟨s', hpush⟩
      · show (s.replaceLast (.filter joined)).keywords ∈ _
        rw [keywords_replaceLast (c := .filter joined) hlast rfl]
        exact h

theorem keywords_made_mem (calls : List Call) :
    (made calls).keywords ∈ ClauseOrder.statement.matches' := by
  induction calls using List.reverseRecOn with
  | nil => exact ClauseOrder.mem_statement_iff.mpr ⟨.closed, rfl⟩
  | append_singleton calls c ih =>
      rw [made_concat]
      exact keywords_after ih c

/-- A clause with a given keyword. -/
def sample : Keyword → Clause
  | .matching => .matching false (.single (.ofNode (.blank 0)))
  | .optionalMatching => .matching true (.single (.ofNode (.blank 0)))
  | .filter => .filter (.literal .null)
  | .projecting => .projecting ⟨false, .single ⟨.literal .null, none⟩⟩
  | .returning => .returning ⟨false, .single ⟨.literal .null, none⟩⟩
  | .orderBy => .orderBy (.single ⟨.literal .null, false⟩)
  | .skip => .skip (.rows 0)
  | .limit => .limit (.rows 0)
  | .unwind => .unwind (.list []) ⟨0, none⟩
  | .create => .create (.single (.ofNode (.blank 0)))
  | .merge => .merge (.ofNode (.blank 0))
  | .set => .set (.single ⟨⟨0, .plain, none⟩, "key", .literal .null⟩)
  | .delete => .delete false (.single ⟨0, .plain, none⟩)
  | .detachDelete => .delete true (.single ⟨0, .plain, none⟩)

theorem keyword_sample (k : Keyword) : (sample k).keyword = k := by
  cases k <;> rfl

/-- Keywords that lead from phase to phase repeat nothing. -/
theorem joined_of_next {p q : ClauseOrder.Phase} {ks : List Keyword} {k : Keyword}
    (hp : ClauseOrder.Phase.closed.run ks = some p) (hnext : p.next k = some q) :
    ClauseOrder.joined ks k = ks ++ [k] := by
  have hfollows := ((ClauseOrder.ends_of_run hp).follows_iff k).mpr ⟨q, hnext⟩
  refine if_neg fun hrepeat => ?_
  simp only [Bool.and_eq_true, beq_iff_eq] at hrepeat
  rw [hrepeat.2, ClauseOrder.follows_self hrepeat.1] at hfollows
  exact Bool.noConfusion hfollows.2

theorem exists_made_of_mem {ks : List Keyword} (h : ks ∈ ClauseOrder.statement.matches') :
    ∃ calls, (made calls).keywords = ks := by
  obtain ⟨p, hp⟩ := ClauseOrder.mem_statement_iff.mp h
  induction ks using List.reverseRecOn generalizing p with
  | nil => exact ⟨[], rfl⟩
  | append_singleton ks k ih =>
      obtain ⟨q, hq, hnext⟩ := ClauseOrder.Phase.run_snoc.mp hp
      have hks := ClauseOrder.mem_statement_iff.mpr ⟨q, hq⟩
      obtain ⟨calls, hcalls⟩ := ih hks q hq
      have hjoined := joined_of_next hq hnext
      have hpush : ∃ s', (made calls).push (sample k) = .ok s' := by
        rw [exists_push_iff_mem (hcalls ▸ hks), hcalls, keyword_sample, hjoined]
        exact h
      obtain ⟨s', hs'⟩ := hpush
      refine ⟨calls ++ [.push (sample k)], ?_⟩
      have hafter : (made calls).after (.push (sample k)) = s' := by simp [after, call, hs']
      rw [made_concat, hafter, keywords_push hs', hcalls, keyword_sample, hjoined]

/-- **Calls make the statements in clause order.** The keywords of what calls make are a word of the
clause order, and each word of it is made by some calls. To a statement that calls made a clause is
added exactly if the keywords with that of the clause are such a word, where a keyword that is
written once and repeats the last one is left out; and then these are the keywords. -/
theorem keywords_made :
    (∀ calls, (made calls).keywords ∈ ClauseOrder.statement.matches') ∧
      (∀ ks ∈ ClauseOrder.statement.matches', ∃ calls, (made calls).keywords = ks) ∧
      ∀ calls clause,
        ((∃ s', (made calls).push clause = .ok s') ↔
          ClauseOrder.joined (made calls).keywords clause.keyword ∈
            ClauseOrder.statement.matches') ∧
        ∀ s', (made calls).push clause = .ok s' →
          s'.keywords = ClauseOrder.joined (made calls).keywords clause.keyword := by
  refine ⟨keywords_made_mem, fun ks hks => exists_made_of_mem hks, fun calls clause => ⟨?_, ?_⟩⟩
  · exact exists_push_iff_mem (keywords_made_mem calls)
  · exact fun s' h => keywords_push h

/-- Calls of which three fail:
MATCH, behind which no LIMIT is taken, and no DELETE without a target;
WITH, with a limit given twice and a condition, by OR without one before it;
RETURN, behind which no condition is taken. -/
def limitedCalls : List Call :=
  let items : Projection := ⟨false, .single ⟨.literal .null, none⟩⟩
  [.matching (.ofNode (.blank 0)), .limit 3, .delete false [], .projecting items, .limit 3,
    .limit 4, .whereAny (.literal .null), .whereAny (.literal .null), .returning items,
    .whereAll (.literal .null)]

theorem keywords_made_limitedCalls :
    (made limitedCalls).keywords = [.matching, .projecting, .limit, .filter, .returning] ∧
      [Keyword.matching, .projecting, .limit, .filter, .returning] ∈
        ClauseOrder.statement.matches' ∧
      (∃ calls,
        (made calls).keywords = [.matching, .projecting, .limit, .filter, .returning, .skip]) ∧
      (∃ s', (made limitedCalls).push (.skip (.rows 5)) = .ok s') ∧
      ¬∃ s', (made limitedCalls).push (.filter (.literal .null)) = .ok s' := by
  obtain ⟨hmem, hreached, hpush⟩ := keywords_made
  have hks : (made limitedCalls).keywords =
      [.matching, .projecting, .limit, .filter, .returning] := by
    decide +kernel
  refine ⟨hks, hks ▸ hmem limitedCalls, hreached _ ?_, ?_, ?_⟩
  · rw [← RegularExpression.rmatch_iff_matches']
    decide +kernel
  · rw [(hpush limitedCalls (.skip (.rows 5))).1, hks, ← RegularExpression.rmatch_iff_matches']
    decide +kernel
  · rw [(hpush limitedCalls (.filter (.literal .null))).1, hks,
      ← RegularExpression.rmatch_iff_matches']
    decide

end GraphQuery.Statement
