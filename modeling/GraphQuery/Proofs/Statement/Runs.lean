import GraphQuery.Proofs.Statement.Extension
import Mathlib.Data.List.SplitBy

set_option autoImplicit false

/-! # Statements as runs of clauses

The statement that calls make, said all at once: the clauses of the calls that succeed are split
into runs of one kind, and each run comes to one clause (`Given.runClause?`). Conditions are joined
from the left, items to sort by are put behind each other, and of several numbers of rows the last
one counts. Making a statement call by call comes to the same (`Statement.clauses_made`).
-/

namespace GraphQuery

/-! ## Runs of a list

Splitting a list into runs looks at neighbours only. One more element at the end therefore
changes the last run or begins another. -/

section Runs

variable {α : Type} {r : α → α → Bool} {xs run : List α} {front : List (List α)} {y : α}

/-- One more element goes on with the last run if it is related to the last element. -/
theorem splitBy_concat_of_related (h : xs.splitBy r = front ++ [run])
    (hy : ∀ x ∈ run.getLast?, r x y = true) :
    (xs ++ [y]).splitBy r = front ++ [run ++ [y]] := by
  obtain ⟨hxs, hne, hchain, hbreaks⟩ := List.splitBy_eq_iff.mp h
  have hrun : run ≠ [] := fun hnil => hne (by simp [hnil])
  refine List.splitBy_eq_iff.mpr ⟨by simp [hxs], by simpa using fun h => hne (by simp [h]), ?_, ?_⟩
  · intro m hm
    rcases List.mem_append.mp hm with hm | hm
    · exact hchain m (List.mem_append_left _ hm)
    · obtain rfl := List.mem_singleton.mp hm
      refine List.isChain_append.mpr ⟨hchain run (by simp), List.isChain_singleton y, ?_⟩
      simpa using hy
  · -- the longer run begins as the run does
    obtain ⟨hfront, -, hbreak⟩ := List.isChain_append.mp hbreaks
    refine List.isChain_append.mpr ⟨hfront, List.isChain_singleton _, ?_⟩
    intro before hbefore after hafter
    obtain rfl : run ++ [y] = after := by simpa using hafter
    obtain ⟨hbefore', hrun', hrelated⟩ := hbreak before hbefore run (by simp)
    refine ⟨hbefore', by simp, ?_⟩
    rwa [List.head_append_of_ne_nil hrun']

/-- One more element begins a run if it is not related to the last element. -/
theorem splitBy_concat_of_unrelated (hy : ∀ x ∈ xs.getLast?, r x y = false) :
    (xs ++ [y]).splitBy r = xs.splitBy r ++ [[y]] := by
  rw [List.splitBy_append_cons [] hy, List.splitBy_of_isChain (by simp) (List.isChain_singleton y)]

end Runs

/-! ## What calls give

A call is turned into a clause and a mark that tells an alternative from a further condition.
What a run of these comes to is said at once for the whole run. -/

/-- A clause that a call gives, and whether its condition is an alternative to one before it. -/
structure Given where
  alternative : Bool
  clause : Clause

namespace Given

/-- A condition with the one that is given, by OR if that is an alternative and by AND otherwise. -/
def extend (e : Expr) (g : Given) : Expr :=
  match g.clause with
  | .filter e' => if g.alternative then e.or e' else e.and e'
  | _ => e

def sortItems (g : Given) : List SortItem :=
  match g.clause with
  | .orderBy items => items.toList
  | _ => []

/-- Whether what is given goes on with a run: it is of the kind of what was given before, and of a
kind that is written once. -/
def goesOn (before g : Given) : Bool :=
  before.clause.keyword = g.clause.keyword && ClauseOrder.repeats g.clause.keyword

/-- The clause that a run comes to. -/
def runClause? : List Given → Option Clause
  | [] => none
  | g :: gs =>
      some <| match g.clause with
        | .filter e => .filter (gs.foldl extend e)
        | .orderBy items => .orderBy ⟨items.head, items.tail ++ gs.flatMap sortItems⟩
        | .skip _ | .limit _ => (gs.getLastD g).clause
        | clause => clause

end Given

namespace Statement

/-- What a call gives. A call that deletes nothing gives nothing. -/
def Call.given? : Call → Option Given
  | .push c => some ⟨false, c⟩
  | .matching p => some ⟨false, .matching false (.single p)⟩
  | .optionalMatching p => some ⟨false, .matching true (.single p)⟩
  | .whereAll condition => some ⟨false, .filter condition⟩
  | .whereAny condition => some ⟨true, .filter condition⟩
  | .projecting p => some ⟨false, .projecting p⟩
  | .returning p => some ⟨false, .returning p⟩
  | .orderBy items => some ⟨false, .orderBy items⟩
  | .skip count => some ⟨false, .skip (.rows count.toNat)⟩
  | .skipParam count => some ⟨false, .skip (.param count)⟩
  | .limit count => some ⟨false, .limit (.rows count.toNat)⟩
  | .limitParam count => some ⟨false, .limit (.param count)⟩
  | .unwind source target => some ⟨false, .unwind source target⟩
  | .create p => some ⟨false, .create (.single p)⟩
  | .merge p => some ⟨false, .merge p⟩
  | .set assignments => some ⟨false, .set assignments⟩
  | .delete _ [] => none
  | .delete detach (target :: targets) => some ⟨false, .delete detach ⟨target, targets⟩⟩

/-- The calls that succeed when they are made one after the other. -/
def accepted (s : Statement) : List Call → List Call
  | [] => []
  | c :: calls =>
      match s.call c with
      | .ok s' => c :: s'.accepted calls
      | .error _ => s.accepted calls

/-- The clauses of what was given, run by run. -/
def ofRuns (gs : List Given) : Statement := ⟨(gs.splitBy Given.goesOn).filterMap Given.runClause?⟩

end Statement

/-! ## One more in a run

Between the clause of a run and one more member there is the same step as between a clause of a
statement and one more call. -/

/-- A clause with a keyword that is written once, by that keyword. -/
theorem Clause.eq_of_keyword (c : Clause) :
    (c.keyword = .filter → ∃ e, c = .filter e) ∧ (c.keyword = .orderBy → ∃ xs, c = .orderBy xs) ∧
      (c.keyword = .skip → ∃ e, c = .skip e) ∧ (c.keyword = .limit → ∃ e, c = .limit e) := by
  cases c with
  | matching flag _ | delete flag _ => cases flag <;> simp [keyword]
  | _ => simp [keyword]

namespace Given

variable {g g₀ : Given} {gs : List Given} {last : Clause}

theorem goesOn_iff {before : Given} : before.goesOn g = true ↔
    before.clause.keyword = g.clause.keyword ∧ ClauseOrder.repeats g.clause.keyword = true := by
  simp [goesOn]

/-- All that is in a run is of one kind. -/
theorem keyword_of_mem (hchain : (g₀ :: gs).IsChain fun a b => a.goesOn b) (hg : g ∈ g₀ :: gs) :
    g.clause.keyword = g₀.clause.keyword := by
  induction gs generalizing g₀ with
  | nil => rw [List.mem_singleton.mp hg]
  | cons g₁ gs ih =>
      obtain ⟨hfirst, hrest⟩ := List.isChain_cons_cons.mp hchain
      rcases List.mem_cons.mp hg with rfl | hg
      · rfl
      · rw [ih hrest hg, (goesOn_iff.mp hfirst).1]

/-- A run comes to a clause of the kind of all that is in it. -/
theorem keyword_runClause? (hchain : (g₀ :: gs).IsChain fun a b => a.goesOn b)
    (h : runClause? (g₀ :: gs) = some last) : last.keyword = g₀.clause.keyword := by
  have hlast : (gs.getLastD g₀).clause.keyword = g₀.clause.keyword :=
    keyword_of_mem hchain List.getLastD_mem_cons
  obtain rfl := Option.some.inj h
  cases hclause : g₀.clause with
  | skip e | limit e => simp only [hlast, hclause]
  | _ => rfl

/-- What a clause and one of its kind that is given right behind it come to. -/
def onto? (g : Given) (last : Clause) : Option Clause :=
  match last with
  | .filter e => if g.clause.keyword = .filter then some (.filter (extend e g)) else none
  | _ => last.joined? g.clause

/-- What a run with one more in it comes to. -/
theorem runClause?_concat (hchain : (g₀ :: gs).IsChain fun a b => a.goesOn b)
    (h : runClause? (g₀ :: gs) = some last) (hg : (gs.getLastD g₀).goesOn g = true) :
    ∃ joined, g.onto? last = some joined ∧ runClause? (g₀ :: gs ++ [g]) = some joined := by
  obtain ⟨hsame, hrepeats⟩ := goesOn_iff.mp hg
  -- all members of the run and the clause that it comes to are of one kind
  have hkeyword : g.clause.keyword = g₀.clause.keyword :=
    hsame.symm.trans (keyword_of_mem hchain List.getLastD_mem_cons)
  obtain ⟨hfilter, horderBy, hskip, hlimit⟩ := g.clause.eq_of_keyword
  have hlast := keyword_runClause? hchain h
  obtain ⟨-, -, hskip', hlimit'⟩ := last.eq_of_keyword
  rw [List.cons_append]
  -- the four kinds that are written once; of any other kind a run has no second member
  cases hclause : g₀.clause with
  | filter e =>
      obtain rfl : Clause.filter (gs.foldl extend e) = last := by
        simpa [runClause?, hclause] using h
      refine ⟨.filter (extend (gs.foldl extend e) g), ?_, ?_⟩
      · exact if_pos (hkeyword.trans (by rw [hclause]; rfl))
      · simp [runClause?, hclause]
  | orderBy items =>
      obtain ⟨items', hitems'⟩ := horderBy (hkeyword.trans (by rw [hclause]; rfl))
      obtain rfl : Clause.orderBy ⟨items.head, items.tail ++ gs.flatMap sortItems⟩ = last := by
        simpa [runClause?, hclause] using h
      refine ⟨.orderBy (.append ⟨items.head, items.tail ++ gs.flatMap sortItems⟩ items'), ?_, ?_⟩
      · simp only [onto?, hitems', Clause.joined?]
      · simp [runClause?, hclause, OneOrMore.append, sortItems, hitems']
  | skip e =>
      obtain ⟨count, hcount⟩ := hskip (hkeyword.trans (by rw [hclause]; rfl))
      obtain ⟨count', rfl⟩ := hskip' (hlast.trans (by rw [hclause]; rfl))
      refine ⟨.skip count, by simp only [onto?, hcount, Clause.joined?], ?_⟩
      simp [runClause?, hclause, hcount]
  | limit e =>
      obtain ⟨count, hcount⟩ := hlimit (hkeyword.trans (by rw [hclause]; rfl))
      obtain ⟨count', rfl⟩ := hlimit' (hlast.trans (by rw [hclause]; rfl))
      refine ⟨.limit count, by simp only [onto?, hcount, Clause.joined?], ?_⟩
      simp [runClause?, hclause, hcount]
  | matching flag _ | delete flag _ =>
      rw [hkeyword, hclause] at hrepeats
      cases flag <;> exact absurd hrepeats Bool.false_ne_true
  | projecting _ | returning _ | unwind _ _ | create _ | merge _ | set _ =>
      rw [hkeyword, hclause] at hrepeats
      exact absurd hrepeats Bool.false_ne_true

theorem runClause?_singleton (g : Given) : runClause? [g] = some g.clause := by
  cases hclause : g.clause <;> simp [runClause?, hclause]

/-- What is given joins a clause only if that is of the same kind. -/
theorem onto?_eq_some {joined : Clause} (h : g.onto? last = some joined) :
    last.keyword = g.clause.keyword ∧ ClauseOrder.repeats g.clause.keyword = true := by
  cases last with
  | filter e =>
      simp only [onto?, Option.ite_none_right_eq_some] at h
      rw [h.1]
      exact ⟨rfl, rfl⟩
  | _ =>
      simp only [onto?] at h
      obtain ⟨hkeyword, -, hrepeats⟩ := Clause.joined?_eq_some h
      exact ⟨hkeyword, hrepeats⟩

/-- What is given without an alternative joins a clause as the clause given does. -/
theorem onto?_eq_joined? (hg : g.alternative = false) (last : Clause) :
    g.onto? last = last.joined? g.clause := by
  cases last with
  | filter e =>
      obtain ⟨alternative, clause⟩ := g
      obtain rfl : alternative = false := hg
      cases clause with
      | matching flag _ | delete flag _ => cases flag <;> rfl
      | _ => rfl
  | _ => rfl

end Given

/-! ## One more call

A call that succeeds gives something to the statement, and that is all a call can do. So the
cases of a call are looked at once. -/

namespace Statement

variable {s s' : Statement} {c : Call} {g : Given}

/-- What becomes of a statement when a clause is given to it: the clause joins the last one, or is
added. -/
def give (s : Statement) (g : Given) : Statement :=
  match s.last?.bind g.onto? with
  | some joined => s.replaceLast joined
  | none => s.add g.clause

theorem push_eq_give (hg : g.alternative = false) (h : s.push g.clause = .ok s') :
    s' = s.give g := by
  have hjoined : s.last?.bind g.onto? = s.last?.bind (·.joined? g.clause) := by
    rw [funext (Given.onto?_eq_joined? hg)]
  rw [push_eq] at h
  split at h
  · simp at h
  rw [give, hjoined]
  cases hcase : s.last?.bind (·.joined? g.clause) with
  | some joined =>
      rw [hcase] at h
      exact (Except.ok.inj h).symm
  | none =>
      rw [hcase] at h
      simp only at h ⊢
      split at h
      · exact (Except.ok.inj h).symm
      · simp at h

/-- **A call that succeeds gives a clause**, which joins the last one or is added. -/
theorem call_eq_give (h : s.call c = .ok s') : ∃ g, c.given? = some g ∧ s' = s.give g := by
  cases c with
  | whereAny condition =>
      refine ⟨_, rfl, ?_⟩
      simp only [call, whereAny] at h
      split at h
      next existing hlast =>
          rw [give, hlast]
          exact (Except.ok.inj h).symm
      next hlast =>
          -- without a condition before it there is nothing to be an alternative to
          have hgive : s.give ⟨true, .filter condition⟩ = s.give ⟨false, .filter condition⟩ := by
            unfold give
            cases hs : s.last? with
            | none => rfl
            | some last =>
                cases last with
                | filter e => exact absurd hs (hlast e)
                | _ => rfl
          rw [hgive]
          exact push_eq_give (g := ⟨false, .filter condition⟩) rfl h
  | delete detach targets =>
      cases targets with
      | nil => simp [call, Clause.deleteOf, OneOrMore.ofList, Except.map, Except.bind] at h
      | cons target targets =>
          exact ⟨_, rfl, push_eq_give (g := ⟨false, .delete detach ⟨target, targets⟩⟩) rfl h⟩
  | _ => exact ⟨_, rfl, push_eq_give rfl h⟩

/-! ## All calls

The induction is on the calls from the end, with the invariant that the statement is what the
runs of the accepted calls come to. -/

theorem accepted_append (s : Statement) (calls calls' : List Call) :
    s.accepted (calls ++ calls') = s.accepted calls ++ (calls.foldl after s).accepted calls' := by
  induction calls generalizing s with
  | nil => rfl
  | cons c calls ih =>
      rw [List.cons_append, List.foldl_cons, accepted, accepted, after]
      cases hcall : s.call c with
      | error e => exact ih s
      | ok s₁ => exact congrArg (c :: ·) (ih s₁)

/-- One more call that succeeds. -/
theorem accepted_concat_of_ok {calls : List Call} (h : (calls.foldl after s).call c = .ok s') :
    s.accepted (calls ++ [c]) = s.accepted calls ++ [c] := by
  rw [accepted_append, accepted, h]
  rfl

/-- One more call that fails. -/
theorem accepted_concat_of_error {calls : List Call} {e : ClauseError}
    (h : (calls.foldl after s).call c = .error e) :
    s.accepted (calls ++ [c]) = s.accepted calls := by
  rw [accepted_append, accepted, h]
  exact List.append_nil _

/-- A clause that is given to what some runs come to belongs to the last run or begins one. -/
theorem give_ofRuns (gs : List Given) (g : Given) : (ofRuns gs).give g = ofRuns (gs ++ [g]) := by
  rcases List.eq_nil_or_concat' (gs.splitBy Given.goesOn) with hnil | ⟨front, run, hruns⟩
  · obtain rfl := List.splitBy_eq_nil.mp hnil
    simp [ofRuns, give, last?, add, List.splitBy_of_isChain, Given.runClause?_singleton]
  obtain ⟨hgs, hne, hchain, -⟩ := List.splitBy_eq_iff.mp hruns
  obtain ⟨g₀, run, rfl⟩ : ∃ g₀ run', run = g₀ :: run' :=
    List.exists_cons_of_ne_nil fun hnil => hne (by simp [hnil])
  replace hchain := hchain (g₀ :: run) (by simp)
  obtain ⟨last, hlast⟩ : ∃ last, Given.runClause? (g₀ :: run) = some last := ⟨_, rfl⟩
  have hclauses : (ofRuns gs).clauses = front.filterMap Given.runClause? ++ [last] := by
    simp [ofRuns, hruns, hlast]
  have hlast? : (ofRuns gs).last? = some last := by simp [last?, hclauses]
  have hlastIn : (g₀ :: run).getLast? = some (run.getLastD g₀) := by
    rw [List.getLast?_cons, List.getLastD_eq_getLast?]
  cases hgoesOn : (run.getLastD g₀).goesOn g with
  | true =>
      obtain ⟨joined, honto, hjoined⟩ := Given.runClause?_concat hchain hlast hgoesOn
      have hsplit : (gs ++ [g]).splitBy Given.goesOn = front ++ [g₀ :: run ++ [g]] := by
        refine splitBy_concat_of_related hruns fun before hbefore => ?_
        obtain rfl := Option.some.inj (hlastIn.symm.trans hbefore)
        exact hgoesOn
      have hclauses' : (ofRuns (gs ++ [g])).clauses =
          front.filterMap Given.runClause? ++ [joined] := by
        rw [ofRuns, hsplit, List.filterMap_append, List.filterMap_cons_some hjoined]
        rfl
      rw [give, hlast?, Option.bind_some, honto]
      simp [replaceLast, hclauses, ← hclauses']
  | false =>
      -- otherwise it is of another kind, or of one that is not joined
      have honto : g.onto? last = none := by
        by_contra hsome
        obtain ⟨joined, hjoined⟩ := Option.ne_none_iff_exists'.mp hsome
        obtain ⟨hkeyword, hrepeats⟩ := Given.onto?_eq_some hjoined
        have hrun := Given.keyword_of_mem hchain (List.getLastD_mem_cons (l := run))
        rw [← Given.keyword_runClause? hchain hlast, hkeyword] at hrun
        rw [Given.goesOn_iff.mpr ⟨hrun, hrepeats⟩] at hgoesOn
        exact Bool.noConfusion hgoesOn
      have hsplit : (gs ++ [g]).splitBy Given.goesOn = gs.splitBy Given.goesOn ++ [[g]] := by
        refine splitBy_concat_of_unrelated fun before hbefore => ?_
        rw [hgs, List.flatten_append, List.flatten_singleton, List.getLast?_append, hlastIn,
          Option.some_or] at hbefore
        obtain rfl := Option.some.inj hbefore
        exact hgoesOn
      rw [give, hlast?, Option.bind_some, honto]
      simp [add, ofRuns, hsplit, Given.runClause?_singleton]

/-- What calls make, said all at once. -/
theorem made_eq_ofRuns (calls : List Call) :
    made calls = ofRuns ((accepted .empty calls).filterMap Call.given?) := by
  induction calls using List.reverseRecOn with
  | nil => rfl
  | append_singleton calls c ih =>
      rw [made_concat, after]
      cases hcall : (made calls).call c with
      | error e => rw [accepted_concat_of_error hcall]; exact ih
      | ok s' =>
          obtain ⟨g, hg, rfl⟩ := call_eq_give hcall
          rw [accepted_concat_of_ok hcall, List.filterMap_append, ih, give_ofRuns]
          simp [hg]

/-- A call that is made again after those that succeeded makes the same. -/
theorem made_accepted (calls : List Call) : made (accepted .empty calls) = made calls := by
  induction calls using List.reverseRecOn with
  | nil => rfl
  | append_singleton calls c ih =>
      rw [made_concat, after]
      cases hcall : (made calls).call c with
      | error e => rw [accepted_concat_of_error hcall, ih]
      | ok s' => rw [accepted_concat_of_ok hcall, made_concat, ih, after, hcall]

/-- What is given to a statement leaves all clauses before the last one as they are. -/
theorem dropLast_prefix_give (s : Statement) (g : Given) :
    s.clauses.dropLast <+: (s.give g).clauses := by
  unfold give
  split
  · exact List.prefix_append ..
  · exact (List.dropLast_prefix s.clauses).trans (List.prefix_append ..)

theorem dropLast_prefix_after (s : Statement) (c : Call) :
    s.clauses.dropLast <+: (s.after c).clauses := by
  unfold after
  cases hcall : s.call c with
  | error e => exact List.dropLast_prefix s.clauses
  | ok s' =>
      obtain ⟨g, -, rfl⟩ := call_eq_give hcall
      exact s.dropLast_prefix_give g

/-- **Making a statement loses and duplicates nothing**: the clauses of calls are those of the
calls that succeed, run by run, with all that was given in a run joined in order. Calls that fail
count for nothing, and no call touches a clause before the last one. -/
theorem clauses_made (calls : List Call) :
    (made calls).clauses =
        (((accepted .empty calls).filterMap Call.given?).splitBy Given.goesOn).filterMap
          Given.runClause? ∧
      made (accepted .empty calls) = made calls ∧
      ∀ c, (made calls).clauses.dropLast <+: ((made calls).after c).clauses :=
  ⟨congrArg clauses (made_eq_ofRuns calls), made_accepted calls, (made calls).dropLast_prefix_after⟩

end Statement

end GraphQuery
