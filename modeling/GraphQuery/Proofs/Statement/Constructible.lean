import GraphQuery.Proofs.Expr.Call
import GraphQuery.Proofs.Statement.Runs

set_option autoImplicit false

/-! # Statements that can be made

A condition that does not look at groups passes from the clauses that calls give to the statement
that they make: whatever the order of the calls is, and whichever of them fail, its clauses are made
of those that were given, joined by groups at the most (`Statement.every_made`).

The condition `Expr.Named`, which the results about texts suppose, is of this kind. So it holds of
every statement that is made by calls from expressions that can be made
(`Statement.every_named_made`).
-/

namespace GraphQuery

variable {p : Expr → Prop}

/-! ## Clauses

Two clauses that are joined are two conditions, which become operands of a group, or two lists of
sort items, which are put behind each other; of two numbers of rows one is left. -/

theorem Clause.every_filter {e : Expr} : (Clause.filter e).Every p ↔ e.Every p := by
  simp [Clause.Every, Clause.exprs]

/-- What two clauses of one kind come to has no expressions that the two have not, but for the group
of two conditions. -/
theorem Clause.every_joined? (hp : ∀ op es, p (.group op es)) {last clause joined : Clause}
    (h : last.joined? clause = some joined) (hlast : last.Every p) (hclause : clause.Every p) :
    joined.Every p := by
  unfold Clause.joined? at h
  split at h
  next e e' =>
      obtain rfl := Option.some.inj h
      rw [every_filter] at hlast hclause ⊢
      exact (Expr.every_extend_iff hp .and e e').mpr ⟨hlast, hclause⟩
  next items items' =>
      obtain rfl := Option.some.inj h
      intro e he
      rw [Clause.exprs, OneOrMore.toList_append, List.map_append] at he
      exact (List.mem_append.mp he).elim (hlast e) (hclause e)
  next =>
      obtain rfl := Option.some.inj h
      exact hclause
  next =>
      obtain rfl := Option.some.inj h
      exact hclause
  next => simp at h

theorem Given.every_onto? (hp : ∀ op es, p (.group op es)) {g : Given} {last joined : Clause}
    (h : g.onto? last = some joined) (hlast : last.Every p) (hg : g.clause.Every p) :
    joined.Every p := by
  cases last with
  | filter e =>
      obtain ⟨alternative, clause⟩ := g
      cases clause with
      | filter e' =>
          obtain rfl := Option.some.inj h
          rw [Clause.every_filter] at hlast hg ⊢
          -- the two connectives are told apart by the alternative
          cases alternative with
          | true => exact (Expr.every_extend_iff hp .or e e').mpr ⟨hlast, hg⟩
          | false => exact (Expr.every_extend_iff hp .and e e').mpr ⟨hlast, hg⟩
      | matching optional _ => cases optional <;> simp [onto?, Clause.keyword] at h
      | delete detach _ => cases detach <;> simp [onto?, Clause.keyword] at h
      | _ => simp [onto?, Clause.keyword] at h
  | _ =>
      simp only [onto?] at h
      exact Clause.every_joined? hp h hlast hg

/-! ## Statements

The invariant is about statements and one call. A call that fails changes nothing, and one that
succeeds gives a clause, so there is one step to look at. -/

namespace Statement

variable {s : Statement} {g : Given} {c : Call} {calls : List Call}

theorem Every.add (hs : s.Every p) {clause : Clause} (h : clause.Every p) :
    (s.add clause).Every p :=
  List.forall_mem_append.mpr ⟨hs, List.forall_mem_singleton.mpr h⟩

theorem Every.replaceLast (hs : s.Every p) {clause : Clause} (h : clause.Every p) :
    (s.replaceLast clause).Every p :=
  List.forall_mem_append.mpr
    ⟨fun c hc => hs c (List.mem_of_mem_dropLast hc), List.forall_mem_singleton.mpr h⟩

theorem Every.give (hp : ∀ op es, p (.group op es)) (hs : s.Every p) (hg : g.clause.Every p) :
    (s.give g).Every p := by
  unfold Statement.give
  split
  next joined hjoined =>
      obtain ⟨last, hlast, honto⟩ := Option.bind_eq_some_iff.mp hjoined
      have hmem : last ∈ s.clauses := List.mem_of_getLast? hlast
      exact hs.replaceLast (Given.every_onto? hp honto (hs last hmem) hg)
  · exact hs.add hg

/-- One call: it gives a clause, or it fails and nothing changes. -/
theorem Every.after (hp : ∀ op es, p (.group op es)) (hs : s.Every p)
    (hc : ∀ g, c.given? = some g → g.clause.Every p) : (s.after c).Every p := by
  unfold Statement.after
  split
  next s' h =>
      obtain ⟨g, hg, rfl⟩ := call_eq_give h
      exact hs.give hp (hc g hg)
  · exact hs

/-- **A condition that does not look at groups** holds of all expressions in the statement that
calls make if it holds of those in the clauses that they give. -/
theorem every_made (hp : ∀ op es, p (.group op es))
    (h : ∀ c ∈ calls, ∀ g, c.given? = some g → g.clause.Every p) : (made calls).Every p := by
  induction calls using List.reverseRecOn with
  | nil => simp [made, Statement.Every, Statement.empty]
  | append_singleton calls c ih =>
      rw [made_concat]
      have hbefore := ih fun c' hc' => h c' (List.mem_append_left _ hc')
      exact hbefore.after hp (h c (by simp))

/-- A call whose expressions can be made. -/
def Call.Constructible (c : Call) : Prop :=
  ∀ g, c.given? = some g → ∀ e ∈ g.clause.exprs, e.Constructible

/-- **Every statement that can be made is named**: each call in it has a dotted identifier for its
name. -/
theorem every_named_made (h : ∀ c ∈ calls, c.Constructible) : (made calls).Every Expr.Named :=
  every_made (fun _ _ => trivial) fun c hc g hg e he => (h c hc g hg e he).every_named

end Statement

end GraphQuery
