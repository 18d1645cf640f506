import GraphQuery.Proofs.Expr.Truth
import GraphQuery.Proofs.Parser.RoundTrip
import GraphQuery.Proofs.Statement.Calls

set_option autoImplicit false

/-! # The condition that calls make

Conditions that are given one after the other, each by AND or as an alternative by OR, come to one
condition, and that has the value that folding them from the left has, whatever connectives are in
them (`Statement.exists_condition`). The text of the condition has this value too, for a reader who
knows no more than the grammar, as long as no function is called by a reserved word.
-/

namespace GraphQuery

/-! ## Reading -/

namespace Grammar

/-- A text whose tokens are read as a tree is read as that tree. -/
theorem ReadsAs.read {g : Grammar} {text : String} {ts : List Token} {t : Tree}
    (h : ReadsAs g ts t) (hscan : scan text.toList = some ts) : Tree.read g text = some t := by
  have hparse := h.parse [] (stops_nil g .or)
  rw [List.append_nil] at hparse
  rw [Tree.read, hscan]
  simp only [Option.bind_eq_bind, Option.bind_some, hparse]

end Grammar

namespace Expr

/-- An expression is readable if what was there and the operand that joins it are. -/
theorem every_readable_extend {e operand : Expr} (op : Connective) (h : e.Every Readable)
    (hoperand : operand.Every Readable) : (e.extend op operand).Every Readable := by
  have hpair : (Expr.group op [e, operand]).Every Readable := by
    rw [Every]
    exact ⟨Nat.le_refl 2, by simp [h, hoperand]⟩
  cases e with
  | group op' es =>
      simp only [extend]
      split
      · rw [Every] at h ⊢
        refine ⟨?_, ?_⟩
        · have hlength : 2 ≤ es.length := h.1
          show 2 ≤ (es ++ [operand]).length
          rw [List.length_append]
          omega
        · simpa [or_imp, forall_and, hoperand] using h.2
      · exact hpair
  | _ => exact hpair

end Expr

namespace Statement

/-! ## Further conditions

Each further condition extends what is there by its connective. The two folds, one over
expressions and one over truth values, are in step by `Expr.truth_extend`. -/

/-- A condition behind another one. -/
structure Further where
  /-- Whether it is enough if this condition holds. -/
  alternative : Bool
  condition : Expr

namespace Further

variable {v : Expr → Truth} {others : List Further} {first : Expr}

def connective (c : Further) : Connective := if c.alternative then .or else .and

def toCall (c : Further) : Call :=
  if c.alternative then .whereAny c.condition else .whereAll c.condition

/-- A condition and a further one. -/
def onto (e : Expr) (c : Further) : Expr := e.extend c.connective c.condition

def value (v : Expr → Truth) (t : Truth) (c : Further) : Truth :=
  c.connective.apply t (c.condition.truth v)

theorem truth_foldl_onto (v : Expr → Truth) (first : Expr) (others : List Further) :
    (others.foldl onto first).truth v = others.foldl (value v) (first.truth v) := by
  induction others generalizing first with
  | nil => rfl
  | cons c others ih =>
      rw [List.foldl_cons, List.foldl_cons, ih, onto, Expr.truth_extend]
      rfl

theorem every_readable_foldl_onto (hfirst : first.Every Expr.Readable)
    (hothers : ∀ c ∈ others, c.condition.Every Expr.Readable) :
    (others.foldl onto first).Every Expr.Readable := by
  induction others generalizing first with
  | nil => exact hfirst
  | cons c others ih =>
      obtain ⟨hc, hothers⟩ := List.forall_mem_cons.mp hothers
      exact ih (Expr.every_readable_extend c.connective hfirst hc) hothers

end Further

/-! ## Calls

Once there is a `WHERE` at the end, every further condition is accepted and joins it. Only the
first condition depends on where the statement is. -/

variable {s : Statement}

theorem replaceLast_add (s : Statement) (c c' : Clause) : (s.add c).replaceLast c' = s.add c' := by
  simp [replaceLast, add]

theorem last?_add (s : Statement) (c : Clause) : (s.add c).last? = some c := by
  simp [last?, add]

/-- Where the keyword of a condition may stand next, a condition is added. -/
theorem whereAll_eq_add (h : s.keywords ++ [.filter] ∈ ClauseOrder.statement.matches')
    (e : Expr) :
    s.whereAll e = .ok (s.add (.filter e)) ∧ s.hasReturn = false := by
  obtain ⟨q, hq⟩ := ClauseOrder.mem_statement_iff.mp h
  obtain ⟨p, hp, hnext⟩ := ClauseOrder.Phase.run_snoc.mp hq
  have hends := ClauseOrder.ends_of_run hp
  obtain ⟨hreturning, hfollows⟩ := (hends.follows_iff .filter).mpr ⟨q, hnext⟩
  have hreturn : s.hasReturn = false := by
    by_contra hreturn
    rw [Bool.not_eq_false, hasReturn_iff] at hreturn
    exact Bool.noConfusion (hreturning hreturn)
  have hjoined : s.last?.bind (·.joined? (.filter e)) = none := by
    by_contra hsome
    obtain ⟨c, hc⟩ := Option.ne_none_iff_exists'.mp hsome
    obtain ⟨hrepeats, hlast⟩ := exists_joined?_iff.mp ⟨c, hc⟩
    rw [hlast, Clause.keyword, ClauseOrder.follows_self rfl] at hfollows
    exact Bool.noConfusion hfollows
  refine ⟨?_, hreturn⟩
  rw [whereAll, push_eq, hreturn, hjoined]
  exact if_pos hfollows

/-- A further condition joins the condition at the end. -/
theorem call_further (hreturn : s.hasReturn = false) (e : Expr) (c : Further) :
    (s.add (.filter e)).call c.toCall = .ok (s.add (.filter (c.onto e))) := by
  have hreturn' : (s.add (.filter e)).hasReturn = false := by
    rw [← Bool.not_eq_true, hasReturn_iff, keywords_add, List.mem_append, ← hasReturn_iff, hreturn]
    simp [Clause.keyword]
  obtain ⟨alternative, condition⟩ := c
  cases alternative with
  | true =>
      show (s.add (.filter e)).whereAny condition = _
      simp only [whereAny, last?_add, replaceLast_add]
      rfl
  | false =>
      show (s.add (.filter e)).whereAll condition = _
      rw [whereAll, push_eq, hreturn', last?_add, Option.bind_some, Clause.joined?]
      simp only [replaceLast_add]
      rfl

theorem foldlM_further (hreturn : s.hasReturn = false) (e : Expr) (others : List Further) :
    (others.map Further.toCall).foldlM call (s.add (.filter e)) =
      .ok (s.add (.filter (others.foldl Further.onto e))) := by
  induction others generalizing e with
  | nil => rfl
  | cons c others ih =>
      rw [List.map_cons, List.foldlM_cons, call_further hreturn]
      exact ih (c.onto e)

/-- **Repeated conditions mean what they say.** Where a condition may stand next and none is there,
all calls succeed and add one condition, which has the value that folding the conditions from the
left has. Its text has this value too, if groups have two operands at least and no function is
called by a reserved word. -/
theorem exists_condition (s : Statement) (first : Expr) (others : List Further)
    (hs : s.keywords ++ [.filter] ∈ ClauseOrder.statement.matches') :
    ∃ condition,
      (.whereAll first :: others.map Further.toCall).foldlM call s =
          .ok (s.add (.filter condition)) ∧
        ∀ v : Expr → Truth,
          condition.truth v = others.foldl (Further.value v) (first.truth v) ∧
          ∀ (g : Grammar) (scope scope' : Scope) (text : String),
            first.Every Expr.Readable → (∀ c ∈ others, c.condition.Every Expr.Readable) →
            scope.render condition.draft = (.ok text, scope') →
            (∀ a b : Expr, a.Simple → b.Simple →
              a.tree scope'.names = b.tree scope'.names → v a = v b) →
            (∃ w, Expr.Agrees scope'.names v w) ∧
              ∃ t, Tree.read g text = some t ∧
                ∀ w, Expr.Agrees scope'.names v w →
                  t.truth w = others.foldl (Further.value v) (first.truth v) := by
  obtain ⟨hfirst, hreturn⟩ := whereAll_eq_add hs first
  have htruth := fun v => Further.truth_foldl_onto v first others
  refine ⟨others.foldl Further.onto first, ?_, fun v => ⟨htruth v, ?_⟩⟩
  · -- the first condition is added, and the others join it one by one
    have hcall : s.call (.whereAll first) = .ok (s.add (.filter first)) := hfirst
    rw [List.foldlM_cons, hcall]
    exact foldlM_further hreturn first others
  intro g scope scope' text hreadable hreadables hrender hvalues
  have hcondition := Further.every_readable_foldl_onto hreadable hreadables
  obtain ⟨-, hsound, -⟩ := Scope.render_ok hrender
  -- the text is read as the tree of the condition, which has its value
  have hread := (Expr.readsAs g scope'.names (Expr.every_legible hcondition hsound)).read
    (Expr.scan_render (hcondition.mono fun _ he => he.named) hrender)
  refine ⟨Expr.exists_agrees hvalues, _, hread, fun w hw => ?_⟩
  exact (Expr.truth_tree hw _).trans (htruth v)

/-- A condition over literals only: an exclusive disjunction, an alternative, and a conjunction. -/
def settled : Expr × List Further :=
  (.group .xor [.literal (.boolean true), .literal .null],
    [⟨true, .literal (.boolean true)⟩,
      ⟨false, .group .and [.literal .null, .literal (.boolean false)]⟩])

/-- What literals say of themselves. -/
def spoken : Tree → Truth
  | .literal (.boolean b) => if b then .true else .false
  | _ => .null

/-- A statement that matches any node. -/
def anyNode : Statement := made [.matching (.ofNode (.blank 0))]

theorem keywords_anyNode : anyNode.keywords ++ [.filter] ∈ ClauseOrder.statement.matches' := by
  rw [← RegularExpression.rmatch_iff_matches']
  decide +kernel

theorem exists_condition_settled :
    anyNode.keywords ++ [.filter] ∈ ClauseOrder.statement.matches' ∧
      ∃ condition text scope' t,
        (.whereAll settled.1 :: settled.2.map Further.toCall).foldlM call anyNode =
            .ok (anyNode.add (.filter condition)) ∧
        (Scope.new .standard).render condition.draft = (.ok text, scope') ∧
        Tree.read .tightNot text = some t ∧ t.truth spoken = .false := by
  have hreadable : settled.1.Every Expr.Readable ∧
      ∀ c ∈ settled.2, c.condition.Every Expr.Readable := by
    simp [settled, Expr.Every, Expr.Readable]
  obtain ⟨condition, hcalls, hvalue⟩ := exists_condition _ settled.1 settled.2 keywords_anyNode
  -- the condition that there is is the one that the calls put together
  have hcondition : condition = settled.2.foldl Further.onto settled.1 := by
    have hadded := Except.ok.inj (hcalls.symm.trans rfl :
      Except.ok (anyNode.add (.filter condition)) =
        .ok (anyNode.add (.filter (settled.2.foldl Further.onto settled.1))))
    simpa [add] using hadded
  have hrender : ∃ text scope', (Scope.new .standard).render condition.draft =
      (.ok text, scope') := by
    rw [hcondition]
    exact ⟨_, _, rfl⟩
  obtain ⟨text, scope', hrender⟩ := hrender
  obtain ⟨-, hread⟩ := hvalue fun e => spoken (e.tree scope'.names)
  obtain ⟨-, t, ht, hw⟩ := hread .tightNot _ _ text hreadable.1 hreadable.2 hrender
    fun a b _ _ hab => congrArg spoken hab
  refine ⟨keywords_anyNode, condition, text, scope', t, hcalls, hrender, ht,
    (hw spoken fun _ _ => rfl).trans ?_⟩
  simp [settled, Further.value, Further.connective, Expr.truth, Expr.tree, Value.tree, spoken,
    Connective.all, Connective.apply, Connective.unit, Truth.and, Truth.or, Truth.xor]

/-! ## Reserved words

A function may have the name of an operator, and then its call is read as the operator. So the
text of a condition can say something else than the condition, and the result needs the condition
on names. -/

/-- A call of a function by a reserved word. -/
def negation : Expr := .call "NOT" false [.literal (.boolean true)]

/-- A tree is a call. -/
def calling : Tree → Truth
  | .call .. => .true
  | _ => .false

/-- Its tokens are those of a negation, so they are read as one. -/
theorem read_negation {n : Names} {text : String}
    (hscan : scan text.toList = some (negation.tokens n)) :
    Tree.read .tightNot text = some (.not (.literal (.boolean true))) := by
  -- the name of the function is the keyword, and its brackets are those of an operand
  have htokens : negation.tokens n = Token.keyword "NOT" ::
      Token.parensIf true ((Expr.literal (.boolean true)).tokens n) := by
    simp [negation, Expr.tokens, Value.tokens, Token.commas]
    rfl
  have hlegible : (Expr.literal (.boolean true)).Every Expr.Legible := by
    have hsound : Draft.Sound (Value.boolean true).draft := by
      simp [Draft.Sound, Value.draft, Draft.word, Piece.isFault]
    rw [Expr.Every]
    exact ⟨trivial, hsound⟩
  have hoperand : Grammar.tightNot.parseAt .not
      (Token.parensIf true ((Expr.literal (.boolean true)).tokens n) ++ []) =
        some ((Expr.literal (.boolean true)).tree n, []) :=
    Expr.parseAt_operand (Expr.parses .tightNot n _ hlegible).closed (by simp) (stops_nil _ _)
  have hnot : Grammar.tightNot.parseAt .not (negation.tokens n) =
      some (.not (.literal (.boolean true)), []) := by
    rw [List.append_nil, Expr.tree, Value.tree] at hoperand
    rw [htokens, Grammar.parseAt, Token.readWord_of_isWord (by decide)]
    exact congrArg (Option.bind · _) hoperand
  -- read at its own level, and so at the loosest one
  have hor := Grammar.parseAt_of_tighter (p := .or) hnot (Nat.zero_le _) (stops_nil _ _)
    fun hlt => absurd hlt (Nat.lt_irrefl _)
  rw [Tree.read, hscan]
  simp only [Option.bind_eq_bind, Option.bind_some, hor]

/-- A call of a function by the word `NOT` is a condition like any other, but its text is read as a
negation. -/
theorem misread_negation :
    anyNode.keywords ++ [.filter] ∈ ClauseOrder.statement.matches' ∧
      negation.Every (fun e => ∀ op es, e = .group op es → 2 ≤ es.length) ∧
      [Call.whereAll negation].foldlM call anyNode = .ok (anyNode.add (.filter negation)) ∧
      ∃ text scope' v,
        (Scope.new .standard).render negation.draft = (.ok text, scope') ∧
          (∀ a b : Expr, a.Simple → b.Simple →
              a.tree scope'.names = b.tree scope'.names → v a = v b) ∧
          (∃ w, Expr.Agrees scope'.names v w) ∧
          ¬∃ t, Tree.read .tightNot text = some t ∧
            ∀ w, Expr.Agrees scope'.names v w → t.truth w = negation.truth v := by
  have hnamed : negation.Every Expr.Named := by
    have hdotted : Name.isDotted "NOT" = true := by decide
    simp [negation, Expr.Every, Expr.Named, hdotted]
  have hrender : ∃ text scope', (Scope.new .standard).render negation.draft =
      (.ok text, scope') := ⟨_, _, rfl⟩
  obtain ⟨text, scope', hrender⟩ := hrender
  refine ⟨keywords_anyNode, by simp [negation, Expr.Every], rfl, text, scope',
    fun e => calling (e.tree scope'.names), hrender, fun a b _ _ hab => congrArg calling hab,
    ⟨calling, fun _ _ => rfl⟩, ?_⟩
  have hread := read_negation (Expr.scan_render hnamed hrender)
  -- the valuation tells calls from everything else, and what is read is no call
  rintro ⟨t, ht, hvalue⟩
  obtain rfl := Option.some.inj (hread.symm.trans ht)
  have hfalse := hvalue calling fun _ _ => rfl
  simp [Tree.truth, calling, negation, Expr.truth, Expr.tree] at hfalse

end Statement

end GraphQuery
