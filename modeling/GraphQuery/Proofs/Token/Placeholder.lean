import GraphQuery.Proofs.Token.Statement

set_option autoImplicit false

/-! # Placeholders

A name right behind a dollar sign is a placeholder, which the value of a parameter takes when the
query is run. The placeholders in the tokens of a statement are the names of the parameters that it
mentions, from left to right.
-/

namespace GraphQuery

namespace Token

/-- The names that stand right behind a dollar sign. -/
def placeholders : List Token → List String
  | .mark .dollar :: .name raw _ :: ts => raw :: placeholders ts
  | _ :: ts => placeholders ts
  | [] => []

/-- Tokens with some placeholders, whatever follows them. -/
def Holds (ts : List Token) (raws : List String) : Prop :=
  ∀ us, placeholders (ts ++ us) = raws ++ placeholders us

variable {ts us : List Token} {raws raws' : List String}

theorem placeholders_cons {t : Token} (h : t ≠ .mark .dollar) (ts : List Token) :
    placeholders (t :: ts) = placeholders ts := by
  cases t with
  | mark m => cases m <;> first | rfl | exact absurd rfl h
  | _ => rfl

namespace Holds

theorem nil : Holds [] [] := fun _ => rfl

theorem append (h : Holds ts raws) (h' : Holds us raws') : Holds (ts ++ us) (raws ++ raws') := by
  intro vs
  rw [List.append_assoc, h, h', List.append_assoc]

theorem cons {t : Token} (ht : t ≠ .mark .dollar) (h : Holds ts raws) : Holds (t :: ts) raws :=
  fun vs => (placeholders_cons ht _).trans (h vs)

/-- Tokens without a dollar sign hold no placeholder. -/
theorem plain (h : ∀ t ∈ ts, t ≠ .mark .dollar) : Holds ts [] := by
  induction ts with
  | nil => exact nil
  | cons t ts ih =>
      obtain ⟨ht, hts⟩ := List.forall_mem_cons.mp h
      exact (ih hts).cons ht

theorem param (raw : String) : Holds [.mark .dollar, .ofBinding raw] [raw] := fun _ => rfl

/-! ## Layout

The lemmas mirror those on the scanning of layouts. What tokens hold does not depend on what
follows, as a dollar sign and its name are always together in one part. -/

theorem additive : Additive Holds := ⟨nil, append⟩

theorem comma : Holds [.mark .comma] [] := nil.cons (by simp)

theorem commas {α : Type} {f : α → List Token} {g : α → List String} {xs : List α}
    (h : ∀ x ∈ xs, Holds (f x) (g x)) : Holds (Token.commas (xs.map f)) (xs.flatMap g) :=
  additive.intercalate comma h

theorem commas_nil {α : Type} {f : α → List Token} {xs : List α} (h : ∀ x ∈ xs, Holds (f x) []) :
    Holds (Token.commas (xs.map f)) [] :=
  additive.intercalate_nil comma h

/-- Tokens between two of which neither is a dollar sign. -/
theorem enclosed {o c : Token} (ho : o ≠ .mark .dollar) (hc : c ≠ .mark .dollar)
    (h : Holds ts raws) : Holds (o :: (ts ++ [c])) raws := by
  have hclose : Holds [c] [] := nil.cons hc
  have hopen := (h.append hclose).cons ho
  rwa [List.append_nil] at hopen

theorem parens (h : Holds ts raws) : Holds (Token.parens ts) raws := h.enclosed nofun nofun

theorem parensIf (needed : Bool) (h : Holds ts raws) : Holds (Token.parensIf needed ts) raws := by
  cases needed with
  | false => exact h
  | true => exact h.parens

theorem brackets (h : Holds ts raws) : Holds (Token.brackets ts) raws := h.enclosed nofun nofun

theorem braces (h : Holds ts raws) : Holds (Token.braces ts) raws := h.enclosed nofun nofun

theorem binary {op : List Token} (hl : Holds ts raws) (hop : Holds op [])
    (hr : Holds us raws') : Holds (Token.binary ts op us) (raws ++ raws') :=
  hl.append (hop.append hr)

theorem entry (key : String) (h : Holds ts raws) : Holds (Token.entry key ts) raws :=
  (h.cons (by simp)).cons (by simp [ofName])

theorem words (ws : List String) : Holds (Token.words ws) [] := by
  refine plain fun t ht => ?_
  obtain ⟨w, -, rfl⟩ := List.mem_map.mp ht
  exact nofun

/-- A keyword that stands there or not. -/
theorem optional (given : Bool) (word : String) :
    Holds (if given then [.keyword word] else []) [] := by
  cases given with
  | false => exact nil
  | true => exact words [word]

theorem function (name : String) : Holds (Token.function name) [] := by
  have hdot : Holds [.mark .dot] [] := nil.cons (by simp)
  exact additive.intercalate_nil hdot fun part _ => words [String.ofList part]

end Holds

end Token

/-! ## Values and expressions

Only a parameter has a dollar sign in its tokens. A string or a name that holds one is still a
single token of its own kind. -/

/-- The names of the parameters among some mentions. -/
def Names.placeholders (n : Names) (ms : List Mention) : List String :=
  (ms.filterMap Mention.param?).map n.param

namespace Names

variable (n : Names)

theorem placeholders_append (ms ms' : List Mention) :
    n.placeholders (ms ++ ms') = n.placeholders ms ++ n.placeholders ms' := by
  simp [placeholders]

theorem placeholders_flatMap {α : Type} (f : α → List Mention) (xs : List α) :
    n.placeholders (xs.flatMap f) = xs.flatMap fun x => n.placeholders (f x) := by
  induction xs with
  | nil => rfl
  | cons x xs ih => rw [List.flatMap_cons, placeholders_append, ih, List.flatMap_cons]

end Names

open Token (Holds)

theorem Value.holds (v : Value) : Holds v.tokens [] := by
  induction v with
  | null | boolean b | integer n | float x | string s =>
      rw [tokens]
      exact Holds.nil.cons (by simp [Token.keyword])
  | list items ih =>
      rw [tokens]
      exact (Holds.commas_nil ih).brackets
  | map entries ih =>
      rw [tokens]
      exact (Holds.commas_nil fun e he => (ih e he).entry e.1).braces
  | bytes data =>
      rw [tokens]
      exact Holds.nil

theorem Comparison.holds (op : Comparison) : Holds op.tokens [] := by
  cases op with
  | contains | startsWith | endsWith | member => exact Holds.words _
  | _ => exact Holds.nil.cons (by simp)

/-- The placeholders in an expression are the names of the parameters that it mentions. -/
theorem Expr.holds (n : Names) (e : Expr) : Holds (e.tokens n) (n.placeholders e.mentions) := by
  induction e with
  | var v =>
      rw [tokens, mentions]
      exact Holds.nil.cons (by simp [Token.ofBinding])
  | property v key =>
      rw [tokens, mentions]
      exact ((Holds.nil.cons (by simp [Token.ofName])).cons (by simp)).cons
        (by simp [Token.ofBinding])
  | param p =>
      rw [tokens, mentions]
      exact Holds.param (n.param p)
  | literal value =>
      rw [tokens, mentions]
      exact value.holds
  | list items ih =>
      rw [tokens, mentions, n.placeholders_flatMap]
      exact (Holds.commas ih).brackets
  | map entries ih =>
      rw [tokens, mentions, n.placeholders_flatMap]
      exact (Holds.commas fun e he => (ih e he).entry e.1).braces
  | compare op left right ihl ihr =>
      rw [tokens, mentions, n.placeholders_append]
      exact (ihl.parensIf _).binary op.holds (ihr.parensIf _)
  | isNull operand negated ih =>
      rw [tokens, mentions]
      have hwhole := (ih.parensIf operand.needsParensInComparison).append
        (Holds.words (if negated then ["IS", "NOT", "NULL"] else ["IS", "NULL"]))
      rwa [List.append_nil] at hwhole
  | arith op left right ihl ihr =>
      rw [tokens, mentions, n.placeholders_append]
      have hop : Holds [.mark op.mark] [] := Holds.nil.cons (by cases op <;> simp [Arithmetic.mark])
      exact (ihl.parensIf _).binary hop (ihr.parensIf _)
  | group op operands ih =>
      rw [tokens, mentions, n.placeholders_flatMap]
      exact Holds.additive.intercalate (Holds.words [op.text]) fun e he => (ih e he).parensIf _
  | not operand ih =>
      rw [tokens, mentions]
      exact (ih.parensIf _).cons (by simp [Token.keyword])
  | call name distinct args ih =>
      rw [tokens, mentions, n.placeholders_flatMap]
      exact (Holds.function name).append
        ((Holds.optional distinct "DISTINCT").append (Holds.commas ih)).parens

/-! ## Patterns

The parameters in a pattern are those in its property values. -/

theorem Hops.holds (h : Hops) : Holds h.tokens [] := by
  unfold tokens
  refine Holds.plain ?_
  split
  · simp
  · split <;> simp [count]
  · simp [count]
  · simp [count]

theorem Properties.holds (n : Names) (ps : Properties) :
    Holds (ps.tokens n) (n.placeholders ps.mentions) := by
  unfold tokens mentions
  split
  next hps =>
      rw [List.isEmpty_iff.mp hps]
      exact Holds.nil
  · rw [n.placeholders_flatMap]
    exact (Holds.commas fun e _ => (e.2.holds n).entry e.1).braces

theorem Node.holds (n : Names) (x : Node) : Holds (x.tokens n) (n.placeholders x.mentions) := by
  have hlabels : Holds (x.labels.flatMap fun l => [.mark .colon, .ofName l]) [] := by
    refine Holds.plain fun t ht => ?_
    obtain ⟨l, -, ht⟩ := List.mem_flatMap.mp ht
    rcases List.mem_pair.mp ht with rfl | rfl <;> exact nofun
  exact ((hlabels.append (Properties.holds n x.properties)).cons (by simp [Token.ofBinding])).parens

theorem Relationship.holds (n : Names) (r : Relationship) :
    Holds (r.tokens n) (n.placeholders r.mentions) := by
  have htype : Holds (r.type?.elim [] fun type => [.mark .colon, .ofName type]) [] := by
    cases r.type? with
    | none => exact Holds.nil
    | some type => exact Holds.plain (by simp [Token.ofName])
  have hhops : Holds (r.hops?.elim [] Hops.tokens) [] := by
    cases r.hops? with
    | none => exact Holds.nil
    | some hops => exact hops.holds
  have hbody := htype.append (hhops.append (Properties.holds n r.properties))
  exact (hbody.cons (by simp [Token.ofBinding])).brackets

theorem Segment.holds (n : Names) (s : Segment) :
    Holds (s.tokens n) (n.placeholders s.mentions) := by
  rw [mentions, n.placeholders_append]
  have hafter := (s.node.holds n).cons (t := .mark s.direction.markAfter)
    (by cases s.direction <;> simp [Direction.markAfter])
  exact ((s.relationship.holds n).append hafter).cons
    (by cases s.direction <;> simp [Direction.markBefore])

theorem Pattern.holds (n : Names) (p : Pattern) :
    Holds (p.tokens n) (n.placeholders p.mentions) := by
  rw [mentions, n.placeholders_append, n.placeholders_flatMap]
  exact (p.start.holds n).append (Holds.additive.flatMap fun s _ => s.holds n)

/-! ## Clauses and statements

The order is that of the text, which is the order of the mentions. -/

theorem Alias.holds (n : Names) (a : Alias) : Holds (a.tokens n) [] :=
  Holds.plain (by simp [tokens, Token.keyword, Token.ofBinding])

theorem Item.holds (n : Names) (i : Item) : Holds (i.tokens n) (n.placeholders i.mentions) := by
  unfold tokens mentions
  rw [n.placeholders_append]
  refine (i.expr.holds n).append ?_
  cases i.shownAlias? with
  | none => exact Holds.nil
  | some a => exact a.holds n

theorem Projection.holds (n : Names) (p : Projection) :
    Holds (p.tokens n) (n.placeholders p.mentions) := by
  have hitems := Holds.commas fun (i : Item) (_ : i ∈ p.items.toList) => i.holds n
  rw [mentions, n.placeholders_flatMap]
  exact (Holds.optional p.distinct "DISTINCT").append hitems

theorem SortItem.holds (n : Names) (i : SortItem) :
    Holds (i.tokens n) (n.placeholders i.mentions) := by
  have hwhole := (i.expr.holds n).append (Holds.optional i.descending "DESC")
  rwa [List.append_nil] at hwhole

theorem Assignment.holds (n : Names) (a : Assignment) :
    Holds (a.tokens n) (n.placeholders a.mentions) := by
  have htarget : Holds [.ofBinding (n.var a.target), .mark .dot, .ofName a.key] [] :=
    Holds.plain (by simp [Token.ofBinding, Token.ofName])
  exact htarget.append ((a.value.holds n).cons (by simp))

theorem Clause.holds_body (n : Names) (c : Clause) :
    Holds (c.bodyTokens n) (n.placeholders c.mentions) := by
  cases c with
  | matching optional patterns | create patterns =>
      rw [bodyTokens, mentions, n.placeholders_flatMap]
      exact Holds.commas fun p _ => p.holds n
  | filter e | skip e | limit e => exact e.holds n
  | projecting projection | returning projection => exact projection.holds n
  | orderBy items =>
      rw [bodyTokens, mentions, n.placeholders_flatMap]
      exact Holds.commas fun i _ => i.holds n
  | unwind source target =>
      rw [bodyTokens, mentions, n.placeholders_append]
      exact (source.holds n).append (target.holds n)
  | merge pattern => exact pattern.holds n
  | set assignments =>
      rw [bodyTokens, mentions, n.placeholders_flatMap]
      exact Holds.commas fun a _ => a.holds n
  | delete detach targets =>
      have htargets : n.placeholders (targets.toList.map .var) = [] := by
        simp [Names.placeholders, Function.comp_def, Mention.param?]
      rw [bodyTokens, mentions, htargets]
      exact Holds.commas_nil fun v _ => Holds.nil.cons (by simp [Token.ofBinding])

theorem Clause.holds (n : Names) (c : Clause) : Holds (c.tokens n) (n.placeholders c.mentions) :=
  (Holds.words c.keyword.words).append (c.holds_body n)

theorem Statement.holds (n : Names) (st : Statement) :
    Holds (st.tokens n) (n.placeholders st.mentions) := by
  rw [mentions, n.placeholders_flatMap]
  exact Holds.additive.flatMap fun c _ => c.holds n

/-- **The placeholders in the tokens of a statement** are the names of the parameters that it
mentions, from left to right. -/
theorem Statement.placeholders_tokens (n : Names) (st : Statement) :
    Token.placeholders (st.tokens n) = n.placeholders st.mentions := by
  have h := st.holds n []
  rwa [List.append_nil, Token.placeholders, List.append_nil] at h

end GraphQuery
