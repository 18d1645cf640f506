import GraphQuery.Proofs.Parser.Beginning
import GraphQuery.Proofs.Parser.Levels
import GraphQuery.Proofs.Print.TwoPass

set_option autoImplicit false

/-! # Reading back what was printed

Reading the tokens of an expression gives its tree, in both grammars: the brackets that are printed
are the ones that both need. The induction is over the expression and carries three statements
(`Expr.Parses`): how the expression is read at every level that it fits, how a chain of arithmetic
operators goes on behind it, and how a group goes on behind it. The last two are needed because the
left part of a chain and an operand that is spliced into its group are no expressions of their own
for the reader.
-/

namespace GraphQuery

/-! ## Values

An inline value is read at the level of atoms, lists and maps included. The proof is by induction
on the value, and the hypothesis is for every text that may follow. -/

namespace Value

theorem readsAs_of_atom {g : Grammar} {v : Value} (h : Draft.Sound v.draft)
    (hatom : ∀ rest, Stops g .atom rest → g.parseAtom (v.tokens ++ rest) = some (v.tree, rest)) :
    Grammar.ReadsAs g v.tokens v.tree where
  leads := by
    obtain ⟨first, others, hfirst, hleads, -⟩ := v.begins_tokens h True
    exact ⟨first, others, hfirst, hleads⟩
  parse rest hrest := by
    have hread := hatom rest (hrest.mono (Nat.zero_le _))
    have hown : g.parseAt .atom (v.tokens ++ rest) = some (v.tree, rest) := by
      rw [Grammar.parseAt, hread]
    refine Grammar.parseAt_of_tighter hown (Nat.zero_le _) hrest ?_
    exact fun _ => (v.begins_tokens h True).not_isWord trivial

/-- The tokens of a value are read as its tree. -/
theorem parseAtom_tokens (g : Grammar) (v : Value) (h : Draft.Sound v.draft) :
    ∀ rest, Stops g .atom rest → g.parseAtom (v.tokens ++ rest) = some (v.tree, rest) := by
  induction v with
  | null =>
      intro rest _
      rw [tokens, tree, List.singleton_append, Token.keyword, Grammar.parseAtom]
      rfl
  | boolean b =>
      intro rest _
      rw [tokens, tree, List.singleton_append, Token.keyword, Grammar.parseAtom]
      cases b <;> rfl
  | integer n =>
      intro rest _
      rw [tokens, tree, List.singleton_append, Grammar.parseAtom,
        Number.Literal.decode_integerNumeral]
      rfl
  | float x =>
      intro rest _
      -- only a finite number has a numeral
      have hx : x.isFinite = true := by
        by_contra hx
        simp [draft, hx, noLiteral, Piece.isFault] at h
      rw [tokens, tree, List.singleton_append, Grammar.parseAtom,
        Number.Literal.decode_floatNumeral hx]
      rfl
  | string s => intro rest _; rw [tokens, tree, List.singleton_append, Grammar.parseAtom]
  | list items ih =>
      intro rest _
      rw [draft, draftItems_eq_map] at h
      rw [tokens, tree, Token.brackets, List.cons_append, List.append_assoc,
        List.singleton_append, Grammar.parseAtom, Grammar.parseItems_commas (Or.inl rfl)]
      · rfl
      · intro v hv
        have hv' := h.of_brackets.of_commas (List.mem_map_of_mem hv)
        exact readsAs_of_atom hv' (ih v hv hv')
  | map entries ih =>
      intro rest _
      rw [draft, draftEntries_eq_map] at h
      rw [tokens, tree, Token.braces, List.cons_append, List.append_assoc,
        List.singleton_append, Grammar.parseAtom, Grammar.parseEntries_commas]
      · rfl
      · intro e he
        have he' := (h.of_braces.of_commas (List.mem_map_of_mem he)).of_entry
        exact readsAs_of_atom he' (ih e he he')
  | bytes data => simp [draft, noLiteral, Piece.isFault] at h

end Value

/-! ## How an expression is read

The last two statements follow from the first, except for chains and for groups of the
connective, and the first follows from how the expression is read at its own level. So an atom
only has to be read as an atom. -/

namespace Expr

variable {g : Grammar} {n : Names} {e : Expr}

/-- What is read of an expression wherever it is printed. -/
structure Parses (g : Grammar) (n : Names) (e : Expr) : Prop where
  /-- At a level that the expression fits it is read as its tree. -/
  closed : ∀ p rest, g.rank p ≤ g.rank e.precedence → Stops g p rest →
    g.parseAt p (e.tokens n ++ rest) = some (e.tree n, rest)
  /-- A chain goes on behind the expression. -/
  chained : ∀ (op : Arithmetic) rest, g.rank op.precedence ≤ g.rank e.precedence →
    Stops g (g.below op.precedence) rest →
    g.parseAt op.precedence (e.tokens n ++ rest) =
      g.parseChain op.precedence (e.tree n) rest
  /-- A group goes on behind the operands that the expression gives to it. -/
  grouped : ∀ (op : Connective) rest, Stops g (g.below op.precedence) rest →
    g.parseOperands op (Token.parensIf (e.needsParensInGroup op) (e.tokens n) ++ rest) =
      (g.parseMore op rest).map fun r => ((e.tree n).spliced op ++ r.1, r.2)

/-- An expression that is read at its own level is read at every level that it fits. -/
theorem closed_of_own (h : e.Every Legible)
    (hown : ∀ rest, Stops g e.precedence rest →
      g.parseAt e.precedence (e.tokens n ++ rest) = some (e.tree n, rest))
    (p : Precedence) (rest : List Token) (hp : g.rank p ≤ g.rank e.precedence)
    (hrest : Stops g p rest) :
    g.parseAt p (e.tokens n ++ rest) = some (e.tree n, rest) :=
  Grammar.parseAt_of_tighter (hown rest (hrest.mono hp)) hp hrest fun hlt =>
    (e.begins_tokens n h).not_isWord (Precedence.isTight_of_rank hlt)

/-- An operand is read at a level if it is in brackets where it does not fit. -/
theorem parseAt_operand
    (hclosed : ∀ p rest, g.rank p ≤ g.rank e.precedence → Stops g p rest →
      g.parseAt p (e.tokens n ++ rest) = some (e.tree n, rest))
    {needed : Bool} {q : Precedence} {rest : List Token}
    (hfit : needed = false → g.rank q ≤ g.rank e.precedence) (hrest : Stops g q rest) :
    g.parseAt q (Token.parensIf needed (e.tokens n) ++ rest) = some (e.tree n, rest) := by
  cases needed with
  | false => exact hclosed q rest (hfit rfl) hrest
  | true =>
      have hinner := hclosed .or (.mark .parenClose :: rest) (Nat.zero_le _)
        (stops_of_level?_eq_none rfl _ _ _)
      have hatom : g.parseAt .atom (Token.parens (e.tokens n) ++ rest) =
          some (e.tree n, rest) := by
        rw [Grammar.parseAt, Grammar.parseAtom_parens hinner]
      refine Grammar.parseAt_of_tighter hatom (g.rank_le_atom q) hrest fun _ t ht => ?_
      obtain rfl := Option.some.inj ht
      rfl

theorem chained_of_closed
    (hclosed : ∀ p rest, g.rank p ≤ g.rank e.precedence → Stops g p rest →
      g.parseAt p (e.tokens n ++ rest) = some (e.tree n, rest))
    (op : Arithmetic) (rest : List Token) (hop : op.precedence ≠ e.precedence)
    (hfit : g.rank op.precedence ≤ g.rank e.precedence)
    (hrest : Stops g (g.below op.precedence) rest) :
    g.parseAt op.precedence (e.tokens n ++ rest) =
      g.parseChain op.precedence (e.tree n) rest := by
  have hbelow := g.rank_below op.precedence_ne.2.2
  -- the expression is tighter than the chain, so it is read one level below
  have hlt : g.rank op.precedence ≠ g.rank e.precedence := fun h => hop (Grammar.rank_inj h)
  exact Grammar.parseAt_chain op (hclosed _ rest (by omega) hrest)

/-- What is no group of a connective binds tighter than its operands need to. -/
theorem rank_below_connective_le {op : Connective} (h : ∀ es, e ≠ .group op es)
    (hneeded : e.needsParensInGroup op = false) :
    g.rank (g.below op.precedence) ≤ g.rank e.precedence := by
  cases e with
  | group op' es =>
      have hop : op' = op := by simpa [needsParensInGroup] using hneeded
      exact absurd (by rw [hop]) (h es)
  | arith op' l r => cases g <;> cases op <;> cases op' <;> exact Nat.le_of_ble_eq_true rfl
  | _ => cases g <;> cases op <;> exact Nat.le_of_ble_eq_true rfl

theorem grouped_of_closed
    (hclosed : ∀ p rest, g.rank p ≤ g.rank e.precedence → Stops g p rest →
      g.parseAt p (e.tokens n ++ rest) = some (e.tree n, rest))
    (op : Connective) (rest : List Token) (hop : ∀ es, e ≠ .group op es)
    (hrest : Stops g (g.below op.precedence) rest) :
    g.parseOperands op (Token.parensIf (e.needsParensInGroup op) (e.tokens n) ++ rest) =
      (g.parseMore op rest).map fun r => ((e.tree n).spliced op ++ r.1, r.2) := by
  rw [Grammar.parseOperands, parseAt_operand hclosed (rank_below_connective_le hop) hrest,
    spliced_tree_of_not_group hop]
  simp only [Option.bind_eq_bind, Option.bind_some]
  cases g.parseMore op rest <;> rfl

/-- An expression that is no chain and no group is read everywhere if it is read at its own
level. -/
theorem Parses.of_own (h : e.Every Legible)
    (harith : ∀ op : Arithmetic, op.precedence ≠ e.precedence) (hgroup : ∀ op es, e ≠ .group op es)
    (hown : ∀ rest, Stops g e.precedence rest →
      g.parseAt e.precedence (e.tokens n ++ rest) = some (e.tree n, rest)) :
    Parses g n e where
  closed := closed_of_own h hown
  chained op rest := chained_of_closed (closed_of_own h hown) op rest (harith op)
  grouped op rest := grouped_of_closed (closed_of_own h hown) op rest (hgroup op)

/-- An atom is read everywhere if it is read as an atom. -/
theorem Parses.of_atom (h : e.Every Legible) (hprec : e.precedence = .atom)
    (hown : ∀ rest, Stops g .atom rest →
      g.parseAtom (e.tokens n ++ rest) = some (e.tree n, rest)) : Parses g n e := by
  refine of_own h (fun op => ?_) (fun op es he => ?_) fun rest hrest => ?_
  · rw [hprec]
    exact op.precedence_ne.2.2
  · rw [he] at hprec
    cases op <;> exact Precedence.noConfusion hprec
  · rw [hprec] at hrest ⊢
    rw [Grammar.parseAt, hown rest hrest]

theorem Parses.readsAs (h : e.Every Legible) (he : Parses g n e) :
    Grammar.ReadsAs g (e.tokens n) (e.tree n) where
  leads := by
    obtain ⟨first, others, hfirst, hleads, -⟩ := e.begins_tokens n h
    exact ⟨first, others, hfirst, hleads⟩
  parse rest hrest := he.closed .or rest (Nat.zero_le _) hrest

/-! ### Atoms -/

theorem parses_var (v : Variable) : Parses g n (.var v) := by
  refine Parses.of_atom (by rw [Every]; exact ⟨trivial, trivial⟩) rfl fun rest hrest => ?_
  rw [tokens, tree, List.singleton_append]
  exact Grammar.parseAtom_name hrest (n.var v)

theorem parses_property (v : Variable) (key : String) : Parses g n (.property v key) := by
  refine Parses.of_atom (by rw [Every]; exact ⟨trivial, trivial⟩) rfl fun rest hrest => ?_
  rw [tokens, tree, List.cons_append, List.cons_append, List.singleton_append]
  exact Grammar.parseAtom_property hrest (n.var v) key

theorem parses_param (p : Param) : Parses g n (.param p) := by
  refine Parses.of_atom (by rw [Every]; exact ⟨trivial, trivial⟩) rfl fun rest _ => ?_
  rw [tokens, tree, List.cons_append, List.singleton_append, Token.ofBinding, Grammar.parseAtom]

theorem parses_literal {value : Value} (h : (Expr.literal value).Every Legible) :
    Parses g n (.literal value) := by
  refine Parses.of_atom h rfl fun rest hrest => ?_
  rw [tokens, tree]
  exact value.parseAtom_tokens g h.self.2 rest hrest

theorem parses_list {items : List Expr} (h : (Expr.list items).Every Legible)
    (ih : ∀ e ∈ items, Grammar.ReadsAs g (e.tokens n) (e.tree n)) : Parses g n (.list items) := by
  refine Parses.of_atom h rfl fun rest _ => ?_
  rw [tokens, tree, Token.brackets, List.cons_append, List.append_assoc, List.singleton_append,
    Grammar.parseAtom, Grammar.parseItems_commas (Or.inl rfl) ih]
  rfl

theorem parses_map {entries : List (String × Expr)} (h : (Expr.map entries).Every Legible)
    (ih : ∀ e ∈ entries, Grammar.ReadsAs g (e.2.tokens n) (e.2.tree n)) :
    Parses g n (.map entries) := by
  refine Parses.of_atom h rfl fun rest _ => ?_
  rw [tokens, tree, Token.braces, List.cons_append, List.append_assoc, List.singleton_append,
    Grammar.parseAtom, Grammar.parseEntries_commas ih]
  rfl

theorem parses_call {name : String} {distinct : Bool} {args : List Expr}
    (h : (Expr.call name distinct args).Every Legible)
    (ih : ∀ e ∈ args, Grammar.ReadsAs g (e.tokens n) (e.tree n)) :
    Parses g n (.call name distinct args) := by
  refine Parses.of_atom h rfl fun rest _ => ?_
  obtain ⟨p, ps, hparts⟩ := List.exists_cons_of_ne_nil (Name.dotParts_ne_nil name.toList)
  have hp := h.self.1.2 p (by rw [hparts]; exact List.mem_cons_self ..)
  -- behind the opening bracket there is a DISTINCT, or an argument, or the closing bracket
  have hargs : ∀ t ∈ (Token.commas (args.map (tokens n)) ++ .mark .parenClose :: rest).head?,
      t.isWord "distinct" = false := Grammar.not_isWord_commas (by decide) (by decide) ih
  have hdistinct : Token.readWord "distinct"
        ((if distinct then [Token.keyword "DISTINCT"] else []) ++
          (Token.commas (args.map (tokens n)) ++ .mark .parenClose :: rest)) =
      (distinct, Token.commas (args.map (tokens n)) ++ .mark .parenClose :: rest) := by
    cases distinct with
    | true => exact Token.readWord_of_isWord (by decide) _
    | false => exact Token.readWord_of_not hargs
  rw [tokens, tree, Token.function_eq hparts, Token.parens]
  simp only [List.cons_append, List.append_assoc, List.nil_append]
  rw [Token.keyword, Grammar.parseAtom, hp, Token.readCallTail_parts]
  simp only [Bool.and_false, Bool.false_eq_true, if_false, hdistinct,
    Grammar.parseItems_commas (Or.inr rfl) ih, Option.bind_eq_bind, Option.bind_some,
    Name.ofParts_dotParts hparts]

/-! ### Comparisons and negations

An operand without brackets is as tight as its place asks for in both grammars. This is where the
printer's rule, which does not know the grammar, meets the two orders of levels. -/

/-- An operand of a comparison without brackets fits the level below comparisons in both
grammars. -/
theorem rank_below_comparison_le (h : e.needsParensInComparison = false) :
    g.rank (g.below .comparison) ≤ g.rank e.precedence := by
  revert h
  unfold needsParensInComparison
  cases e.precedence <;> cases g <;> decide

theorem parses_compare {op : Comparison} {left right : Expr}
    (h : (Expr.compare op left right).Every Legible) (ihl : Parses g n left)
    (ihr : Parses g n right) : Parses g n (.compare op left right) := by
  refine Parses.of_own h (fun op => op.precedence_ne.1) (by simp) fun rest hrest => ?_
  have hlt : g.rank .comparison < g.rank (g.below .comparison) := g.rank_lt_below (by decide)
  have hleft := parseAt_operand ihl.closed rank_below_comparison_le
    (op.stops_tokens hlt (Token.parensIf right.needsParensInComparison (right.tokens n) ++ rest))
  have hright := parseAt_operand ihr.closed rank_below_comparison_le (hrest.mono (Nat.le_of_lt hlt))
  rw [tokens, tree, Token.binary, List.append_assoc, List.append_assoc, precedence, Grammar.parseAt,
    hleft]
  simp only [Option.bind_eq_bind, Option.bind_some, op.read_tokens, hright]

theorem parses_isNull {operand : Expr} {negated : Bool}
    (h : (Expr.isNull operand negated).Every Legible) (ih : Parses g n operand) :
    Parses g n (.isNull operand negated) := by
  refine Parses.of_own h (fun op => op.precedence_ne.1) (by simp) fun rest _ => ?_
  have hlt : g.rank .comparison < g.rank (g.below .comparison) := g.rank_lt_below (by decide)
  have hoperand := parseAt_operand ih.closed rank_below_comparison_le
    (Token.stops_isNullWords negated hlt rest)
  obtain ⟨hnone, hnull⟩ := Token.readIsNull_words negated rest
  rw [tokens, tree, List.append_assoc, precedence, Grammar.parseAt]
  rw [Token.isNullWords] at hoperand hnone hnull
  rw [hoperand]
  simp only [Option.bind_eq_bind, Option.bind_some, hnone, hnull]

/-- An operand of `NOT` without brackets fits the level of `NOT` in both grammars. -/
theorem rank_not_le (h : decide (e.precedence < .not) = false) :
    g.rank .not ≤ g.rank e.precedence := by
  revert h
  cases e.precedence <;> cases g <;> decide

theorem parses_not {operand : Expr} (h : (Expr.not operand).Every Legible)
    (ih : Parses g n operand) : Parses g n (.not operand) := by
  refine Parses.of_own h (fun op => op.precedence_ne.2.1) (by simp) fun rest hrest => ?_
  have hoperand := parseAt_operand ih.closed rank_not_le hrest
  rw [tokens, tree, List.cons_append, precedence, Grammar.parseAt,
    Token.readWord_of_isWord (by decide)]
  simp only [Option.bind_eq_bind, hoperand, Option.bind_some]

/-! ### Arithmetic

A chain is read from left to right, so the left operand of the printed expression is itself a
chain when it has the same level. The right operand gets brackets then. -/

theorem rank_arithmetic_le {op : Arithmetic} (h : decide (e.precedence < op.precedence) = false) :
    g.rank op.precedence ≤ g.rank e.precedence := by
  revert h
  cases e.precedence <;> cases op <;> cases g <;> decide

theorem rank_below_arithmetic_le {op : Arithmetic}
    (h : decide (e.precedence ≤ op.precedence) = false) :
    g.rank (g.below op.precedence) ≤ g.rank e.precedence := by
  revert h
  cases e.precedence <;> cases op <;> cases g <;> decide

/-- The left part of a chain is read first, and the chain goes on with the operator behind it. -/
theorem chained_arith {op : Arithmetic} {left right : Expr} (ihl : Parses g n left)
    (ihr : Parses g n right) (rest : List Token) (hrest : Stops g (g.below op.precedence) rest) :
    g.parseAt op.precedence ((Expr.arith op left right).tokens n ++ rest) =
      g.parseChain op.precedence ((Expr.arith op left right).tree n) rest := by
  have hlt : g.rank op.precedence < g.rank (g.below op.precedence) :=
    g.rank_lt_below op.precedence_ne.2.2
  have hstops : ∀ rest, Stops g (g.below op.precedence) (.mark op.mark :: rest) :=
    stops_cons op.level?_mark hlt
  have hright := parseAt_operand ihr.closed rank_below_arithmetic_le hrest
  have hleft : ∀ rest, Stops g (g.below op.precedence) rest →
      g.parseAt op.precedence
        (Token.parensIf (left.precedence < op.precedence) (left.tokens n) ++ rest) =
      g.parseChain op.precedence (left.tree n) rest := by
    -- in brackets the left part is an operand, and without them it is the start of the chain
    intro rest hrest
    cases hneeded : decide (left.precedence < op.precedence) with
    | false => exact ihl.chained op rest (rank_arithmetic_le hneeded) hrest
    | true => exact Grammar.parseAt_chain op (parseAt_operand ihl.closed (by simp) hrest)
  rw [tokens, tree, Token.binary, List.append_assoc, List.append_assoc, List.singleton_append,
    hleft _ (hstops _), Grammar.parseChain, op.read_mark]
  simp only [Option.bind_eq_bind, hright, Option.bind_some]

theorem parses_arith {op : Arithmetic} {left right : Expr}
    (h : (Expr.arith op left right).Every Legible) (ihl : Parses g n left)
    (ihr : Parses g n right) : Parses g n (.arith op left right) := by
  have hown : ∀ rest, Stops g op.precedence rest →
      g.parseAt op.precedence ((Expr.arith op left right).tokens n ++ rest) =
        some ((Expr.arith op left right).tree n, rest) := by
    intro rest hrest
    have hbelow : g.rank op.precedence ≤ g.rank (g.below op.precedence) :=
      Nat.le_of_lt (g.rank_lt_below op.precedence_ne.2.2)
    rw [chained_arith ihl ihr rest (hrest.mono hbelow), Grammar.parseChain_of_stops hrest]
  have hclosed := closed_of_own h hown
  refine ⟨hclosed, fun op' rest hop' hrest => ?_, fun op' rest => ?_⟩
  · -- a chain of the same level takes this one up; for a tighter one it would be in brackets
    by_cases hlevel : op'.precedence = op.precedence
    · rw [hlevel] at hrest ⊢
      exact chained_arith ihl ihr rest hrest
    · exact chained_of_closed hclosed op' rest hlevel hop' hrest
  · exact grouped_of_closed hclosed op' rest (by simp)

/-! ### Groups

An operand that is a group of the same connective is printed without brackets. For the reader its
operands are operands of the group around it, which is what splicing says. -/

/-- The operands of a group are read one after the other, each with the operands that it gives. -/
theorem grouped_operands (op : Connective) {es : List Expr} (hne : es ≠ [])
    (h : ∀ e ∈ es, Parses g n e) (rest : List Token)
    (hrest : Stops g (g.below op.precedence) rest) :
    g.parseOperands op ([Token.keyword op.text].intercalate
        (es.map fun e => Token.parensIf (e.needsParensInGroup op) (e.tokens n)) ++ rest) =
      (g.parseMore op rest).map fun r =>
        ((es.flatMap fun e => (e.tree n).spliced op) ++ r.1, r.2) := by
  induction es with
  | nil => exact absurd rfl hne
  | cons e es ih =>
      obtain ⟨he, hes⟩ := List.forall_mem_cons.mp h
      cases es with
      | nil =>
          rw [List.map_singleton, List.intercalate_singleton, he.grouped op rest hrest]
          simp
      | cons e' es =>
          have hmore := ih (List.cons_ne_nil _ _) hes
          -- the connective goes on with the group and with no operand of it
          have hlt : g.rank op.precedence < g.rank (g.below op.precedence) :=
            g.rank_lt_below op.precedence_ne_atom
          have hstops : ∀ rest, Stops g (g.below op.precedence) (.keyword op.text :: rest) :=
            stops_cons op.level?_text hlt
          rw [List.map_cons] at hmore
          rw [List.map_cons, List.map_cons, List.intercalate_cons_cons, List.append_assoc,
            List.append_assoc, List.singleton_append, he.grouped op _ (hstops _), Grammar.parseMore,
            Token.readWord_of_isWord op.isWord_text]
          simp only [hmore, Option.map_map, List.flatMap_cons, List.append_assoc]
          rfl

theorem parses_group {op : Connective} {es : List Expr} (h : (Expr.group op es).Every Legible)
    (ih : ∀ e ∈ es, Parses g n e) : Parses g n (.group op es) := by
  have hne : es ≠ [] := by
    rintro rfl
    exact absurd h.self.1 (by simp [Readable])
  have hgrouped : ∀ rest, Stops g (g.below op.precedence) rest →
      g.parseOperands op ((Expr.group op es).tokens n ++ rest) =
        (g.parseMore op rest).map fun r =>
          ((es.flatMap fun e => (e.tree n).spliced op) ++ r.1, r.2) := by
    rw [tokens]
    exact grouped_operands op hne ih
  have hown : ∀ rest, Stops g op.precedence rest →
      g.parseAt op.precedence ((Expr.group op es).tokens n ++ rest) =
        some ((Expr.group op es).tree n, rest) := by
    intro rest hrest
    have hbelow : g.rank op.precedence ≤ g.rank (g.below op.precedence) :=
      Nat.le_of_lt (g.rank_lt_below op.precedence_ne_atom)
    have hlength := two_le_length_spliced n (h.mono fun e he => he.1)
    have hparse := hgrouped rest (hrest.mono hbelow)
    rw [Grammar.parseMore_of_stops hrest, Option.map_some, List.append_nil] at hparse
    have hgroup : g.parseGroup op ((Expr.group op es).tokens n ++ rest) =
        some ((Expr.group op es).tree n, rest) := by
      rw [Grammar.parseGroup, hparse, tree]
      simp only [Option.bind_eq_bind, Option.bind_some, Tree.joined_of_two_le hlength]
    cases op <;> (simp only [Connective.precedence]; rw [Grammar.parseAt]; exact hgroup)
  have hclosed := closed_of_own h hown
  refine ⟨hclosed, fun op' rest hop' => ?_, fun op' rest hrest => ?_⟩
  · -- no arithmetic level is as loose as a group
    refine absurd hop' ?_
    rw [precedence]
    cases op <;> cases op' <;> cases g <;> decide
  · -- a group of the same connective is spliced in, any other one is an operand
    by_cases hop : op = op'
    · subst hop
      have hneeded : (Expr.group op es).needsParensInGroup op = false := by
        simp [needsParensInGroup]
      rw [hneeded, tree, Tree.spliced_group]
      exact hgrouped rest hrest
    · exact grouped_of_closed hclosed op' rest (by simp [hop]) hrest

/-! ### All expressions

One case for each constructor, each closed by the lemma for it. -/

/-- **Every expression that can be read back is read as its tree** wherever it is printed. -/
theorem parses (g : Grammar) (n : Names) (e : Expr) (h : e.Every Legible) : Parses g n e := by
  induction e with
  | var v => exact parses_var v
  | property v key => exact parses_property v key
  | param p => exact parses_param p
  | literal value => exact parses_literal h
  | list items ih =>
      have hitems := h
      rw [Every] at hitems
      exact parses_list h fun e he => (ih e he (hitems.2 e he)).readsAs (hitems.2 e he)
  | map entries ih =>
      have hentries := h
      rw [Every] at hentries
      exact parses_map h fun e he => (ih e he (hentries.2 e he)).readsAs (hentries.2 e he)
  | compare op left right ihl ihr =>
      have hoperands := h
      rw [Every] at hoperands
      exact parses_compare h (ihl hoperands.2.1) (ihr hoperands.2.2)
  | isNull operand negated ih =>
      have hoperand := h
      rw [Every] at hoperand
      exact parses_isNull h (ih hoperand.2)
  | arith op left right ihl ihr =>
      have hoperands := h
      rw [Every] at hoperands
      exact parses_arith h (ihl hoperands.2.1) (ihr hoperands.2.2)
  | group op operands ih =>
      have hoperands := h
      rw [Every] at hoperands
      exact parses_group h fun e he => ih e he (hoperands.2 e he)
  | not operand ih =>
      have hoperand := h
      rw [Every] at hoperand
      exact parses_not h (ih hoperand.2)
  | call name distinct args ih =>
      have hargs := h
      rw [Every] at hargs
      exact parses_call h fun e he => (ih e he (hargs.2 e he)).readsAs (hargs.2 e he)

theorem readsAs (g : Grammar) (n : Names) {e : Expr} (h : e.Every Legible) :
    Grammar.ReadsAs g (e.tokens n) (e.tree n) :=
  (parses g n e h).readsAs h

/-- The text of an expression scans to the tokens of the expression with its names. -/
theorem scan_render {s s' : Scope} {text : String} (hnamed : e.Every Named)
    (h : s.render e.draft = (.ok text, s')) : scan text.toList = some (e.tokens s'.names) := by
  obtain ⟨-, -, htext⟩ := render_ok h
  rw [htext]
  exact (e.scans s'.names hnamed [] clear_nil).scan_eq

/-- **Reading the text of an expression recovers the expression**, whatever the scope was before and
with `NOT` in either of its two places. -/
theorem read_render (g : Grammar) {s s' : Scope} {e : Expr} {text : String}
    (hreadable : e.Every Readable) (h : s.render e.draft = (.ok text, s')) :
    Tree.read g text = some (e.tree s'.names) := by
  obtain ⟨-, hsound, htext⟩ := render_ok h
  have hscan : scan text.toList = some (e.tokens s'.names) := by
    rw [htext]
    exact (e.scans s'.names (hreadable.mono fun _ he => he.named) [] clear_nil).scan_eq
  have hread := (readsAs g s'.names (every_legible hreadable hsound)).parse [] (stops_nil g .or)
  rw [List.append_nil] at hread
  rw [Tree.read, hscan]
  simp only [Option.bind_eq_bind, Option.bind_some, hread]

/-- A condition with a negated comparison, a difference on the right of a difference, and a
disjunction in a disjunction. -/
def condition : Expr :=
  let v : Variable := ⟨1, .node, none⟩
  let difference : Expr := .arith .subtract (.literal (.integer (-1))) (.param ⟨2, none, .null⟩)
  .group .or [
    .not (.compare .less (.arith .subtract (.property v "a") difference) (.literal (.integer 2))),
    .group .or [.isNull (.var v) true, .call "size" false [.literal (.list [.null])]]]

theorem read_render_condition :
    condition.Every Readable ∧ ∃ text s',
      (Scope.new .standard).render condition.draft = (.ok text, s') ∧
        Tree.read .tightNot text = some (condition.tree s'.names) ∧
        Tree.read .looseNot text = some (condition.tree s'.names) := by
  have hsize : Name.isDotted "size" = true ∧ ∀ part ∈ Name.dotParts "size".toList,
      Name.isReserved (String.ofList part) = false := by decide
  have hreadable : condition.Every Readable := by
    simp only [condition, Every, Readable, List.forall_mem_cons, List.not_mem_nil,
      List.length_cons, List.length_nil]
    exact ⟨by decide, ⟨trivial, trivial, ⟨trivial, trivial, trivial, trivial, trivial⟩, trivial⟩,
      ⟨by decide, ⟨trivial, trivial⟩, ⟨hsize, trivial, by simp⟩, by simp⟩, by simp⟩
  have hrender : ∃ text s', (Scope.new .standard).render condition.draft = (.ok text, s') :=
    ⟨_, _, rfl⟩
  obtain ⟨text, s', h⟩ := hrender
  exact ⟨hreadable, text, s', h, read_render .tightNot hreadable h,
    read_render .looseNot hreadable h⟩

end Expr

end GraphQuery
