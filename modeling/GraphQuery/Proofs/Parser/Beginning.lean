import GraphQuery.Proofs.Parser.Reading

set_option autoImplicit false

/-! # How expressions begin

The first token of an expression is none that closes a bracket or goes on with an expression, and it
is the word `NOT` only for a negation or for a group.
-/

namespace GraphQuery

/-! ## Beginnings

A reader decides by the first token whether there is an expression at all, and whether it is a
negation. Both are said of a list of tokens by `Begins`, so that they pass through brackets and
concatenation. -/

/-- A level that is tighter than `NOT` in some grammar. -/
def Precedence.isTight (p : Precedence) : Prop :=
  Grammar.looseNot.rank .not < Grammar.looseNot.rank p

theorem Precedence.isTight_of_rank {g : Grammar} {p : Precedence} (h : g.rank .not < g.rank p) :
    p.isTight := by
  revert h
  unfold isTight
  cases g <;> cases p <;> decide

/-- Tokens that begin like an expression, and without a `NOT` in front if they are tight. -/
def Begins (tight : Prop) (ts : List Token) : Prop :=
  ∃ first others, ts = first :: others ∧ first.Leads ∧ (tight → first.isWord "not" = false)

theorem Begins.append {tight : Prop} {ts : List Token} (h : Begins tight ts) (us : List Token) :
    Begins tight (ts ++ us) := by
  obtain ⟨first, others, rfl, hfirst⟩ := h
  exact ⟨first, others ++ us, rfl, hfirst⟩

theorem Begins.not_isWord {tight : Prop} {ts rest : List Token} (h : Begins tight ts)
    (htight : tight) : ∀ t ∈ (ts ++ rest).head?, t.isWord "not" = false := by
  obtain ⟨first, others, rfl, -, hnot⟩ := h
  intro t ht
  obtain rfl := Option.some.inj ht
  exact hnot htight

theorem begins_mark {m : Mark}
    (h : m = .dollar ∨ m = .parenOpen ∨ m = .bracketOpen ∨ m = .braceOpen) (tight : Prop)
    (ts : List Token) : Begins tight (.mark m :: ts) := by
  refine ⟨_, ts, rfl, ⟨?_, ?_⟩, fun _ => rfl⟩
  · intro m' hm'
    obtain rfl := Token.mark.inj hm'
    exact h
  · intro word _ hword
    exact Bool.noConfusion hword

theorem begins_unreserved {t : Token} (h : t.Unreserved) (hmark : ∀ m, t ≠ .mark m) (tight : Prop)
    (ts : List Token) : Begins tight (t :: ts) :=
  ⟨t, ts, rfl, Token.leads_of_unreserved h hmark, fun _ => h "not" (by decide)⟩

/-- In brackets an expression begins with a bracket. -/
theorem begins_parensIf {tight tight' : Prop} {needed : Bool} {ts : List Token}
    (h : Begins tight ts) (htight : needed = false → tight' → tight) :
    Begins tight' (Token.parensIf needed ts) := by
  cases needed with
  | true => exact begins_mark (by simp) tight' _
  | false =>
      obtain ⟨first, others, rfl, hfirst, hnot⟩ := h
      exact ⟨first, others, rfl, hfirst, fun ht => hnot (htight rfl ht)⟩

theorem leads_keyword {word : String}
    (h : Name.smallLetters word = "not" ∨ Name.smallLetters word = "null" ∨
      Name.smallLetters word = "true" ∨ Name.smallLetters word = "false") :
    (Token.keyword word).Leads where
  mark m hm := by simp [Token.keyword] at hm
  word word' _ hword := by
    rw [← eq_of_beq hword]
    exact h

/-! ## Values and expressions

An arithmetic expression, a comparison and a group begin as their first operand does. This
operand is in brackets, or it is tight enough not to begin with `NOT` where that matters. -/

/-- The tokens of a value begin like an expression. -/
theorem Value.begins_tokens (v : Value) (h : Draft.Sound v.draft) (tight : Prop) :
    Begins tight v.tokens := by
  cases v with
  | null =>
      rw [tokens]
      exact ⟨_, [], rfl, leads_keyword (by decide), fun _ => by decide⟩
  | boolean b =>
      rw [tokens]
      exact ⟨_, [], rfl, leads_keyword (by cases b <;> decide), fun _ => by cases b <;> decide⟩
  | integer n => rw [tokens]; exact begins_unreserved (fun _ _ => rfl) (by simp) tight []
  | float x => rw [tokens]; exact begins_unreserved (fun _ _ => rfl) (by simp) tight []
  | string s => rw [tokens]; exact begins_unreserved (fun _ _ => rfl) (by simp) tight []
  | list items => rw [tokens]; exact begins_mark (by simp) tight _
  | map entries => rw [tokens]; exact begins_mark (by simp) tight _
  | bytes data => simp [draft, noLiteral, Piece.isFault] at h

namespace Expr

theorem isTight_of_not_needsParens {e : Expr} (h : e.needsParensInComparison = false) :
    e.precedence.isTight := by
  revert h
  unfold needsParensInComparison Precedence.isTight
  cases e.precedence <;> decide

theorem isTight_of_not_lt {e : Expr} {op : Arithmetic}
    (h : decide (e.precedence < op.precedence) = false) : e.precedence.isTight := by
  revert h
  unfold Precedence.isTight
  cases e.precedence <;> cases op <;> decide

/-- The tokens of an expression begin like an expression. Only `NOT` and groups begin with the word
`NOT`. -/
theorem begins_tokens (n : Names) (e : Expr) (h : e.Every Legible) :
    Begins e.precedence.isTight (e.tokens n) := by
  induction e with
  | var v =>
      rw [tokens]
      exact begins_unreserved (Token.unreserved_ofBinding _) (by simp [Token.ofBinding]) _ _
  | property v key =>
      rw [tokens]
      exact begins_unreserved (Token.unreserved_ofBinding _) (by simp [Token.ofBinding]) _ _
  | param p => rw [tokens]; exact begins_mark (by simp) _ _
  | literal value => rw [tokens]; exact value.begins_tokens h.self.2 _
  | list items ih => rw [tokens]; exact begins_mark (by simp) _ _
  | map entries ih => rw [tokens]; exact begins_mark (by simp) _ _
  | compare op left right ihl ihr =>
      rw [Every] at h
      rw [tokens]
      exact (begins_parensIf (ihl h.2.1) fun hn _ => isTight_of_not_needsParens hn).append _
  | isNull operand negated ih =>
      rw [Every] at h
      rw [tokens]
      exact (begins_parensIf (ih h.2) fun hn _ => isTight_of_not_needsParens hn).append _
  | arith op left right ihl ihr =>
      rw [Every] at h
      rw [tokens]
      exact (begins_parensIf (ihl h.2.1) fun hn _ => isTight_of_not_lt hn).append _
  | group op operands ih =>
      have hself := h.self.1
      rw [Every] at h
      rw [tokens]
      obtain ⟨e, es, rfl⟩ :=
        List.exists_cons_of_length_pos (Nat.lt_of_lt_of_le Nat.two_pos hself)
      -- a group begins as its first operand, and it is too loose to promise more
      have htight : ¬ (Expr.group op (e :: es)).precedence.isTight := by
        rw [precedence, Precedence.isTight]
        cases op <;> decide
      have he : Begins (Expr.group op (e :: es)).precedence.isTight
          (Token.parensIf (e.needsParensInGroup op) (e.tokens n)) :=
        begins_parensIf (ih e (List.mem_cons_self ..) (h.2 e (List.mem_cons_self ..)))
          fun _ ht => absurd ht htight
      cases es with
      | nil => simpa using he
      | cons e' es =>
          rw [List.map_cons, List.map_cons, List.intercalate_cons_cons, List.append_assoc]
          exact he.append _
  | not operand ih =>
      rw [tokens]
      refine ⟨_, _, rfl, leads_keyword (by decide), fun ht => ?_⟩
      revert ht
      rw [precedence, Precedence.isTight]
      decide
  | call name distinct args ih =>
      obtain ⟨p, ps, hparts⟩ := List.exists_cons_of_ne_nil (Name.dotParts_ne_nil name.toList)
      have hp := h.self.1.2 p (by rw [hparts]; exact List.mem_cons_self ..)
      rw [tokens, Token.function_eq hparts]
      exact begins_unreserved (Token.unreserved_keyword hp) (by simp [Token.keyword]) _ _

end Expr

end GraphQuery
