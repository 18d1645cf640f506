import GraphQuery.Proofs.Token.Expr

set_option autoImplicit false

/-! # Grammars

The levels of the query language from `OR` to atoms, with `NOT` in one of two places: above the
comparisons, where the printer puts it, or below them, where the openCypher grammar puts it. Words
are keywords in every letter case unless they stand between backquotes.

`Stops g p rest` says that `rest` does not go on with an expression of the level `p`.
-/

namespace GraphQuery

/-! ## Words

A bare name may be a keyword and a name between backquotes never is. So the escaping of reserved
words is what keeps the name of a variable from being read as a keyword. -/

namespace Token

/-- Whether a token is a word in some letter case. -/
def isWord (word : String) : Token → Bool
  | .name raw false => Name.smallLetters raw == word
  | _ => false

/-- A token that is no reserved word. -/
def Unreserved (t : Token) : Prop := ∀ word ∈ Name.reservedWords, t.isWord word = false

theorem isWord_of_isReserved {raw word : String} (h : Name.isReserved raw = false)
    (hword : word ∈ Name.reservedWords) : (keyword raw).isWord word = false := by
  simp only [keyword, isWord, beq_eq_false_iff_ne, ne_eq]
  rintro rfl
  rw [Name.isReserved, List.contains_iff_mem.mpr hword] at h
  exact Bool.noConfusion h

theorem unreserved_keyword {raw : String} (h : Name.isReserved raw = false) :
    (keyword raw).Unreserved := fun _ hword => isWord_of_isReserved h hword

/-- The name of a variable or a parameter is no reserved word where it is written bare. -/
theorem unreserved_ofBinding (raw : String) : (ofBinding raw).Unreserved := by
  intro word hword
  unfold ofBinding Name.quotesBinding
  cases h : Name.isReserved raw with
  | true => rfl
  | false =>
      cases Name.isPlain raw with
      | true => exact isWord_of_isReserved h hword
      | false => rfl

/-- A token that an expression begins with: it is no closing bracket and no comma, and the only
reserved words it can be are `NOT` and those of literals. -/
structure Leads (t : Token) : Prop where
  mark : ∀ m, t = .mark m → m = .dollar ∨ m = .parenOpen ∨ m = .bracketOpen ∨ m = .braceOpen
  word : ∀ word ∈ Name.reservedWords, t.isWord word = true →
    word = "not" ∨ word = "null" ∨ word = "true" ∨ word = "false"

/-- An expression begins with no other reserved word. -/
theorem Leads.not_isWord {t : Token} (h : t.Leads) {word : String}
    (hword : word ∈ Name.reservedWords)
    (hother : word ≠ "not" ∧ word ≠ "null" ∧ word ≠ "true" ∧ word ≠ "false") :
    t.isWord word = false := by
  by_contra ht
  rcases h.word word hword (by simpa using ht) with h | h | h | h
  · exact hother.1 h
  · exact hother.2.1 h
  · exact hother.2.2.1 h
  · exact hother.2.2.2 h

theorem leads_of_unreserved {t : Token} (h : t.Unreserved) (hmark : ∀ m, t ≠ .mark m) :
    t.Leads where
  mark m hm := absurd hm (hmark m)
  word word hword ht := by
    rw [h word hword] at ht
    exact Bool.noConfusion ht

end Token

def Connective.word : Connective → String
  | .and => "and"
  | .or => "or"
  | .xor => "xor"

/-! ## Levels

The two grammars have the same levels in another order. `Grammar.below` is the next tighter level
and `Grammar.rank` counts them, from zero for the loosest. -/

/-- Where `NOT` stands among the levels. -/
inductive Grammar where
  /-- `NOT` binds tighter than comparisons. -/
  | tightNot
  /-- `NOT` binds looser than comparisons. -/
  | looseNot
deriving DecidableEq

namespace Grammar

/-- The next tighter level. -/
def below (g : Grammar) : Precedence → Precedence
  | .or => .xor
  | .xor => .and
  | .and =>
      match g with
      | .tightNot => .comparison
      | .looseNot => .not
  | .comparison =>
      match g with
      | .tightNot => .not
      | .looseNot => .additive
  | .not =>
      match g with
      | .tightNot => .additive
      | .looseNot => .comparison
  | .additive => .multiplicative
  | .multiplicative => .power
  | .power | .atom => .atom

/-- The place of a level, from the loosest to the tightest. -/
def rank (g : Grammar) : Precedence → Nat
  | .or => 0
  | .xor => 1
  | .and => 2
  | .comparison =>
      match g with
      | .tightNot => 3
      | .looseNot => 4
  | .not =>
      match g with
      | .tightNot => 4
      | .looseNot => 3
  | .additive => 5
  | .multiplicative => 6
  | .power => 7
  | .atom => 8

theorem rank_below (g : Grammar) {p : Precedence} (h : p ≠ .atom) :
    g.rank (g.below p) = g.rank p + 1 := by
  cases g <;> cases p <;> first | rfl | exact absurd rfl h

theorem rank_lt_below (g : Grammar) {p : Precedence} (h : p ≠ .atom) :
    g.rank p < g.rank (g.below p) := by
  rw [rank_below g h]
  exact Nat.lt_succ_self _

theorem rank_inj {g : Grammar} {p q : Precedence} (h : g.rank p = g.rank q) : p = q := by
  revert h
  cases g <;> cases p <;> cases q <;> decide

theorem rank_le_atom (g : Grammar) (p : Precedence) : g.rank p ≤ g.rank .atom := by
  cases g <;> cases p <;> decide

end Grammar

/-- Arithmetic has levels of its own. -/
theorem Arithmetic.precedence_ne (op : Arithmetic) :
    op.precedence ≠ .comparison ∧ op.precedence ≠ .not ∧ op.precedence ≠ .atom := by
  cases op <;> decide

theorem Connective.precedence_ne_atom (op : Connective) : op.precedence ≠ .atom := by
  cases op <;> decide

/-! ## What may go on with an expression

A token goes on with an expression at one level at most: a connective, a comparison, an
arithmetic operator, a full stop or an opening bracket. What stops a level stops every tighter
one. -/

/-- The words that go on with an expression, and their levels. -/
def Token.wordLevels : List (String × Precedence) :=
  [("or", .or), ("xor", .xor), ("and", .and), ("is", .comparison), ("in", .comparison),
    ("contains", .comparison), ("starts", .comparison), ("ends", .comparison)]

/-- The level of what a token goes on with, if it goes on with an expression before it. -/
def Token.level? : Token → Option Precedence
  | .name raw false => wordLevels.lookup (Name.smallLetters raw)
  | .mark m =>
      match m with
      | .equal | .notEqual | .less | .greater | .lessOrEqual | .greaterOrEqual | .regex =>
          some .comparison
      | .plus | .minus => some .additive
      | .star | .slash | .percent => some .multiplicative
      | .caret => some .power
      | .dot | .parenOpen => some .atom
      | _ => none
  | _ => none

/-- A text that does not go on with an expression of a level or of a tighter one. -/
def Stops (g : Grammar) (p : Precedence) (rest : List Token) : Prop :=
  ∀ t ∈ rest.head?, ∀ q, t.level? = some q → g.rank q < g.rank p

theorem stops_nil (g : Grammar) (p : Precedence) : Stops g p [] := by simp [Stops]

theorem stops_cons {g : Grammar} {p q : Precedence} {t : Token} (ht : t.level? = some q)
    (h : g.rank q < g.rank p) (rest : List Token) : Stops g p (t :: rest) := by
  intro t' ht' q' hq'
  obtain rfl := Option.some.inj ht'
  rw [ht] at hq'
  obtain rfl := Option.some.inj hq'
  exact h

/-- A token that never goes on with an expression. -/
theorem stops_of_level?_eq_none {t : Token} (ht : t.level? = none) (g : Grammar) (p : Precedence)
    (rest : List Token) : Stops g p (t :: rest) := by
  intro t' ht' q hq
  obtain rfl := Option.some.inj ht'
  rw [ht] at hq
  simp at hq

theorem Stops.mono {g : Grammar} {p q : Precedence} {rest : List Token} (h : Stops g p rest)
    (hpq : g.rank p ≤ g.rank q) : Stops g q rest :=
  fun t ht q' hq' => Nat.lt_of_lt_of_le (h t ht q' hq') hpq

/-- What stops an expression of a level does not go on with that level. -/
theorem Stops.level?_ne {g : Grammar} {p : Precedence} {rest : List Token} (h : Stops g p rest) :
    ∀ t ∈ rest.head?, t.level? ≠ some p :=
  fun t ht hp => Nat.lt_irrefl _ (h t ht p hp)

theorem level?_of_isWord {t : Token} {word : String} (h : t.isWord word = true) :
    t.level? = Token.wordLevels.lookup word := by
  cases t with
  | name raw quoted =>
      cases quoted with
      | true => simp [Token.isWord] at h
      | false => rw [Token.level?, eq_of_beq h]
  | _ => simp [Token.isWord] at h

end GraphQuery
