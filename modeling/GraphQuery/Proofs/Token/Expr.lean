import GraphQuery.Proofs.Expr.Every
import GraphQuery.Proofs.Print.Expr
import GraphQuery.Proofs.Token.Layout

set_option autoImplicit false

/-! # The tokens of values and expressions

The tokens of a value or an expression by recursion on it. Every name and every string is a single
token that carries it as it was given, whatever characters are in it; a number carries its numeral.
Scanning the printed text gives these tokens.
-/

namespace GraphQuery

/-! ## Operators

A mark is told from a longer one by the blank behind it. Operators that are words are keywords
and need only a blank on either side. -/

/-- The tokens of a comparison operator. -/
def Comparison.tokens : Comparison → List Token
  | .equal => [.mark .equal]
  | .notEqual => [.mark .notEqual]
  | .less => [.mark .less]
  | .greater => [.mark .greater]
  | .lessOrEqual => [.mark .lessOrEqual]
  | .greaterOrEqual => [.mark .greaterOrEqual]
  | .contains => Token.words ["CONTAINS"]
  | .startsWith => Token.words ["STARTS", "WITH"]
  | .endsWith => Token.words ["ENDS", "WITH"]
  | .member => Token.words ["IN"]
  | .regex => [.mark .regex]

/-- The mark of an arithmetic operator. -/
def Arithmetic.mark : Arithmetic → Mark
  | .add => .plus
  | .subtract => .minus
  | .multiply => .star
  | .divide => .slash
  | .modulo => .percent
  | .power => .caret

/-- A mark of one character with a blank behind it. -/
theorem scans_mark_space {c : Char} {m : Mark} (hc : Mark.starts c = true)
    (hm : Mark.ofChar c = some m) (hspace : Mark.ofPair c ' ' = none) (rest : List Char) :
    Scans [c] [.mark m] (' ' :: rest) :=
  scans_mark hc hm (fun d hd => by rw [← Option.some.inj hd]; exact hspace) (fun _ => rfl)

theorem Comparison.scans (op : Comparison) (rest : List Char) :
    Scans op.print op.tokens (' ' :: rest) := by
  cases op with
  | equal | less | greater => exact scans_mark_space (by decide) rfl rfl rest
  | notEqual | lessOrEqual | greaterOrEqual | regex =>
      exact scans_pair (by decide) rfl (by decide) _
  | contains | startsWith | endsWith | member =>
      exact ScansAs.words (by decide) _ (clear_space rest)

theorem Arithmetic.scans (op : Arithmetic) (rest : List Char) :
    Scans op.print [.mark op.mark] (' ' :: rest) := by
  cases op <;> exact scans_mark_space (by decide) rfl rfl rest

theorem Connective.scans (op : Connective) (rest : List Char) :
    Scans op.print [.keyword op.text] rest := by
  have hword : ScansAs op.text.toList [.keyword op.text] :=
    ScansAs.keyword (by cases op <;> decide)
  exact (scans_space _).cons ((hword _ (clear_space rest)).append (scans_space rest))

/-! ## Values

Each literal without parts is one token, and so is a key; lists and maps are laid out from the
tokens of their parts. -/

namespace Value

/-- The tokens of a value. A byte array has none. -/
def tokens : Value → List Token
  | .null => [.keyword "NULL"]
  | .boolean b => [.keyword (if b then "true" else "false")]
  | .integer n => [.number (Number.integerNumeral n.toInt)]
  | .float x => [.number (Number.floatNumeral x)]
  | .string s => [.string s]
  | .list items => Token.brackets (Token.commas (items.map tokens))
  | .map entries =>
      Token.braces (Token.commas (entries.map fun e => Token.entry e.1 e.2.tokens))
  | .bytes _ => []
decreasing_by
  · have := List.sizeOf_lt_of_mem ‹_›
    simp_wf
    omega
  · have := sizeOf_value_lt_of_mem ‹_›
    simp_wf
    omega

/-- Scanning a printed value gives its tokens. -/
theorem scans (v : Value) : ScansAs v.print v.tokens := by
  induction v with
  | null => rw [print, tokens]; exact ScansAs.keyword (by decide)
  | boolean b => rw [print, tokens]; exact ScansAs.keyword (by cases b <;> decide)
  | integer n => rw [print, tokens]; exact fun rest hrest => scans_integer _ hrest
  | float x => rw [print, tokens]; exact fun rest hrest => scans_float x hrest
  | string s => rw [print, tokens]; exact fun rest _ => scans_string s rest
  | list items ih =>
      rw [print, tokens]
      exact ScansAs.of_scans (ScansAs.commas ih).brackets
  | map entries ih =>
      rw [print, tokens]
      exact ScansAs.of_scans (ScansAs.commas fun e he => (ih e he).entry e.1).braces
  | bytes data => rw [print, tokens]; exact ScansAs.nil

end Value

/-! ## Expressions

The induction follows the layout: where a text has brackets, commas or an operator, the tokens
have the same, and the lemma for that layout applies. -/

namespace Expr

/-- The tokens of an expression. -/
def tokens (n : Names) : Expr → List Token
  | .var v => [.ofBinding (n.var v)]
  | .property v key => [.ofBinding (n.var v), .mark .dot, .ofName key]
  | .param p => [.mark .dollar, .ofBinding (n.param p)]
  | .literal value => value.tokens
  | .list items => Token.brackets (Token.commas (items.map (tokens n)))
  | .map entries =>
      Token.braces (Token.commas (entries.map fun e => Token.entry e.1 (e.2.tokens n)))
  | .compare op left right =>
      Token.binary (Token.parensIf left.needsParensInComparison (left.tokens n)) op.tokens
        (Token.parensIf right.needsParensInComparison (right.tokens n))
  | .isNull operand negated =>
      Token.parensIf operand.needsParensInComparison (operand.tokens n) ++
        Token.words (if negated then ["IS", "NOT", "NULL"] else ["IS", "NULL"])
  | .arith op left right =>
      Token.binary (Token.parensIf (left.precedence < op.precedence) (left.tokens n))
        [.mark op.mark] (Token.parensIf (right.precedence ≤ op.precedence) (right.tokens n))
  | .group op operands =>
      [Token.keyword op.text].intercalate
        (operands.map fun e => Token.parensIf (e.needsParensInGroup op) (e.tokens n))
  | .not operand =>
      .keyword "NOT" :: Token.parensIf (operand.precedence < .not) (operand.tokens n)
  | .call name distinct args =>
      Token.function name ++ Token.parens ((if distinct then [.keyword "DISTINCT"] else []) ++
        Token.commas (args.map (tokens n)))
decreasing_by
  all_goals simp_wf
  all_goals first
    | omega
    | (have hmem := List.sizeOf_lt_of_mem ‹_›; omega)
    | (have hmem := sizeOf_value_lt_of_mem ‹_›; omega)

/-- A keyword stands before a text with a blank between, or is left out. -/
theorem scans_optional {word : String} (h : Name.isPlain word = true) (given : Bool)
    {cs : List Char} {ts : List Token} (hcs : ScansAs cs ts) :
    ScansAs ((if given then word.toList ++ [' '] else []) ++ cs)
      ((if given then [.keyword word] else []) ++ ts) := by
  cases given with
  | false => exact hcs
  | true =>
      have := (ScansAs.keyword h).spaced hcs
      simpa using this

/-- **Scanning a printed expression gives its tokens**, if its functions have names that they may
have. -/
theorem scans (n : Names) (e : Expr) (h : e.Every Named) : ScansAs (e.print n) (e.tokens n) := by
  induction e with
  | var v => rw [print, tokens]; exact ScansAs.mentionVar n v
  | property v key =>
      rw [print, tokens]
      have hkey : ScansAs (Name.written key) [.ofName key] := fun _ hrest => scans_name key hrest
      exact (ScansAs.mentionVar n v).dotted hkey (Name.exists_cons_written key)
  | param p => rw [print, tokens]; exact ScansAs.mentionParam n p
  | literal value => rw [print, tokens]; exact value.scans
  | list items ih =>
      rw [Every] at h
      rw [print, tokens]
      exact ScansAs.of_scans (ScansAs.commas fun e he => ih e he (h.2 e he)).brackets
  | map entries ih =>
      rw [Every] at h
      rw [print, tokens]
      exact ScansAs.of_scans
        (ScansAs.commas fun e he => (ih e he (h.2 e he)).entry e.1).braces
  | compare op left right ihl ihr =>
      rw [Every] at h
      rw [print, tokens]
      exact ((ihl h.2.1).parensIf _).binary op.scans ((ihr h.2.2).parensIf _)
  | isNull operand negated ih =>
      rw [Every] at h
      rw [print, tokens]
      exact ((ih h.2).parensIf _).spaced (ScansAs.words (by cases negated <;> decide))
  | arith op left right ihl ihr =>
      rw [Every] at h
      rw [print, tokens]
      exact ((ihl h.2.1).parensIf _).binary op.scans ((ihr h.2.2).parensIf _)
  | group op operands ih =>
      rw [Every] at h
      rw [print, tokens]
      exact ScansAs.intercalate op.scans (fun rest => clear_space _)
        fun e he => (ih e he (h.2 e he)).parensIf _
  | not operand ih =>
      rw [Every] at h
      rw [print, tokens]
      exact (ScansAs.keyword (by decide)).spaced ((ih h.2).parensIf _)
  | call name distinct args ih =>
      rw [Every] at h
      rw [print, tokens]
      refine (ScansAs.function h.1).append (ScansAs.of_scans (ScansAs.parens ?_)) fun rest _ => ?_
      · exact scans_optional (by decide) distinct (ScansAs.commas fun e he => ih e he (h.2 e he))
      · exact clear_cons (by decide) _

end Expr

end GraphQuery
