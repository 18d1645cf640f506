import GraphQuery.Proofs.Parser.Expr

set_option autoImplicit false

/-! # Reading single tokens

What the readers of single tokens make of the tokens of an expression, and where they find nothing.
-/

namespace GraphQuery

namespace Token

variable {m : Mark} {word : String} {t : Token} {ts : List Token}

/-! ## Marks and words

A reader finds a word or a mark if it is the next token, and finds nothing if the next token
stops the level that the word goes on with. -/

@[simp] theorem after_mark (m : Mark) (ts : List Token) : after m (.mark m :: ts) = some ts := by
  simp [after]

theorem after_of_ne (h : t ≠ .mark m) (ts : List Token) : after m (t :: ts) = none := by
  simp [after, h]

theorem after_eq_none (h : ∀ t ∈ ts.head?, t ≠ .mark m) : after m ts = none := by
  cases ts with
  | nil => rfl
  | cons t ts => exact after_of_ne (h t rfl) ts

theorem readWord_of_isWord (h : t.isWord word = true) (ts : List Token) :
    readWord word (t :: ts) = (true, ts) := by
  simp [readWord, h]

theorem readWord_of_not (h : ∀ t ∈ ts.head?, t.isWord word = false) :
    readWord word ts = (false, ts) := by
  cases ts with
  | nil => rfl
  | cons t ts => simp [readWord, h t rfl]

/-- A word that goes on with a level is not in what stops that level. -/
theorem not_isWord_of_stops (word : String) {g : Grammar} {p : Precedence} (h : Stops g p ts)
    (hword : wordLevels.lookup word = some p) : ∀ t ∈ ts.head?, t.isWord word = false := by
  intro t ht
  by_contra hw
  rw [Bool.not_eq_false] at hw
  exact h.level?_ne t ht ((level?_of_isWord hw).trans hword)

/-- A list of one member at least begins as the member does. -/
theorem exists_commas_cons {α : Type} (f : α → List Token) (x : α) (xs : List α) :
    ∃ more, commas ((x :: xs).map f) = f x ++ more := by
  cases xs with
  | nil => exact ⟨[], by simp [commas]⟩
  | cons y ys =>
      exact ⟨_, by rw [commas, List.map_cons, List.map_cons, List.intercalate_cons_cons,
        List.append_assoc]⟩

end Token

theorem Connective.isWord_text (op : Connective) :
    (Token.keyword op.text).isWord op.word = true := by
  cases op <;> decide

theorem Connective.lookup_word (op : Connective) :
    Token.wordLevels.lookup op.word = some op.precedence := by
  cases op <;> decide

theorem Connective.level?_text (op : Connective) :
    (Token.keyword op.text).level? = some op.precedence :=
  (level?_of_isWord op.isWord_text).trans op.lookup_word

/-! ## Comparisons

Each operator is told from the others by its first token, apart from the words that have two. -/

theorem Comparison.read_tokens (op : Comparison) (ts : List Token) :
    read (op.tokens ++ ts) = some (op, ts) := by
  cases op <;> rfl

theorem Comparison.stops_tokens (op : Comparison) {g : Grammar} {p : Precedence}
    (h : g.rank .comparison < g.rank p) (ts : List Token) : Stops g p (op.tokens ++ ts) := by
  cases op <;> exact stops_cons (q := .comparison) (by decide) h _

theorem Comparison.read_eq_none {g : Grammar} {ts : List Token} (h : Stops g .comparison ts) :
    read ts = none := by
  have hword : ∀ word, Token.wordLevels.lookup word = some .comparison →
      ∀ t ∈ ts.head?, t.isWord word = false := fun word => Token.not_isWord_of_stops word h
  cases ts with
  | nil => rfl
  | cons t ts =>
      have hcontains := hword "contains" (by decide) t rfl
      have hin := hword "in" (by decide) t rfl
      have hstarts := hword "starts" (by decide) t rfl
      have hends := hword "ends" (by decide) t rfl
      cases t with
      | mark m =>
          have hm := h.level?_ne (.mark m) rfl
          cases m <;> first | rfl | exact absurd rfl hm
      | _ =>
          simp only [read, hcontains, hin, hstarts, hends, Bool.false_eq_true, if_false]
          split <;> rfl

/-! ## Tests for null -/

/-- The words of a test for null. -/
def Token.isNullWords (negated : Bool) : List Token :=
  words (if negated then ["IS", "NOT", "NULL"] else ["IS", "NULL"])

theorem Token.readIsNull_words (negated : Bool) (ts : List Token) :
    Comparison.read (isNullWords negated ++ ts) = none ∧
      readIsNull (isNullWords negated ++ ts) = some (negated, ts) := by
  cases negated <;> exact ⟨rfl, rfl⟩

theorem Token.stops_isNullWords (negated : Bool) {g : Grammar} {p : Precedence}
    (h : g.rank .comparison < g.rank p) (ts : List Token) :
    Stops g p (isNullWords negated ++ ts) := by
  cases negated <;> exact stops_cons (q := .comparison) (by decide) h _

theorem Token.readIsNull_eq_none {g : Grammar} {ts : List Token} (h : Stops g .comparison ts) :
    readIsNull ts = none := by
  cases ts with
  | nil => rfl
  | cons t ts =>
      have his := not_isWord_of_stops "is" h (by decide) t rfl
      simp [readIsNull, his]

/-! ## Arithmetic

A level of arithmetic has several operators, and a token is looked for among those of the level
only. -/

namespace Arithmetic

theorem read_mark (op : Arithmetic) (ts : List Token) :
    read op.precedence (.mark op.mark :: ts) = some (op, ts) := by
  cases op <;> rfl

theorem level?_mark (op : Arithmetic) : (Token.mark op.mark).level? = some op.precedence := by
  cases op <;> rfl

theorem level?_of_ofMark {m : Mark} {op : Arithmetic} (h : ofMark m = some op) :
    (Token.mark m).level? = some op.precedence := by
  cases m <;> simp [ofMark] at h <;> subst h <;> rfl

theorem read_eq_none {g : Grammar} {p : Precedence} {ts : List Token} (h : Stops g p ts) :
    read p ts = none := by
  cases ts with
  | nil => rfl
  | cons t ts =>
      cases t with
      | mark m =>
          simp only [read]
          split
          next op hop =>
              have hne : op.precedence ≠ p := by
                rintro rfl
                exact h.level?_ne _ rfl (level?_of_ofMark hop)
              rw [if_neg hne]
          · rfl
      | _ => rfl

end Arithmetic

/-! ## Names

A name is a variable, a property or the beginning of a call, and what stands behind it decides.
Full stops belong to a call if an opening bracket follows the last part, and otherwise to a
property. -/

/-- What stops an atom is no full stop and no opening bracket. -/
theorem head?_of_stops_atom {g : Grammar} {ts : List Token} (h : Stops g .atom ts) :
    ∀ t ∈ ts.head?, t ≠ .mark .dot ∧ t ≠ .mark .parenOpen := by
  intro t ht
  have hlevel := h.level?_ne t ht
  constructor <;> (rintro rfl; exact hlevel rfl)

namespace Token

theorem readCallTail_eq_none {g : Grammar} {ts : List Token} (h : Stops g .atom ts) :
    readCallTail ts = none := by
  unfold readCallTail
  split
  · exact absurd rfl (head?_of_stops_atom h _ rfl).2
  · exact absurd rfl (head?_of_stops_atom h _ rfl).1
  · rfl

/-- A key behind a full stop is no part of the name of a function if nothing is called. -/
theorem readCallTail_key {g : Grammar} {ts : List Token} (h : Stops g .atom ts) (key : String) :
    readCallTail (.mark .dot :: .ofName key :: ts) = none := by
  unfold ofName
  cases !Name.isPlain key with
  | true => rfl
  | false => rw [readCallTail, readCallTail_eq_none h]; rfl

theorem readCallTail_parts (parts : List (List Char)) (ts : List Token) :
    readCallTail ((parts.flatMap fun p => [.mark .dot, keyword (String.ofList p)]) ++
      .mark .parenOpen :: ts) = some (parts.map String.ofList, ts) := by
  induction parts with
  | nil => rfl
  | cons p ps ih =>
      rw [List.flatMap_cons, List.append_assoc]
      show (readCallTail (_ ++ .mark .parenOpen :: ts)).map _ = _
      rw [ih]
      rfl

/-- The name of a function is its first part, and the other parts behind full stops. -/
theorem function_eq {name : String} {p : List Char} {ps : List (List Char)}
    (h : Name.dotParts name.toList = p :: ps) :
    function name = keyword (String.ofList p) ::
      ps.flatMap fun p => [.mark .dot, keyword (String.ofList p)] := by
  unfold function
  rw [h]
  clear h
  induction ps generalizing p with
  | nil => simp
  | cons q qs ih =>
      have := @ih q
      rw [List.map_cons] at this
      rw [List.map_cons, List.map_cons, List.intercalate_cons_cons, this]
      rfl

end Token

theorem Name.ofParts_dotParts {name : String} {p : List Char} {ps : List (List Char)}
    (h : dotParts name.toList = p :: ps) :
    ofParts (String.ofList p :: ps.map String.ofList) = name := by
  have hparts : (String.ofList p :: ps.map String.ofList).map String.toList = p :: ps := by
    simp [Function.comp_def]
  rw [ofParts, hparts, ← h, intercalate_dotParts, String.ofList_toList]

theorem Tree.ofName_var {g : Grammar} {ts : List Token} (h : Stops g .atom ts) (raw : String) :
    ofName raw ts = (.var raw, ts) := by
  unfold ofName
  split
  · exact absurd rfl (head?_of_stops_atom h _ rfl).1
  · rfl

/-! ## Numbers

Numerals were shown to be literals with the value they are written for. Here the whole text of a
token is such a literal. -/

namespace Number.Literal

theorem ends_nil : Ends [] := clear_nil.number

theorem decode_text {l : Literal} (h : l.WellFormed) : decode l.text = l.value? := by
  have := read_text h ends_nil
  rw [List.append_nil] at this
  rw [decode, this]

theorem decode_integerNumeral (n : Int64) :
    decode (integerNumeral n.toInt) = some (.integer n) := by
  rw [← text_ofInt, decode_text (wellFormed_ofInt _), value?_ofInt]

theorem decode_floatNumeral {x : Binary64} (h : x.isFinite = true) :
    decode (floatNumeral x) = some (.float x) := by
  rw [← text_ofFloat, decode_text (wellFormed_ofFloat x), value?_ofFloat h]

end Number.Literal

end GraphQuery
