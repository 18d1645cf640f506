import GraphQuery.Draft.Lexeme
import GraphQuery.Proofs.Token.Basic

set_option autoImplicit false

/-! # Scanning lexemes

What is read from the start of each kind of lexeme (`Token.Spelt`), and what the scanner makes of
it. A name, a word or a number must be followed by a text that cannot be taken for more of it
(`Clear`); a string can be followed by anything; a mark must not be followed by a character that
makes a longer mark of it.
-/

namespace GraphQuery

open Name (isStart isPart backquote)

/-! ## Characters

The scanner decides by the first character what kind of token it reads. The classes of first
characters exclude each other. -/

theorem not_isDigit_of_isStart {c : Char} (h : isStart c = true) : c.isDigit = false := by
  by_contra hd
  simp only [Bool.not_eq_false] at hd
  simp only [isStart, Char.isAlpha, Char.isUpper, Char.isLower, Char.isDigit, Bool.or_eq_true,
    Bool.and_eq_true, decide_eq_true_eq, beq_iff_eq] at h hd
  rcases h with h | rfl
  · -- all letters lie above the digits
    have h1 := UInt32.le_iff_toNat_le.mp hd.1
    have h2 := UInt32.le_iff_toNat_le.mp hd.2
    rcases h with h | h
    · have := UInt32.le_iff_toNat_le.mp h.1
      simp at *
      omega
    · have := UInt32.le_iff_toNat_le.mp h.1
      simp at *
      omega
  · revert hd
    decide

theorem isPart_of_isDigit {c : Char} (h : c.isDigit = true) : isPart c = true := by
  simp [isPart, Char.isAlphanum, h]

/-! ## What may follow

One condition for all tokens that have no end of their own. It asks for a character that is no
part of a name or a number and no backquote; behind a full stop there must be no digit. -/

/-- A text that cannot be taken for more of the name, word or number before it. -/
structure Clear (rest : List Char) : Prop where
  name : Name.Ends rest
  number : Number.Literal.Ends rest

/-- A character that ends a name, a word or a number whatever follows it. -/
def Token.delimits (c : Char) : Bool := !isPart c && c != backquote && c != '.'

theorem clear_nil : Clear [] where
  name := Name.ends_nil
  number := ⟨by simp [Number.Literal.NoDigit], by simp, by simp⟩

theorem clear_of_not_isPart {c : Char} {rest : List Char} (hpart : isPart c = false)
    (hquote : c ≠ backquote) (hdot : c = '.' → Number.Literal.NoDigit rest) :
    Clear (c :: rest) where
  name := (Name.ends_cons c rest).mpr ⟨hpart, hquote⟩
  number := by
    refine ⟨Number.Literal.noDigit_cons ?_, ?_, ?_⟩
    · by_contra hd
      rw [isPart_of_isDigit (by simpa using hd)] at hpart
      exact Bool.noConfusion hpart
    · intro d tail heq
      obtain ⟨rfl, rfl⟩ := List.cons.inj heq
      exact hdot rfl d rfl
    · rw [List.head?_cons, ne_eq, Option.some.injEq]
      rintro rfl
      exact absurd hpart (by decide)

theorem clear_cons {c : Char} (h : Token.delimits c = true) (rest : List Char) :
    Clear (c :: rest) := by
  simp only [Token.delimits, Bool.and_eq_true, Bool.not_eq_true', bne_iff_ne, ne_eq] at h
  exact clear_of_not_isPart h.1.1 h.1.2 (fun hdot => absurd hdot h.2)

theorem clear_dot {rest : List Char} (h : Number.Literal.NoDigit rest) : Clear ('.' :: rest) :=
  clear_of_not_isPart (by decide) (by decide) (fun _ => h)

/-! ## Reading one token

A token that is spelt by some characters is found by every reader that takes tokens one at a
time. The scanner is one of these, and so is the reader of inline literals. -/

/-- The characters `cs` with `rest` behind them begin with the token `t`, without a blank before it,
and the token ends where `rest` begins. -/
structure Token.Spelt (cs : List Char) (t : Token) (rest : List Char) : Prop where
  ne_nil : cs ≠ []
  head : ∀ c ∈ cs.head?, Token.isBlank c = false
  read_eq : Token.read (cs ++ rest) = some (t, rest)

theorem Token.Spelt.scans {cs : List Char} {t : Token} {rest : List Char}
    (h : Token.Spelt cs t rest) : Scans cs [t] rest :=
  scans_of_read h.ne_nil h.head h.read_eq

/-! ## Names and words

A written name is read back as in `Name.read_written`, and the token says whether it stood
between backquotes. A keyword is a name that stands bare. -/

theorem spelt_of_readName {cs rest : List Char} {raw : String} {quoted : Bool}
    (hcs : ∃ c tail, cs = c :: tail ∧ (isStart c = true ∨ c = backquote))
    (h : Name.read (cs ++ rest) = some ((raw, quoted), rest)) :
    Token.Spelt cs (.name raw quoted) rest := by
  obtain ⟨c, tail, rfl, hc⟩ := hcs
  refine ⟨by simp, ?_, ?_⟩
  · intro d hd
    rw [← Option.some.inj hd]
    rcases hc with hc | rfl
    · by_contra hb
      simp only [Token.isBlank, Bool.not_eq_false, Bool.or_eq_true, beq_iff_eq] at hb
      rcases hb with rfl | rfl <;> exact absurd hc (by decide)
    · decide
  · rw [List.cons_append] at h ⊢
    rw [Token.read, if_pos hc, h]
    rfl

theorem spelt_name (raw : String) {rest : List Char} (h : Clear rest) :
    Token.Spelt (Name.written raw) (.ofName raw) rest :=
  spelt_of_readName (Name.exists_cons_written raw) (Name.read_written raw h.name)

theorem scans_name (raw : String) {rest : List Char} (h : Clear rest) :
    Scans (Name.written raw) [.ofName raw] rest :=
  (spelt_name raw h).scans

theorem scans_binding (raw : String) {rest : List Char} (h : Clear rest) :
    Scans (Name.writtenBinding raw) [.ofBinding raw] rest :=
  (spelt_of_readName (Name.exists_cons_writtenBinding raw)
    (Name.read_writtenBinding raw h.name)).scans

/-- A bare word is a name token whatever it means. -/
theorem spelt_word {cs : List Char} (hcs : Name.plainChars cs = true) {rest : List Char}
    (h : Clear rest) : Token.Spelt cs (.keyword (String.ofList cs)) rest := by
  refine spelt_of_readName ?_ (Name.read_plain hcs h.name)
  cases cs with
  | nil => simp [Name.plainChars] at hcs
  | cons c tail =>
      simp only [Name.plainChars, Bool.and_eq_true] at hcs
      exact ⟨c, tail, rfl, Or.inl hcs.1⟩

theorem scans_word {cs : List Char} (hcs : Name.plainChars cs = true) {rest : List Char}
    (h : Clear rest) : Scans cs [.keyword (String.ofList cs)] rest :=
  (spelt_word hcs h).scans

theorem spelt_keyword {word : String} (hword : Name.isPlain word = true) {rest : List Char}
    (h : Clear rest) : Token.Spelt word.toList (.keyword word) rest := by
  have := spelt_word hword h
  rwa [String.ofList_toList] at this

theorem scans_keyword {word : String} (hword : Name.isPlain word = true) {rest : List Char}
    (h : Clear rest) : Scans word.toList [.keyword word] rest :=
  (spelt_keyword hword h).scans

/-! ## Strings and numbers

Strings end themselves. A numeral is a literal, and the characters that were read are the token. -/

theorem spelt_string (raw : String) (rest : List Char) :
    Token.Spelt (Text.quoted raw) (.string raw) rest := by
  have hread := Text.readQuoted_quoted raw.toList rest
  refine ⟨by simp [Text.quoted], by simp [Text.quoted, Token.isBlank], ?_⟩
  rw [Text.quoted, List.cons_append, List.append_assoc, List.singleton_append, Token.read,
    if_neg (by decide), if_pos rfl, hread]
  simp

theorem scans_string (raw : String) (rest : List Char) :
    Scans (Text.quoted raw) [.string raw] rest :=
  (spelt_string raw rest).scans

theorem spelt_literal {l : Number.Literal} (hl : l.WellFormed) {rest : List Char}
    (h : Clear rest) : Token.Spelt l.text (.number l.text) rest := by
  have hread := Number.Literal.read_text hl h.number
  obtain ⟨d, ds, hwhole⟩ := List.exists_cons_of_ne_nil hl.whole_ne_nil
  have hd : d.isDigit = true := hl.whole_digits d (by simp [hwhole])
  -- the text begins with a digit, or with a minus sign and a digit
  obtain ⟨c, tail, htext, hc⟩ : ∃ c tail, l.text = c :: tail ∧
      (c.isDigit = true ∨ (c = '-' ∧ Token.startsWithDigit (tail ++ rest) = true)) := by
    unfold Number.Literal.text Number.Literal.signText
    rw [hwhole]
    cases l.negative with
    | false => exact ⟨d, _, rfl, Or.inl hd⟩
    | true => exact ⟨'-', _, rfl, Or.inr ⟨rfl, by simp [Token.startsWithDigit, hd]⟩⟩
  have hstart : isStart c = false ∧ c ≠ backquote ∧ c ≠ '\'' ∧ Token.isBlank c = false := by
    rcases hc with hc | ⟨rfl, -⟩
    · refine ⟨?_, ?_, ?_, ?_⟩
      · by_contra hs
        rw [not_isDigit_of_isStart (by simpa using hs)] at hc
        exact Bool.noConfusion hc
      · rintro rfl; exact absurd hc (by decide)
      · rintro rfl; exact absurd hc (by decide)
      · by_contra hb
        simp only [Token.isBlank, Bool.not_eq_false, Bool.or_eq_true, beq_iff_eq] at hb
        rcases hb with rfl | rfl <;> exact absurd hc (by decide)
    · decide
  refine ⟨by simp [htext], ?_, ?_⟩
  · intro b hb
    rw [htext] at hb
    rw [← Option.some.inj hb]
    exact hstart.2.2.2
  · rw [htext, List.cons_append] at hread ⊢
    rw [Token.read, if_neg (by simp [hstart.1, hstart.2.1]), if_neg hstart.2.2.1, if_pos hc, hread]
    show some (Token.number l.text, rest) = some (Token.number (c :: tail), rest)
    rw [htext]

theorem spelt_integer (n : Int) {rest : List Char} (h : Clear rest) :
    Token.Spelt (Number.integerNumeral n) (.number (Number.integerNumeral n)) rest := by
  have := spelt_literal (Number.Literal.wellFormed_ofInt n) h
  rwa [Number.Literal.text_ofInt] at this

theorem scans_integer (n : Int) {rest : List Char} (h : Clear rest) :
    Scans (Number.integerNumeral n) [.number (Number.integerNumeral n)] rest :=
  (spelt_integer n h).scans

theorem scans_natural (n : Nat) {rest : List Char} (h : Clear rest) :
    Scans (Number.naturalNumeral n) [.number (Number.naturalNumeral n)] rest :=
  scans_integer n h

theorem spelt_float (x : Number.Binary64) {rest : List Char} (h : Clear rest) :
    Token.Spelt (Number.floatNumeral x) (.number (Number.floatNumeral x)) rest := by
  have := spelt_literal (Number.Literal.wellFormed_ofFloat x) h
  rwa [Number.Literal.text_ofFloat] at this

theorem scans_float (x : Number.Binary64) {rest : List Char} (h : Clear rest) :
    Scans (Number.floatNumeral x) [.number (Number.floatNumeral x)] rest :=
  (spelt_float x h).scans

/-! ## Marks

A mark is the longer of two that fit. A minus sign is a mark unless a digit follows it directly. -/

/-- A character that begins no token but a mark. -/
def Mark.starts (c : Char) : Bool :=
  !isStart c && c != backquote && c != '\'' && !c.isDigit && !Token.isBlank c

theorem Mark.read_token {c : Char} {rest : List Char} (hc : Mark.starts c = true)
    (hminus : c = '-' → Token.startsWithDigit rest = false) :
    Token.read (c :: rest) = (Mark.read (c :: rest)).map fun r => (.mark r.1, r.2) := by
  simp only [Mark.starts, Bool.and_eq_true, Bool.not_eq_true', bne_iff_ne, ne_eq] at hc
  obtain ⟨⟨⟨⟨hstart, hquote⟩, hstring⟩, hdigit⟩, -⟩ := hc
  rw [Token.read, if_neg (by simp [hstart, hquote]), if_neg hstring, if_neg]
  -- a minus sign before a digit would begin a number
  rintro (h | ⟨h, h'⟩)
  · rw [hdigit] at h
    exact Bool.noConfusion h
  · rw [hminus h] at h'
    exact Bool.noConfusion h'

theorem spelt_mark {c : Char} {m : Mark} {rest : List Char} (hc : Mark.starts c = true)
    (hm : Mark.ofChar c = some m) (hlonger : ∀ d ∈ rest.head?, Mark.ofPair c d = none)
    (hminus : c = '-' → Token.startsWithDigit rest = false) :
    Token.Spelt [c] (.mark m) rest := by
  refine ⟨by simp, ?_, ?_⟩
  · intro b hb
    rw [← Option.some.inj hb]
    simp only [Mark.starts, Bool.and_eq_true, Bool.not_eq_true'] at hc
    exact hc.2
  · -- no longer mark begins here, so the character alone is the mark
    rw [List.singleton_append, Mark.read_token hc hminus]
    cases rest with
    | nil => simp [Mark.read, hm]
    | cons d tail => simp [Mark.read, hlonger d rfl, hm]

theorem scans_mark {c : Char} {m : Mark} {rest : List Char} (hc : Mark.starts c = true)
    (hm : Mark.ofChar c = some m) (hlonger : ∀ d ∈ rest.head?, Mark.ofPair c d = none)
    (hminus : c = '-' → Token.startsWithDigit rest = false) : Scans [c] [.mark m] rest :=
  (spelt_mark hc hm hlonger hminus).scans

theorem scans_pair {c d : Char} {m : Mark} (hc : Mark.starts c = true)
    (hm : Mark.ofPair c d = some m) (hd : d.isDigit = false) (rest : List Char) :
    Scans [c, d] [.mark m] rest := by
  refine scans_of_read (by simp) ?_ ?_
  · intro b hb
    rw [← Option.some.inj hb]
    simp only [Mark.starts, Bool.and_eq_true, Bool.not_eq_true'] at hc
    exact hc.2
  · rw [List.cons_append, List.singleton_append, Mark.read_token hc]
    · simp [Mark.read, hm]
    · intro _
      simp [Token.startsWithDigit, hd]

end GraphQuery
