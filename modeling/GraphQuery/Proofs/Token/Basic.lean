import GraphQuery.Proofs.Name.Reading
import GraphQuery.Proofs.Number.Numeral
import GraphQuery.Proofs.Text.Reading

set_option autoImplicit false

/-! # Tokens

The tokens of a query text and the scanner that finds them. The scanner goes from left to right and
always takes the longest token: a name, bare or between backquotes; a string between single quotes;
a number, to which a minus sign belongs when a digit follows it directly; or a mark. Blanks and line
feeds between tokens are skipped.

`Scans cs ts rest` says that the characters `cs`, with `rest` behind them, are the tokens `ts`. It
is proved for one token at a time and put together by `Scans.append`.
-/

namespace GraphQuery

/-- Punctuation, and operators made of marks. -/
inductive Mark where
  | parenOpen
  | parenClose
  | bracketOpen
  | bracketClose
  | braceOpen
  | braceClose
  | comma
  | colon
  | dot
  | dots
  | dollar
  | equal
  | notEqual
  | less
  | greater
  | lessOrEqual
  | greaterOrEqual
  | regex
  | plus
  | minus
  | star
  | slash
  | percent
  | caret
  | arrowLeft
  | arrowRight
deriving DecidableEq

namespace Mark

/-- The mark that is a single character. -/
def ofChar (c : Char) : Option Mark :=
  if c = '(' then some .parenOpen
  else if c = ')' then some .parenClose
  else if c = '[' then some .bracketOpen
  else if c = ']' then some .bracketClose
  else if c = '\x7b' then some .braceOpen
  else if c = '\x7d' then some .braceClose
  else if c = ',' then some .comma
  else if c = ':' then some .colon
  else if c = '.' then some .dot
  else if c = '$' then some .dollar
  else if c = '=' then some .equal
  else if c = '<' then some .less
  else if c = '>' then some .greater
  else if c = '+' then some .plus
  else if c = '-' then some .minus
  else if c = '*' then some .star
  else if c = '/' then some .slash
  else if c = '%' then some .percent
  else if c = '^' then some .caret
  else none

/-- The mark that is made of two characters. -/
def ofPair (c d : Char) : Option Mark :=
  if c = '.' then if d = '.' then some .dots else none
  else if c = '<' then
    if d = '-' then some .arrowLeft
    else if d = '=' then some .lessOrEqual
    else if d = '>' then some .notEqual
    else none
  else if c = '>' then if d = '=' then some .greaterOrEqual else none
  else if c = '=' then if d = '~' then some .regex else none
  else if c = '-' then if d = '>' then some .arrowRight else none
  else none

/-- The longer mark at the start of a text, and the text behind it. -/
def read : List Char → Option (Mark × List Char)
  | [] => none
  | [c] => (ofChar c).map fun m => (m, [])
  | c :: d :: rest =>
      match ofPair c d with
      | some m => some (m, rest)
      | none => (ofChar c).map fun m => (m, d :: rest)

end Mark

/-- A token of a query text. -/
inductive Token where
  /-- A name, and whether it stands between backquotes. A bare word is a name too. -/
  | name (raw : String) (quoted : Bool)
  | string (raw : String)
  | number (text : List Char)
  | mark (m : Mark)
deriving DecidableEq

namespace Token

/-- A keyword, a word operator or a part of the name of a function. -/
def keyword (text : String) : Token := .name text false

/-- The token of a label, a relationship type or a key. -/
def ofName (raw : String) : Token := .name raw (!Name.isPlain raw)

/-- The token of the name of a variable or a parameter. -/
def ofBinding (raw : String) : Token := .name raw (Name.quotesBinding raw)

def isBlank (c : Char) : Bool := c == ' ' || c == '\n'

def startsWithDigit (cs : List Char) : Bool := cs.head?.any Char.isDigit

/-- The token at the start of a text, and the text behind it. -/
def read : List Char → Option (Token × List Char)
  | [] => none
  | c :: rest =>
      if Name.isStart c ∨ c = Name.backquote then
        (Name.read (c :: rest)).map fun r => (.name r.1.1 r.1.2, r.2)
      else if c = '\'' then
        (Text.readQuoted rest).map fun r => (.string (String.ofList r.1), r.2)
      else if c.isDigit ∨ (c = '-' ∧ startsWithDigit rest) then
        let (l, rest) := Number.Literal.read (c :: rest)
        some (.number l.text, rest)
      else (Mark.read (c :: rest)).map fun r => (.mark r.1, r.2)

end Token

/-! ## Every token takes a character

The scanner is a recursion on the length of the text, so each reader has to leave less than it
was given. What a reader takes besides does not matter here. -/

theorem Name.length_readBackquoted {cs : List Char} {r : List Char × List Char}
    (h : Name.readBackquoted cs = some r) : r.2.length < cs.length := by
  fun_induction Name.readBackquoted cs generalizing r with
  | case1 => simp at h
  | case2 => simp at h; subst h; simp
  | case3 => simp at h
  | case4 rest ih =>
      obtain ⟨r', hr', rfl⟩ := Option.map_eq_some_iff.mp h
      have := ih hr'
      simp only [List.length_cons]
      omega
  | case5 d rest _ => simp at h; subst h; simp
  | case6 c d rest _ ih =>
      obtain ⟨r', hr', rfl⟩ := Option.map_eq_some_iff.mp h
      have := ih hr'
      simp only [List.length_cons] at this ⊢
      omega

theorem Name.length_read {cs : List Char} {r : (String × Bool) × List Char}
    (h : Name.read cs = some r) : r.2.length < cs.length := by
  cases cs with
  | nil => simp [Name.read] at h
  | cons c rest =>
      rw [Name.read] at h
      split at h
      · obtain ⟨r', hr', rfl⟩ := Option.map_eq_some_iff.mp h
        exact Nat.lt_succ_of_lt (Name.length_readBackquoted hr')
      · split at h
        · rw [← Option.some.inj h]
          exact Nat.lt_succ_of_le (List.length_dropWhile_le _ _)
        · simp at h

theorem Text.length_readQuoted {cs : List Char} {r : List Char × List Char}
    (h : Text.readQuoted cs = some r) : r.2.length < cs.length := by
  fun_induction Text.readQuoted cs generalizing r with
  | case1 => simp at h
  | case2 rest => simp at h; subst h; simp
  | case3 e rest ih =>
      simp only [Option.bind_eq_bind, Option.bind_eq_some_iff] at h
      obtain ⟨c, -, r', hr', hr⟩ := h
      have := ih hr'
      rw [← Option.some.inj hr]
      simp only [List.length_cons]
      omega
  | case4 => simp at h
  | case5 c rest _ _ _ ih =>
      simp only [Option.bind_eq_bind, Option.bind_eq_some_iff] at h
      obtain ⟨r', hr', hr⟩ := h
      have := ih hr'
      rw [← Option.some.inj hr]
      simp only [List.length_cons]
      omega

namespace Number.Literal

theorem length_readDigits (cs : List Char) : (readDigits cs).2.length ≤ cs.length :=
  List.length_dropWhile_le _ _

theorem length_readFraction (cs : List Char) : (readFraction cs).2.length ≤ cs.length := by
  unfold readFraction
  split
  · split
    · exact (length_readDigits _).trans (Nat.le_succ _)
    · exact Nat.le_refl _
  · exact Nat.le_refl _

theorem length_readSign (cs : List Char) : (readSign cs).2.length ≤ cs.length := by
  unfold readSign
  split
  · exact Nat.le_succ _
  · exact Nat.le_refl _

theorem length_readExponent (cs : List Char) : (readExponent cs).2.length ≤ cs.length := by
  unfold readExponent
  split
  next rest =>
      have h₁ := length_readSign rest
      have h₂ := length_readDigits (readSign rest).2
      simp only
      split
      · exact Nat.le_refl _
      next hds => rw [hds] at h₂; simp only [List.length_cons] at h₂ ⊢; omega
  · exact Nat.le_refl _

theorem length_read {c : Char} {rest : List Char} (h : c.isDigit = true ∨ c = '-') :
    (read (c :: rest)).2.length < (c :: rest).length := by
  -- the first character is taken, as a digit or as the sign; the parts behind take what they find
  have h₁ : (readDigits (readSign (c :: rest)).2).2.length < (c :: rest).length := by
    rcases h with h | h
    · have hc : c ≠ '-' := by rintro rfl; simp at h
      have hsign : readSign (c :: rest) = (false, c :: rest) := by simp [readSign, hc]
      rw [hsign, readDigits, List.dropWhile_cons, if_pos h]
      exact Nat.lt_succ_of_le (List.length_dropWhile_le _ _)
    · subst h
      exact Nat.lt_succ_of_le (length_readDigits rest)
  have h₂ := length_readFraction (readDigits (readSign (c :: rest)).2).2
  have h₃ := length_readExponent (readFraction (readDigits (readSign (c :: rest)).2).2).2
  exact Nat.lt_of_le_of_lt (h₃.trans h₂) h₁

end Number.Literal

theorem Mark.length_read {cs : List Char} {r : Mark × List Char} (h : Mark.read cs = some r) :
    r.2.length < cs.length := by
  unfold Mark.read at h
  split at h
  · simp at h
  · obtain ⟨m, -, rfl⟩ := Option.map_eq_some_iff.mp h
    simp
  · split at h
    · rw [← Option.some.inj h]
      simp only [List.length_cons]
      omega
    · obtain ⟨m, -, rfl⟩ := Option.map_eq_some_iff.mp h
      simp

theorem Token.length_read {cs : List Char} {r : Token × List Char}
    (h : Token.read cs = some r) : r.2.length < cs.length := by
  cases cs with
  | nil => simp [Token.read] at h
  | cons c rest =>
      rw [Token.read] at h
      split at h
      · obtain ⟨r', hr', rfl⟩ := Option.map_eq_some_iff.mp h
        exact Name.length_read hr'
      · split at h
        · obtain ⟨r', hr', rfl⟩ := Option.map_eq_some_iff.mp h
          exact Nat.lt_succ_of_lt (Text.length_readQuoted hr')
        · split at h
          next hnum =>
              rw [← Option.some.inj h]
              exact Number.Literal.length_read (hnum.imp_right And.left)
          · obtain ⟨r', hr', rfl⟩ := Option.map_eq_some_iff.mp h
            exact Mark.length_read hr'

/-! ## The scanner

`Scans` relates characters to tokens in front of a given rest, which may end a token or lengthen
it. Texts are put together from the end: the rest of the first one begins with the second one. -/

/-- The tokens of a text, unless a place in it begins no token. -/
def scan (cs : List Char) : Option (List Token) :=
  match cs with
  | [] => some []
  | c :: rest =>
      if Token.isBlank c then scan rest
      else match h : Token.read (c :: rest) with
        | none => none
        | some (t, rest') =>
            -- a token takes one character at least, so the scanner comes to an end
            have : rest'.length ≤ rest.length := Nat.le_of_lt_succ (Token.length_read h)
            (scan rest').map (t :: ·)
termination_by cs.length

/-- The characters `cs` with `rest` behind them are the tokens `ts`. -/
def Scans (cs : List Char) (ts : List Token) (rest : List Char) : Prop :=
  scan (cs ++ rest) = (scan rest).map (ts ++ ·)

theorem scans_nil (rest : List Char) : Scans [] [] rest := by
  simp [Scans]

theorem Scans.append {cs ds rest : List Char} {ts us : List Token} (h : Scans cs ts (ds ++ rest))
    (h' : Scans ds us rest) : Scans (cs ++ ds) (ts ++ us) rest := by
  unfold Scans at *
  rw [List.append_assoc, h, h', Option.map_map]
  congr 1
  funext vs
  simp

theorem Scans.cons {c : Char} {ds rest : List Char} {ts us : List Token}
    (h : Scans [c] ts (ds ++ rest)) (h' : Scans ds us rest) :
    Scans (c :: ds) (ts ++ us) rest :=
  Scans.append h h'

/-- A whole text is scanned if its characters are tokens with nothing behind them. -/
theorem Scans.scan_eq {cs : List Char} {ts : List Token} (h : Scans cs ts []) :
    scan cs = some ts := by
  unfold Scans at h
  rw [List.append_nil] at h
  rw [h, scan]
  simp

/-! ### One token at a time

A token that is read where the text stands, and a blank that is skipped. -/

theorem scans_blank {c : Char} (h : Token.isBlank c = true) (rest : List Char) :
    Scans [c] [] rest := by
  unfold Scans
  rw [List.singleton_append, scan, if_pos h]
  simp

/-- A token that is read from the start of a text is the first one found. -/
theorem scans_of_read {cs rest : List Char} {t : Token} (hne : cs ≠ [])
    (hblank : ∀ c ∈ cs.head?, Token.isBlank c = false)
    (h : Token.read (cs ++ rest) = some (t, rest)) : Scans cs [t] rest := by
  obtain ⟨c, tail, rfl⟩ := List.exists_cons_of_ne_nil hne
  have hc : Token.isBlank c = false := hblank c rfl
  unfold Scans
  rw [List.cons_append] at h ⊢
  rw [scan, if_neg (by simp [hc])]
  split
  next hnone => rw [h] at hnone; simp at hnone
  next t' rest' hsome =>
      rw [h] at hsome
      obtain ⟨rfl, rfl⟩ := Prod.mk.inj (Option.some.inj hsome)
      rfl

end GraphQuery
