set_option autoImplicit false

/-! # Names

A *plain* identifier is an ASCII letter or underscore followed by ASCII letters, digits and
underscores. A *dotted* identifier is a chain of plain identifiers with a full stop between two of
them; function names are dotted identifiers. Both classes are decided on the characters of a name,
so a line break before the end of the text is a character like any other and spoils them.
-/

namespace GraphQuery.Name

/-! ## Plain identifiers

A digit may not start an identifier, and a letter beyond ASCII may stand nowhere in one. The
empty text is not an identifier. -/

def isStart (c : Char) : Bool := c.isAlpha || c == '_'

/-- A character that may stand inside a plain identifier. -/
def isPart (c : Char) : Bool := c.isAlphanum || c == '_'

/-- The characters of a plain identifier. -/
def plainChars : List Char → Bool
  | [] => false
  | c :: cs => isStart c && cs.all isPart

def isPlain (name : String) : Bool := plainChars name.toList

theorem isPart_of_isStart {c : Char} (h : isStart c = true) : isPart c = true := by
  simp only [isStart, isPart, Char.isAlphanum, Bool.or_eq_true] at h ⊢
  rcases h with h | h
  · exact Or.inl (Or.inl h)
  · exact Or.inr h

theorem all_isPart_of_plainChars {cs : List Char} (h : plainChars cs = true) :
    cs.all isPart = true := by
  cases cs with
  | nil => rfl
  | cons c cs =>
      simp only [plainChars, Bool.and_eq_true] at h
      simp only [List.all_cons, Bool.and_eq_true]
      exact ⟨isPart_of_isStart h.1, h.2⟩

/-! ## Dotted identifiers

A text is cut at every full stop, and each part has to be a plain identifier; so a full stop at
either end, or two in a row, leave an empty part and spoil the name. -/

/-- The parts of a text between its full stops; a text without one is a single part. -/
def dotParts : List Char → List (List Char)
  | [] => [[]]
  | c :: cs =>
      if c == '.' then [] :: dotParts cs
      else match dotParts cs with
        | [] => [[c]]
        | p :: ps => (c :: p) :: ps

def isDotted (name : String) : Bool := (dotParts name.toList).all plainChars

theorem dotParts_ne_nil (cs : List Char) : dotParts cs ≠ [] := by
  cases cs with
  | nil => simp [dotParts]
  | cons c cs =>
      simp only [dotParts]
      split
      · simp
      · split <;> simp

theorem dotParts_of_no_stop {cs : List Char} (h : '.' ∉ cs) : dotParts cs = [cs] := by
  induction cs with
  | nil => rfl
  | cons c cs ih =>
      have hc : (c == '.') = false := by
        simp only [beq_eq_false_iff_ne, ne_eq]
        intro hc
        exact h (by simp [hc])
      simp only [dotParts, hc, Bool.false_eq_true, if_false]
      rw [ih (fun hm => h (by simp [hm]))]

/-! ## Letter case

Reserved words and the names of known functions are compared in small letters. The comparison is
with ASCII words only, which is why one character beyond ASCII matters. -/

/-- The small letter of a capital one, for the characters whose small letter is an ASCII letter:
`A` to `Z` and the Kelvin sign. Every other character stays, and its small letter is no ASCII
letter, so comparing the result with an ASCII word decides whether the small-letter form of a text
is that word. -/
def smallLetter (c : Char) : Char := if c == '\u212A' then 'k' else c.toLower

/-- A name with its capital letters made small. -/
def smallLetters (name : String) : String := String.ofList (name.toList.map smallLetter)

end GraphQuery.Name
