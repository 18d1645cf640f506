import GraphQuery.Text.Quoted

set_option autoImplicit false

/-! # Reading string literals

A string literal is read from behind its opening quote. A backslash takes the next character with
it, and the first quote that no backslash has taken ends the literal. What follows the closing quote
does not matter, so a string can be read back from any text that it begins.
-/

namespace GraphQuery.Text

/-- The character that an escape stands for. -/
def unescaped : Char → Option Char
  | '\\' => some '\\'
  | '\'' => some '\''
  | 'n' => some '\n'
  | 'r' => some '\r'
  | 't' => some '\t'
  | _ => none

/-- A string from behind its opening quote, and the text behind its closing one. -/
def readQuoted : List Char → Option (List Char × List Char)
  | [] => none
  | '\'' :: rest => some ([], rest)
  | '\\' :: e :: rest => do
      let c ← unescaped e
      let (cs, rest) ← readQuoted rest
      return (c :: cs, rest)
  | ['\\'] => none
  | c :: rest => do
      let (cs, rest) ← readQuoted rest
      return (c :: cs, rest)

/-- A character is written as an escape that stands for it, or it stands for itself. -/
theorem escaped_cases (c : Char) :
    (∃ e, escaped c = ['\\', e] ∧ unescaped e = some c) ∨
      (escaped c = [c] ∧ c ≠ '\\' ∧ c ≠ '\'' ∧ c ≠ '\n' ∧ c ≠ '\r' ∧ c ≠ '\t') := by
  -- the five characters that have an escape, and then all others
  by_cases h₁ : c = '\\'
  · exact Or.inl ⟨'\\', by rw [h₁]; rfl, by rw [h₁]; rfl⟩
  by_cases h₂ : c = '\''
  · exact Or.inl ⟨'\'', by rw [h₂]; rfl, by rw [h₂]; rfl⟩
  by_cases h₃ : c = '\n'
  · exact Or.inl ⟨'n', by rw [h₃]; rfl, by rw [h₃]; rfl⟩
  by_cases h₄ : c = '\r'
  · exact Or.inl ⟨'r', by rw [h₄]; rfl, by rw [h₄]; rfl⟩
  by_cases h₅ : c = '\t'
  · exact Or.inl ⟨'t', by rw [h₅]; rfl, by rw [h₅]; rfl⟩
  refine Or.inr ⟨?_, h₁, h₂, h₃, h₄, h₅⟩
  rw [escaped, if_neg h₁, if_neg h₂, if_neg h₃, if_neg h₄, if_neg h₅]

theorem readQuoted_escape (e : Char) (rest : List Char) :
    readQuoted ('\\' :: e :: rest) =
      (unescaped e).bind fun c => (readQuoted rest).map fun r => (c :: r.1, r.2) := by
  cases h : unescaped e <;> cases h' : readQuoted rest <;> simp [readQuoted, h, h']

theorem readQuoted_cons {c : Char} (hslash : c ≠ '\\') (hquote : c ≠ '\'') (rest : List Char) :
    readQuoted (c :: rest) = (readQuoted rest).map fun r => (c :: r.1, r.2) := by
  have hother : readQuoted (c :: rest) = (readQuoted rest).bind fun r => some (c :: r.1, r.2) := by
    rw [readQuoted]
    · rfl
    · exact hquote
    · exact fun _ _ h _ => hslash h
    · exact fun h _ => hslash h
  rw [hother]
  cases readQuoted rest <;> rfl

/-- One written character is read as the character it stands for. -/
theorem readQuoted_escaped (c : Char) (rest : List Char) :
    readQuoted (escaped c ++ rest) = (readQuoted rest).map fun r => (c :: r.1, r.2) := by
  rcases escaped_cases c with ⟨e, he, hc⟩ | ⟨he, hslash, hquote, -⟩
  · rw [he]
    show readQuoted ('\\' :: e :: rest) = _
    rw [readQuoted_escape, hc]
    rfl
  · rw [he, List.singleton_append, readQuoted_cons hslash hquote]

/-- **A written string is read back**, and nothing of what follows it. -/
theorem readQuoted_quoted (cs rest : List Char) :
    readQuoted (cs.flatMap escaped ++ '\'' :: rest) = some (cs, rest) := by
  induction cs with
  | nil => rfl
  | cons c cs ih =>
      rw [List.flatMap_cons, List.append_assoc, readQuoted_escaped, ih]
      rfl

end GraphQuery.Text
