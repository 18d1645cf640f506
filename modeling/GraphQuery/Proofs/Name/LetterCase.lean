import GraphQuery.Name.Reserved
import Mathlib

set_option autoImplicit false

/-! # Letter case

Names that differ at most in the case of their ASCII letters are of the same class, plain or dotted
or neither, and have the same small letters, so they name the same function and are reserved
together. Among plain identifiers the small letters tell no more than that: a plain identifier is
reserved if it is a reserved word in some letter case (`Name.isReserved_iff_of_isPlain`).
-/

namespace GraphQuery.Name

/-- Two names differ at most in the case of their ASCII letters. -/
def SameLetters (a b : String) : Prop := a.toList.map Char.toLower = b.toList.map Char.toLower

instance (a b : String) : Decidable (SameLetters a b) :=
  inferInstanceAs (Decidable (a.toList.map Char.toLower = b.toList.map Char.toLower))

/-! ## Characters

Making letters small leaves the class of a character as it is. The statements are about all
characters, of which only the ASCII letters change. -/

theorem isDigit_toLower (c : Char) : c.toLower.isDigit = c.isDigit := by
  simp only [Char.isDigit, Char.toLower]
  split <;> grind [UInt32.toNat_add, Char.toNat_val]

/-- Only a letter becomes another character. -/
theorem toLower_eq_iff {c d : Char} (hd : d.isAlpha = false) : c.toLower = d ↔ c = d := by
  by_cases hc : c.isUpper = true
  · have halpha : c.isAlpha = true := by simp [Char.isAlpha, hc]
    constructor
    · rintro rfl
      rw [Char.isAlpha_toLower_eq_isAlpha, halpha] at hd
      exact Bool.noConfusion hd
    · rintro rfl
      rw [halpha] at hd
      exact Bool.noConfusion hd
  · rw [Char.toLower_eq_of_not_isUpper hc]

theorem isStart_toLower (c : Char) : isStart c.toLower = isStart c := by
  rw [Bool.eq_iff_iff]
  simp [isStart, toLower_eq_iff (d := '_') (by decide)]

theorem isPart_toLower (c : Char) : isPart c.toLower = isPart c := by
  rw [Bool.eq_iff_iff]
  simp [isPart, Char.isAlphanum, isDigit_toLower, toLower_eq_iff (d := '_') (by decide)]

theorem smallLetter_toLower (c : Char) : smallLetter c.toLower = smallLetter c := by
  have hkelvin : c.toLower = '\u212A' ↔ c = '\u212A' := toLower_eq_iff (by decide)
  simp [smallLetter, hkelvin]

/-! ## Names

What holds of single characters carries over to the two classes of names, which look at nothing
else. -/

theorem plainChars_map_toLower (cs : List Char) :
    plainChars (cs.map Char.toLower) = plainChars cs := by
  cases cs with
  | nil => rfl
  | cons c cs =>
      rw [List.map_cons, plainChars, plainChars, isStart_toLower, List.all_map]
      simp [Function.comp_def, isPart_toLower]

theorem dotParts_map_toLower (cs : List Char) :
    dotParts (cs.map Char.toLower) = (dotParts cs).map (List.map Char.toLower) := by
  induction cs with
  | nil => rfl
  | cons c cs ih =>
      have hstop : c.toLower = '.' ↔ c = '.' := toLower_eq_iff (by decide)
      obtain ⟨p, ps, hparts⟩ := List.exists_cons_of_ne_nil (dotParts_ne_nil cs)
      rw [List.map_cons, dotParts, dotParts, ih, hparts]
      by_cases hc : c = '.' <;> simp [hc, hstop]

variable {a b : String}

theorem SameLetters.isDotted_eq (h : SameLetters a b) : isDotted a = isDotted b := by
  have hclass : ∀ s : String,
      isDotted s = (dotParts (s.toList.map Char.toLower)).all plainChars := by
    intro s
    rw [isDotted, dotParts_map_toLower, List.all_map]
    simp [Function.comp_def, plainChars_map_toLower]
  rw [hclass a, hclass b, h]

theorem SameLetters.smallLetters_eq (h : SameLetters a b) : smallLetters a = smallLetters b := by
  have hsmall : ∀ s : String,
      smallLetters s = String.ofList ((s.toList.map Char.toLower).map smallLetter) := by
    intro s
    rw [smallLetters, List.map_map]
    simp [Function.comp_def, smallLetter_toLower]
  rw [hsmall a, hsmall b, h]

/-! ## Reserved words

The Kelvin sign has an ASCII small letter and is no ASCII letter itself. In a plain identifier it
cannot stand, which is why the statement is about plain identifiers. -/

/-- In a plain identifier every small letter is that of an ASCII letter. -/
theorem smallLetters_of_isPlain (h : isPlain a = true) :
    smallLetters a = String.ofList (a.toList.map Char.toLower) := by
  have hkelvin : isPart '\u212A' = false := by decide
  rw [smallLetters]
  congr 1
  apply List.map_congr_left
  intro c hc
  have hpart : isPart c = true := by
    have hall := all_isPart_of_plainChars h
    exact List.all_eq_true.mp hall c hc
  have hne : c ≠ '\u212A' := by
    rintro rfl
    rw [hkelvin] at hpart
    exact Bool.noConfusion hpart
  simp [smallLetter, hne]

theorem toLower_reservedWords :
    ∀ w ∈ reservedWords, String.ofList (w.toList.map Char.toLower) = w := by
  decide

/-- A plain identifier is reserved if it is a reserved word but for letter case. -/
theorem isReserved_iff_of_isPlain (h : isPlain a = true) :
    isReserved a = true ↔ ∃ w ∈ reservedWords, SameLetters a w := by
  rw [isReserved, List.contains_iff_mem, smallLetters_of_isPlain h]
  constructor
  · intro hmem
    refine ⟨_, hmem, ?_⟩
    rw [SameLetters, String.toList_ofList, List.map_map]
    simp [Function.comp_def]
  · rintro ⟨w, hw, hsame⟩
    rw [hsame, toLower_reservedWords w hw]
    exact hw

end GraphQuery.Name
