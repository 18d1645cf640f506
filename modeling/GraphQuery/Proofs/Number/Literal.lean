import Mathlib
import GraphQuery.Number.Numeral
import GraphQuery.Value.Basic

set_option autoImplicit false

/-! # Number literals

A number literal is an optional minus sign, digits, a fraction whose point is followed by a digit,
and an exponent. `Literal.read` takes the longest literal at the start of a text; `Literal.text`
writes one; reading a written literal gives it back unless what follows could lengthen it. A literal
without fraction and exponent stands for an integer of 64 bits, every other one for the nearest
floating-point number.
-/

namespace GraphQuery.Number

/-- The parts of a number literal. -/
structure Literal where
  negative : Bool
  whole : List Char
  fraction : List Char
  /-- The sign and the digits of the exponent. -/
  exponent? : Option (Bool × List Char)
deriving DecidableEq

namespace Literal

/-! ## Writing

A literal is written part by part: sign, whole digits, fraction and exponent. A fraction without
digits and an exponent that is missing are not written at all. -/

/-- A sign, which is only written for negative numbers. -/
def signText (negative : Bool) : List Char := if negative then ['-'] else []

def fractionText (ds : List Char) : List Char := if ds = [] then [] else '.' :: ds

def exponentText : Option (Bool × List Char) → List Char
  | none => []
  | some (negative, ds) => 'e' :: (signText negative ++ ds)

def text (l : Literal) : List Char :=
  signText l.negative ++ (l.whole ++ (fractionText l.fraction ++ exponentText l.exponent?))

/-! ## Reading

The reader takes the parts in the same order and never goes back. A point is only taken with a
digit behind it, and the mark of an exponent only with its digits, so that what follows a literal
may begin with either. -/

def readSign : List Char → Bool × List Char
  | '-' :: rest => (true, rest)
  | rest => (false, rest)

def readDigits (cs : List Char) : List Char × List Char :=
  (cs.takeWhile Char.isDigit, cs.dropWhile Char.isDigit)

/-- The digits of a fraction and the rest of the text. A point without a digit behind it is no
fraction. -/
def readFraction : List Char → List Char × List Char
  | '.' :: d :: rest => if d.isDigit then readDigits (d :: rest) else ([], '.' :: d :: rest)
  | rest => ([], rest)

/-- An exponent and the rest of the text. -/
def readExponent : List Char → Option (Bool × List Char) × List Char
  | 'e' :: rest =>
      let (negative, rest') := readSign rest
      match readDigits rest' with
      | ([], _) => (none, 'e' :: rest)
      | (ds, rest') => (some (negative, ds), rest')
  | rest => (none, rest)

/-- The longest literal at the start of a text and the rest of the text. -/
def read (cs : List Char) : Literal × List Char :=
  let (negative, cs) := readSign cs
  let (whole, cs) := readDigits cs
  let (fraction, cs) := readFraction cs
  let (exponent?, cs) := readExponent cs
  (⟨negative, whole, fraction, exponent?⟩, cs)

/-! ## Meaning

The digits of the whole part and the fraction are one natural number, to which the number of
digits in the fraction and the exponent give a scale. Whether a literal is an integer is decided
by its form: `1.0` is none. -/

def signed (negative : Bool) (n : Nat) : Int := if negative then -(n : Int) else n

/-- The exponent of ten that the digits of whole part and fraction stand with. -/
def scale (l : Literal) : Int :=
  (match l.exponent? with
    | none => 0
    | some (negative, ds) => signed negative (Nat.ofDigitChars 10 ds 0)) - l.fraction.length

/-- The digits of whole part and fraction as one number. -/
def digits (l : Literal) : Nat := Nat.ofDigitChars 10 (l.whole ++ l.fraction) 0

/-- The value that a literal stands for, unless it is an integer out of range. -/
def value? (l : Literal) : Option Value :=
  if l.fraction = [] ∧ l.exponent? = none then
    let n := signed l.negative l.digits
    if -(2 ^ 63) ≤ n ∧ n < 2 ^ 63 then some (.integer (Int64.ofInt n)) else none
  else some (.float (Binary64.ofDecimal l.negative l.digits l.scale))

/-! ## Reading what was written

Each part is read back in front of whatever parts follow it, from the last one to the first. What
may stand behind the whole literal is said by `Literal.Ends`. -/

/-- All parts are digits, and no part that is there is empty. -/
structure WellFormed (l : Literal) : Prop where
  whole_ne_nil : l.whole ≠ []
  whole_digits : ∀ c ∈ l.whole, c.isDigit = true
  fraction_digits : ∀ c ∈ l.fraction, c.isDigit = true
  exponent_digits : ∀ e, l.exponent? = some e → e.2 ≠ [] ∧ ∀ c ∈ e.2, c.isDigit = true

/-- A text that does not begin with a digit. -/
def NoDigit (rest : List Char) : Prop := ∀ c ∈ rest.head?, c.isDigit = false

/-- A text that cannot be taken for more of the literal before it. -/
structure Ends (rest : List Char) : Prop where
  noDigit : NoDigit rest
  noFraction : ∀ d tail, rest = '.' :: d :: tail → d.isDigit = false
  noExponent : rest.head? ≠ some 'e'

theorem noDigit_cons {c : Char} {rest : List Char} (h : c.isDigit = false) :
    NoDigit (c :: rest) := by
  intro d hd
  rw [← Option.some.inj hd]
  exact h

theorem readDigits_append {ds rest : List Char} (hds : ∀ c ∈ ds, c.isDigit = true)
    (hrest : NoDigit rest) : readDigits (ds ++ rest) = (ds, rest) := by
  rw [readDigits, List.takeWhile_append_of_pos hds, List.dropWhile_append_of_pos hds]
  cases rest with
  | nil => simp
  | cons c rest =>
      have hc : c.isDigit = false := hrest c rfl
      simp [hc]

theorem readSign_append {negative : Bool} {ds rest : List Char} (hne : ds ≠ [])
    (hds : ∀ c ∈ ds, c.isDigit = true) :
    readSign (signText negative ++ (ds ++ rest)) = (negative, ds ++ rest) := by
  cases negative with
  | true => rfl
  | false =>
      obtain ⟨d, tail, rfl⟩ := List.exists_cons_of_ne_nil hne
      have hd : d ≠ '-' := by
        rintro rfl
        have := hds '-' List.mem_cons_self
        simp at this
      simp [signText, readSign, hd]

theorem readExponent_append {exponent? : Option (Bool × List Char)} {rest : List Char}
    (hdigits : ∀ e, exponent? = some e → e.2 ≠ [] ∧ ∀ c ∈ e.2, c.isDigit = true)
    (hrest : Ends rest) :
    readExponent (exponentText exponent? ++ rest) = (exponent?, rest) := by
  cases exponent? with
  | none =>
      cases rest with
      | nil => rfl
      | cons c rest =>
          have hc : c ≠ 'e' := fun h => hrest.noExponent (by simp [h])
          simp [exponentText, readExponent, hc]
  | some e =>
      -- an exponent has digits, so its letter is not left behind
      obtain ⟨negative, ds⟩ := e
      obtain ⟨hne, hds⟩ : ds ≠ [] ∧ ∀ c ∈ ds, c.isDigit = true := hdigits _ rfl
      rw [exponentText, List.cons_append, List.append_assoc, readExponent,
        readSign_append hne hds]
      simp only
      rw [readDigits_append hds hrest.noDigit]
      obtain ⟨d, tail, rfl⟩ := List.exists_cons_of_ne_nil hne
      rfl

theorem noDigit_exponentText (exponent? : Option (Bool × List Char)) {rest : List Char}
    (hrest : Ends rest) : NoDigit (exponentText exponent? ++ rest) := by
  cases exponent? with
  | none => exact hrest.noDigit
  | some e => exact noDigit_cons (by decide)

theorem readFraction_append {ds rest : List Char} (exponent? : Option (Bool × List Char))
    (hds : ∀ c ∈ ds, c.isDigit = true) (hrest : Ends rest) :
    readFraction (fractionText ds ++ (exponentText exponent? ++ rest))
      = (ds, exponentText exponent? ++ rest) := by
  have hstop := noDigit_exponentText exponent? hrest
  cases ds with
  | nil =>
      cases exponent? with
      | some e => rfl
      | none =>
          -- the text behind decides that there is no fraction
          simp only [fractionText, exponentText, if_true, List.nil_append]
          unfold readFraction
          split
          next d tail => rw [hrest.noFraction d tail rfl]; rfl
          next => rfl
  | cons d tail =>
      have hd : d.isDigit = true := hds d List.mem_cons_self
      simp only [fractionText, reduceCtorEq, if_false, List.cons_append, readFraction, hd, if_true]
      exact readDigits_append hds hstop

theorem noDigit_fractionText (ds : List Char) (exponent? : Option (Bool × List Char))
    {rest : List Char} (hrest : Ends rest) :
    NoDigit (fractionText ds ++ (exponentText exponent? ++ rest)) := by
  cases ds with
  | nil => exact noDigit_exponentText exponent? hrest
  | cons d tail => exact noDigit_cons (by decide)

/-- **A written literal is read back**, and nothing of what follows it. -/
theorem read_text {l : Literal} (hl : l.WellFormed) {rest : List Char} (hrest : Ends rest) :
    read (l.text ++ rest) = (l, rest) := by
  -- each part is read up to the next one, which does not begin with a digit
  have happ : l.text ++ rest = signText l.negative ++ (l.whole ++
      (fractionText l.fraction ++ (exponentText l.exponent? ++ rest))) := by
    simp [text]
  rw [happ, read, readSign_append hl.whole_ne_nil hl.whole_digits]
  simp only
  rw [readDigits_append hl.whole_digits (noDigit_fractionText _ _ hrest)]
  simp only
  rw [readFraction_append _ hl.fraction_digits hrest]
  simp only
  rw [readExponent_append hl.exponent_digits hrest]

end Literal

end GraphQuery.Number
