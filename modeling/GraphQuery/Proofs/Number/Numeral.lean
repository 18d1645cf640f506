import GraphQuery.Proofs.Number.Literal
import GraphQuery.Proofs.Number.Shortest

set_option autoImplicit false

/-! # Numerals are number literals

Each numeral that is written for an integer or a finite floating-point number is a well-formed
literal with the value it was written for. So numerals can be read back: an integer never becomes a
floating-point number or the other way round, and a floating-point number keeps all its bits.
-/

namespace GraphQuery.Number

theorem isDigit_naturalNumeral (n : Nat) : ∀ c ∈ naturalNumeral n, c.isDigit = true :=
  fun _ hc => Nat.isDigit_of_mem_toDigits (by decide) (by decide) hc

@[simp] theorem ofDigitChars_naturalNumeral (n : Nat) :
    Nat.ofDigitChars 10 (naturalNumeral n) 0 = n :=
  Nat.ofDigitChars_ten_toDigits

namespace Literal

/-! ## Integers

The sign is kept apart from the digits in a literal, so the least integer of 64 bits needs no
special case: its digits are those of a natural number. -/

def ofInt (n : Int) : Literal := ⟨decide (n < 0), naturalNumeral n.natAbs, [], none⟩

theorem signText_append_natAbs (n : Int) :
    signText (decide (n < 0)) ++ naturalNumeral n.natAbs = integerNumeral n := by
  unfold signText integerNumeral
  by_cases h : n < 0 <;> simp [h]

theorem signed_natAbs (n : Int) : signed (decide (n < 0)) n.natAbs = n := by
  unfold signed
  by_cases h : n < 0
  · simp only [h, decide_true, if_true]; omega
  · simp only [h, decide_false, Bool.false_eq_true, if_false]; omega

theorem text_ofInt (n : Int) : (ofInt n).text = integerNumeral n := by
  rw [← signText_append_natAbs]
  simp [text, ofInt, fractionText, exponentText]

theorem wellFormed_ofInt (n : Int) : (ofInt n).WellFormed where
  whole_ne_nil := naturalNumeral_ne_nil _
  whole_digits := isDigit_naturalNumeral _
  fraction_digits := by simp [ofInt]
  exponent_digits := by simp [ofInt]

/-- **The literal of an integer stands for that integer.** -/
theorem value?_ofInt (n : Int64) : (ofInt n.toInt).value? = some (.integer n) := by
  have hlow : -(2 ^ 63) ≤ n.toInt := n.le_toInt
  have hhigh : n.toInt < 2 ^ 63 := n.toInt_lt
  have hdigits : (ofInt n.toInt).digits = n.toInt.natAbs := by simp [digits, ofInt]
  have hsigned : signed (ofInt n.toInt).negative (ofInt n.toInt).digits = n.toInt := by
    rw [hdigits]
    exact signed_natAbs n.toInt
  rw [value?, if_pos ⟨rfl, rfl⟩, hsigned]
  simp only [hlow, hhigh, and_self, if_true, Int64.ofInt_toInt]

/-! ## Decimals

There is a literal for each layout of a numeral, with the same case distinctions as the layout.
That the numeral is the text of the literal is then shown layout by layout. -/

/-- The literal of digits with a point after the leading `whole` of them. -/
def positional (negative : Bool) (ds : List Char) (whole : Int) : Literal :=
  if whole ≤ 0 then ⟨negative, ['0'], List.replicate (-whole).toNat '0' ++ ds, none⟩
  else if ds.length ≤ whole.toNat then
    ⟨negative, ds ++ List.replicate (whole.toNat - ds.length) '0', ['0'], none⟩
  else ⟨negative, ds.take whole.toNat, ds.drop whole.toNat, none⟩

/-- The literal of digits with a point after the first and an exponent. -/
def exponential (negative : Bool) (ds : List Char) (exponent : Int) : Literal :=
  ⟨negative, ds.take 1, ds.drop 1,
    some (decide (exponent < 0), naturalNumeral exponent.natAbs)⟩

/-- The literal of a decimal, laid out as its numeral is. -/
def ofDecimal (range : PositionalRange) (negative : Bool) (d : Decimal) : Literal :=
  let ds := naturalNumeral d.digits
  let leading : Int := d.exponent + ds.length - 1
  if range.least ≤ leading ∧ leading < range.beyond then positional negative ds (leading + 1)
  else exponential negative ds leading

section Layout

variable {negative : Bool} {ds : List Char}

theorem text_positional (hne : ds ≠ []) (whole : Int) :
    (positional negative ds whole).text = signText negative ++ Number.positional ds whole := by
  unfold positional Number.positional
  split
  · simp [text, fractionText, exponentText, hne]
  · split
    · simp [text, fractionText, exponentText]
    next _ h =>
        have hdrop : ds.drop whole.toNat ≠ [] := by simpa using h
        simp only [text, fractionText, exponentText, hdrop, if_false, List.append_nil]

theorem text_exponential (exponent : Int) :
    (exponential negative ds exponent).text
      = signText negative ++ Number.exponential ds exponent := by
  unfold exponential Number.exponential
  simp only [text, fractionText, exponentText, signText_append_natAbs, List.isEmpty_iff,
    List.append_assoc]

theorem wellFormed_positional (hne : ds ≠ []) (hds : ∀ c ∈ ds, c.isDigit = true) (whole : Int) :
    (positional negative ds whole).WellFormed := by
  have hrep : ∀ n, ∀ c ∈ List.replicate n '0', c.isDigit = true := by
    intro n c hc
    rw [(List.mem_replicate.mp hc).2]
    decide
  have happ : ∀ n, (∀ c ∈ List.replicate n '0' ++ ds, c.isDigit = true) ∧
      ∀ c ∈ ds ++ List.replicate n '0', c.isDigit = true := by
    intro n
    constructor <;> intro c hc <;> rcases List.mem_append.mp hc with h | h
    · exact hrep n c h
    · exact hds c h
    · exact hds c h
    · exact hrep n c h
  -- zeros go before the digits, behind them, or nowhere
  unfold positional
  split
  · exact ⟨by simp, by simp, (happ _).1, by simp⟩
  · split
    · exact ⟨by simp [hne], (happ _).2, by simp, by simp⟩
    next hpos h =>
        refine ⟨?_, fun c hc => hds c (List.mem_of_mem_take hc),
          fun c hc => hds c (List.mem_of_mem_drop hc), by simp⟩
        simp only [ne_eq, List.take_eq_nil_iff, hne, or_false]
        omega

theorem wellFormed_exponential (hne : ds ≠ []) (hds : ∀ c ∈ ds, c.isDigit = true)
    (exponent : Int) : (exponential negative ds exponent).WellFormed where
  whole_ne_nil := by simp [exponential, hne]
  whole_digits := fun c hc => hds c (List.mem_of_mem_take hc)
  fraction_digits := fun c hc => hds c (List.mem_of_mem_drop hc)
  exponent_digits := by
    intro e he
    simp only [exponential, Option.some.injEq] at he
    subst he
    exact ⟨naturalNumeral_ne_nil _, isDigit_naturalNumeral _⟩

end Layout

theorem text_ofDecimal (range : PositionalRange) (negative : Bool) (d : Decimal) :
    (ofDecimal range negative d).text = signText negative ++ d.numeral range := by
  unfold ofDecimal Decimal.numeral
  simp only
  split
  · exact text_positional (naturalNumeral_ne_nil _) _
  · exact text_exponential _

theorem wellFormed_ofDecimal (range : PositionalRange) (negative : Bool) (d : Decimal) :
    (ofDecimal range negative d).WellFormed := by
  unfold ofDecimal
  simp only
  split
  · exact wellFormed_positional (naturalNumeral_ne_nil _) (isDigit_naturalNumeral _) _
  · exact wellFormed_exponential (naturalNumeral_ne_nil _) (isDigit_naturalNumeral _) _

theorem negative_ofDecimal (range : PositionalRange) (negative : Bool) (d : Decimal) :
    (ofDecimal range negative d).negative = negative := by
  unfold ofDecimal positional exponential
  simp only
  split
  · split
    · rfl
    · split <;> rfl
  · rfl

/-! ## Values of decimals

Where the point stands among the digits does not change the number: padding with zeros multiplies
the digits and lowers the scale by as much. -/

/-- The number that the digits and the scale of a literal make, without its sign. -/
def magnitude (l : Literal) : ℚ := l.digits * (10 : ℚ) ^ l.scale

theorem magnitude_positional (negative : Bool) (d : Decimal) :
    (positional negative (naturalNumeral d.digits)
      (d.exponent + (naturalNumeral d.digits).length)).magnitude = d.value := by
  set ds := naturalNumeral d.digits with hds
  have hvalue : Nat.ofDigitChars 10 ds 0 = d.digits := ofDigitChars_naturalNumeral _
  unfold positional magnitude Decimal.value
  -- zeros before the digits, zeros behind them, or a point among them
  split
  next h =>
      have hz : Nat.ofDigitChars 10 ['0'] 0 = 0 := by decide
      simp only [digits, scale, Nat.ofDigitChars_append, hz, Nat.ofDigitChars_replicate_zero,
        Nat.mul_zero, hvalue, List.length_append, List.length_replicate]
      congr 2
      push_cast
      omega
  next h =>
      split
      next hle =>
          obtain ⟨k, hk⟩ : ∃ k : Nat, d.exponent = k := ⟨d.exponent.toNat, by omega⟩
          have hz : ∀ n, Nat.ofDigitChars 10 ['0'] n = 10 * n := by
            intro n
            simp [Nat.ofDigitChars_cons]
          have hpad : (d.exponent + (ds.length : Int)).toNat - ds.length = k := by omega
          simp only [digits, scale, Nat.ofDigitChars_append, hvalue, hz,
            Nat.ofDigitChars_replicate_zero, hpad, List.length_singleton]
          rw [hk]
          push_cast
          simp only [zpow_neg_one, zpow_natCast]
          ring
      next hle =>
          simp only [digits, scale, List.take_append_drop, hvalue, List.length_drop]
          congr 2
          omega

theorem magnitude_exponential (negative : Bool) (d : Decimal) :
    (exponential negative (naturalNumeral d.digits)
      (d.exponent + (naturalNumeral d.digits).length - 1)).magnitude = d.value := by
  have hlen : 0 < (naturalNumeral d.digits).length :=
    List.length_pos_iff.mpr (naturalNumeral_ne_nil _)
  simp only [exponential, magnitude, Decimal.value, digits, scale, List.take_append_drop,
    ofDigitChars_naturalNumeral, signed_natAbs, List.length_drop]
  congr 2
  omega

theorem magnitude_ofDecimal (range : PositionalRange) (negative : Bool) (d : Decimal) :
    (ofDecimal range negative d).magnitude = d.value := by
  unfold ofDecimal
  simp only
  split
  · rw [sub_add_cancel]
    exact magnitude_positional negative d
  · exact magnitude_exponential negative d

/-- The literal of a decimal has a fraction or an exponent, so it is no integer. -/
theorem not_integer_ofDecimal (range : PositionalRange) (negative : Bool) (d : Decimal) :
    ¬ ((ofDecimal range negative d).fraction = [] ∧
      (ofDecimal range negative d).exponent? = none) := by
  unfold ofDecimal positional exponential
  simp only
  split
  · split
    · simp [naturalNumeral_ne_nil]
    · split
      · simp
      next h => simpa using h
  · simp

/-! ## Floating-point numbers

Zero has no shortest decimal and is written apart, with its sign. For every other number the
literal has the value of the shortest decimal, which rounds to the number. -/

def ofFloat (x : Binary64) : Literal :=
  if x.isZero then ⟨x.negative, ['0'], ['0'], none⟩
  else ofDecimal literalRange x.negative x.shortest

theorem text_ofFloat (x : Binary64) : (ofFloat x).text = floatNumeral x := by
  unfold ofFloat floatNumeral
  by_cases hz : x.isZero = true
  · cases hn : x.negative <;> simp [hz, text, signText, fractionText, exponentText]
  · simp only [hz, Bool.false_eq_true, if_false, text_ofDecimal]
    cases hn : x.negative <;> simp [signText]

theorem wellFormed_ofFloat (x : Binary64) : (ofFloat x).WellFormed := by
  unfold ofFloat
  split
  · exact ⟨by simp, by simp, by simp, by simp⟩
  · exact wellFormed_ofDecimal _ _ _

/-- **The literal of a finite floating-point number stands for that number**, bit by bit. -/
theorem value?_ofFloat {x : Binary64} (hx : x.isFinite = true) :
    (ofFloat x).value? = some (.float x) := by
  unfold ofFloat
  split
  next hz =>
      rw [value?, if_neg (by simp)]
      have hdigits : digits ⟨x.negative, ['0'], ['0'], none⟩ = 0 := rfl
      rw [hdigits, Binary64.ofDecimal_zero _ hx hz]
  next hz =>
      rw [value?, if_neg (not_integer_ofDecimal _ _ _), negative_ofDecimal,
        Binary64.ofDecimal_of_value hx (magnitude_ofDecimal _ _ _)]

end Literal

end GraphQuery.Number
