import GraphQuery.Proofs.Number.Rounding

set_option autoImplicit false

/-! # Nearest numbers

`Binary64.nearest` gives the finite number closest to a quotient, unless the quotient is beyond all
of them (`Binary64.isNearest_nearest`). Where the significand has all its bits, the magnitudes up to
a power of two are all multiples of one gap, and smaller magnitudes are on the other side of a
multiple; so the closest multiple of the gap is the closest magnitude.

Distances are compared after multiplying by the denominator and in units of `2 ^ (-1074)`, so that
they are integers.
-/

namespace GraphQuery.Number

namespace Binary64

/-! ## Values

A finite number is a fraction with denominator `2 ^ 1074`. The numerators are compared instead of
the fractions wherever that is enough. -/

/-- The magnitude of a finite number, in units of `2 ^ (-1074)`. -/
def magnitude (x : Binary64) : Nat := x.significand * 2 ^ x.scale

def units (x : Binary64) : Int := if x.negative then -(x.magnitude : Int) else x.magnitude

def value (x : Binary64) : ℚ := x.units / 2 ^ 1074

/-- A finite number to which no other one is preferred for being closer to the given number. -/
structure IsNearest (x : Binary64) (q : ℚ) : Prop where
  finite : x.isFinite = true
  closest : ∀ y : Binary64, y.isFinite = true → |x.value - q| ≤ |y.value - q|

/-! ## Closest multiples

Rounding to a natural number is rounding to a multiple of the denominator. Both statements are
about naturals and know nothing of floating-point numbers. -/

theorem roundHalfEven_bounds (num : Nat) {den : Nat} (hden : 0 < den) :
    2 * (roundHalfEven num den * den) ≤ 2 * num + den ∧
      2 * num ≤ 2 * (roundHalfEven num den * den) + den := by
  have hsplit : num / den * den + num % den = num := Nat.div_add_mod' num den
  have hrem : num % den < den := Nat.mod_lt num hden
  have hsucc : (num / den + 1) * den = num / den * den + den := Nat.succ_mul _ _
  unfold roundHalfEven
  by_cases hlow : 2 * (num % den) < den
  · simp only [hlow, if_true]
    omega
  · by_cases hhigh : den < 2 * (num % den)
    · simp only [hlow, if_false, hhigh, if_true, hsucc]
      omega
    · -- in case of a tie both neighbours are as close
      by_cases heven : num / den % 2 = 0
      · simp only [hlow, if_false, hhigh, heven, if_true]
        omega
      · simp only [hlow, if_false, hhigh, heven, hsucc]
        omega

/-- No multiple of the denominator is closer to the numerator than the one of the rounded
quotient. -/
theorem roundHalfEven_closest (num : Nat) {den : Nat} (hden : 0 < den) (k : Nat) :
    |((roundHalfEven num den * den : Nat) : Int) - num| ≤ |((k * den : Nat) : Int) - num| := by
  obtain ⟨hlower, hupper⟩ := roundHalfEven_bounds num hden
  generalize roundHalfEven num den = n at hlower hupper ⊢
  rcases eq_or_ne k n with rfl | hne
  · exact le_refl _
  · -- another multiple is a whole step away from this one, and so at least half a step off
    have hstep : k * den + den ≤ n * den ∨ n * den + den ≤ k * den := by
      rcases Nat.lt_or_gt_of_ne hne with h | h
      · left
        have hmul := Nat.mul_le_mul_right den h
        rwa [Nat.succ_mul] at hmul
      · right
        have hmul := Nat.mul_le_mul_right den h
        rwa [Nat.succ_mul] at hmul
    generalize k * den = b at hstep ⊢
    generalize n * den = a at hstep hlower hupper ⊢
    have hdistance : 2 * |(a : Int) - num| ≤ den := by
      rcases abs_cases ((a : Int) - num) with ⟨ha, -⟩ | ⟨ha, -⟩ <;> omega
    have hother : (den : Int) ≤ 2 * |(b : Int) - num| := by
      have hpositive := abs_nonneg ((b : Int) - num)
      rcases abs_cases ((b : Int) - num) with ⟨hb, -⟩ | ⟨hb, -⟩ <;> omega
    omega

/-! ## The magnitude that a quotient is rounded to

The bits of a rounded number are computed without looking at a carry. If rounding gives a
significand of `2 ^ 53`, the carry goes into the exponent field, and the magnitude is right all
the same: this is what `magnitude_of_bits` says. -/

/-- A significand that may have been rounded up to the next power of two, and its doublings. -/
theorem magnitude_of_bits {x : Binary64} {doublings n : Nat}
    (hbits : x.bits.toNat % 2 ^ 63 = doublings * 2 ^ 52 + n) (hn : n ≤ 2 ^ 53)
    (hfull : 0 < doublings → 2 ^ 52 ≤ n) : x.magnitude = n * 2 ^ doublings := by
  have hmag := magnitude_eq x
  have hlt := significand_lt x
  have hle : 0 < x.scale → 2 ^ 52 ≤ x.significand := le_significand_of_scale
  unfold magnitude
  generalize x.scale = s at hmag hle ⊢
  generalize x.significand = m at hmag hlt hle ⊢
  by_cases hs : s = doublings
  · have hm : m = n := by
      subst hs
      omega
    rw [hs, hm]
  · -- the significand has carried into the exponent
    have hcarry : s = doublings + 1 ∧ m = 2 ^ 52 ∧ n = 2 ^ 53 := by omega
    obtain ⟨rfl, rfl, rfl⟩ := hcarry
    rw [pow_succ 2 doublings]
    ring

/-- How often the gap between two magnitudes near a quotient is doubled. -/
def doublings (num den : Nat) : Nat := (num / den).log2 - 52

/-- The rounded significand of a quotient. -/
def rounded (num den : Nat) : Nat := roundHalfEven num (den * 2 ^ doublings num den)

theorem nearestBits_le (num den : Nat) : nearestBits num den ≤ 2047 * 2 ^ 52 := Nat.min_le_right _ _

section Nearest

variable {negative : Bool} {num den : Nat}

theorem bits_nearest (negative : Bool) (num den : Nat) :
    (nearest negative num den).negative = negative ∧
      (nearest negative num den).bits.toNat % 2 ^ 63 = nearestBits num den := by
  have hle := nearestBits_le num den
  have hbits : (nearest negative num den).bits.toNat =
      (if negative then 2 ^ 63 else 0) + nearestBits num den := by
    show (UInt64.ofNat _).toNat = _
    rw [UInt64.toNat_ofNat', Nat.mod_eq_of_lt]
    split <;> omega
  cases negative with
  | false =>
      simp only [Bool.false_eq_true, if_false, Nat.zero_add] at hbits
      refine ⟨?_, by omega⟩
      simp only [Binary64.negative, hbits, decide_eq_false_iff_not]
      omega
  | true =>
      simp only [if_true] at hbits
      refine ⟨?_, by omega⟩
      simp only [Binary64.negative, hbits, decide_eq_true_eq]
      omega

theorem nearestBits_of_finite (h : (nearest negative num den).isFinite = true) :
    nearestBits num den = doublings num den * 2 ^ 52 + rounded num den := by
  have hle := nearestBits_le num den
  have hbits := (bits_nearest negative num den).2
  have hfield := exponentField_lt h
  unfold exponentField at hfield
  have hlt : nearestBits num den < 2047 * 2 ^ 52 := by omega
  have hmin : nearestBits num den =
      min (doublings num den * 2 ^ 52 + rounded num den) (2047 * 2 ^ 52) := rfl
  omega

/-- The quotient has at most fifty-three bits in front of the gap. -/
theorem rounded_le (num : Nat) (hden : 0 < den) : rounded num den ≤ 2 ^ 53 := by
  have hD : 0 < den * 2 ^ doublings num den := by positivity
  have hlog : num / den < 2 ^ (53 + doublings num den) := by
    refine Nat.lt_log2_self.trans_le (Nat.pow_le_pow_right (by omega) ?_)
    unfold doublings
    omega
  have hnum : num < 2 ^ 53 * (den * 2 ^ doublings num den) := by
    have h := (Nat.div_lt_iff_lt_mul hden).mp hlog
    rw [pow_add] at h
    linarith
  have hlower := (roundHalfEven_bounds num hD).1
  unfold rounded
  by_contra hgt
  have hmul := Nat.mul_le_mul_right (den * 2 ^ doublings num den) (not_le.mp hgt)
  rw [Nat.succ_mul] at hmul
  omega

/-- Where the gap is doubled at all, the quotient has fifty-three bits in front of it. -/
theorem full_of_doublings (hden : 0 < den) (h : 0 < doublings num den) :
    2 ^ 52 * (den * 2 ^ doublings num den) ≤ num := by
  have hne : num / den ≠ 0 := by
    intro h0
    rw [doublings, h0] at h
    simp at h
  have hlog : 2 ^ (52 + doublings num den) ≤ num / den := by
    refine le_trans (Nat.pow_le_pow_right (by omega) ?_) (Nat.log2_self_le hne)
    unfold doublings at h ⊢
    omega
  have hnum := (Nat.le_div_iff_mul_le hden).mp hlog
  rw [pow_add] at hnum
  linarith

theorem le_rounded (hden : 0 < den) (h : 0 < doublings num den) : 2 ^ 52 ≤ rounded num den := by
  have hD : 0 < den * 2 ^ doublings num den := by positivity
  have hfull := full_of_doublings hden h
  have hupper := (roundHalfEven_bounds num hD).2
  unfold rounded
  by_contra hlt
  have hmul := Nat.mul_le_mul_right (den * 2 ^ doublings num den) (not_le.mp hlt)
  rw [Nat.succ_mul] at hmul
  omega

theorem magnitude_nearest (hden : 0 < den) (h : (nearest negative num den).isFinite = true) :
    (nearest negative num den).magnitude = rounded num den * 2 ^ doublings num den :=
  magnitude_of_bits ((bits_nearest negative num den).2.trans (nearestBits_of_finite h))
    (rounded_le num hden) (le_rounded hden)

/-! ## No number is closer

A competitor has either at least as many doublings, and then its magnitude is a multiple of the
same gap, or fewer, and then it lies below the least significand with all its bits. In both cases
the closest multiple is at least as close. -/

/-- No magnitude is closer to a quotient than the one that it is rounded to. -/
theorem rounded_closest (num : Nat) (hden : 0 < den) (y : Binary64) :
    |((rounded num den * (den * 2 ^ doublings num den) : Nat) : Int) - num| ≤
      |((y.magnitude * den : Nat) : Int) - num| := by
  have hD : 0 < den * 2 ^ doublings num den := by positivity
  have hclosest := roundHalfEven_closest num hD
  by_cases hscale : doublings num den ≤ y.scale
  · -- a magnitude with at least as many doublings is a multiple of the gap
    have hmultiple : y.magnitude * den =
        y.significand * 2 ^ (y.scale - doublings num den) * (den * 2 ^ doublings num den) := by
      have hpow : 2 ^ y.scale = 2 ^ (y.scale - doublings num den) * 2 ^ doublings num den := by
        rw [← pow_add, Nat.sub_add_cancel hscale]
      rw [magnitude, hpow]
      ring
    rw [hmultiple]
    exact hclosest _
  · -- one with fewer is below a multiple of the gap that is below the quotient
    have hfull := full_of_doublings hden (by omega : 0 < doublings num den)
    have hbelow : y.magnitude * den ≤ 2 ^ 52 * (den * 2 ^ doublings num den) := by
      have hpow : 2 * 2 ^ y.scale ≤ 2 ^ doublings num den := by
        rw [← pow_succ']
        exact Nat.pow_le_pow_right (by omega) (by omega)
      have hsig := (significand_lt y).le
      calc y.magnitude * den = y.significand * 2 ^ y.scale * den := rfl
        _ ≤ 2 ^ 53 * 2 ^ y.scale * den := by gcongr
        _ = 2 ^ 52 * (den * (2 * 2 ^ y.scale)) := by ring
        _ ≤ 2 ^ 52 * (den * 2 ^ doublings num den) := by gcongr
    have hstep := hclosest (2 ^ 52)
    generalize y.magnitude * den = b at hbelow ⊢
    generalize 2 ^ 52 * (den * 2 ^ doublings num den) = c at hfull hbelow hstep
    refine hstep.trans ?_
    rw [abs_of_nonpos (by omega), abs_of_nonpos (by omega)]
    omega

/-- The same with signs: a number of the other sign is on the other side of zero. -/
theorem units_nearest_closest (hden : 0 < den) (h : (nearest negative num den).isFinite = true)
    (y : Binary64) :
    |(nearest negative num den).units * den - (if negative then -(num : Int) else num)| ≤
      |y.units * den - (if negative then -(num : Int) else num)| := by
  have hsame := rounded_closest num hden y
  have hzero := roundHalfEven_closest num (by positivity : 0 < den * 2 ^ doublings num den) 0
  have hmagnitude : ((rounded num den * (den * 2 ^ doublings num den) : Nat) : Int) =
      (nearest negative num den).magnitude * den := by
    rw [magnitude_nearest hden h]
    push_cast
    ring
  change |((rounded num den * _ : Nat) : Int) - num| ≤ _ at hzero
  rw [hmagnitude] at hsame hzero
  rw [Nat.zero_mul, Nat.cast_zero, zero_sub, abs_neg, Nat.abs_cast] at hzero
  rw [Nat.cast_mul] at hsame
  have hpos : (0 : Int) ≤ (y.magnitude : Int) * den := by positivity
  unfold units
  rw [(bits_nearest negative num den).1]
  generalize ((nearest negative num den).magnitude : Int) = m at hsame hzero ⊢
  generalize (y.magnitude : Int) = b at hsame hpos ⊢
  -- with both signs turned round the distances stay as they are
  have hturn : ∀ a : Int, |-a * den - -(num : Int)| = |a * den - num| := by
    intro a
    rw [← abs_neg]
    congr 1
    ring
  have hacross : (num : Int) ≤ |b * den + num| := by
    rw [abs_of_nonneg (by omega)]
    omega
  cases negative with
  | false =>
      simp only [Bool.false_eq_true, if_false]
      cases y.negative with
      | false => exact hsame
      | true =>
          refine hzero.trans (hacross.trans (le_of_eq ?_))
          rw [← abs_neg]
          congr 1
          simp only [if_true]
          ring
  | true =>
      simp only [if_true]
      rw [hturn]
      cases y.negative with
      | true =>
          simp only [if_true]
          rw [hturn]
          exact hsame
      | false =>
          refine hzero.trans (hacross.trans (le_of_eq ?_))
          congr 1
          simp only [Bool.false_eq_true, if_false]
          ring

/-- The distance of two quotients over a common denominator. -/
theorem abs_div_sub_div {a b den unit : ℚ} (hden : 0 < den) (hunit : 0 < unit) :
    |a / unit - b / den / unit| = |a * den - b| / (den * unit) := by
  have hsplit : a / unit - b / den / unit = (a * den - b) / (den * unit) := by
    field_simp
  rw [hsplit, abs_div, abs_of_pos (mul_pos hden hunit)]

/-- **The number that a quotient is rounded to is the nearest one**, if it is finite. -/
theorem isNearest_nearest (hden : 0 < den) (h : (nearest negative num den).isFinite = true) :
    IsNearest (nearest negative num den)
      ((if negative then -(num : ℚ) else num) / den / 2 ^ 1074) := by
  have hunit : (0 : ℚ) < 2 ^ 1074 := pow_pos two_pos _
  have hden' : (0 : ℚ) < den := Nat.cast_pos.mpr hden
  refine ⟨h, ?_⟩
  intro y _
  have hclosest : |((nearest negative num den).units : ℚ) * den -
        (if negative then -(num : ℚ) else num)| ≤
      |(y.units : ℚ) * den - (if negative then -(num : ℚ) else num)| := by
    exact_mod_cast units_nearest_closest hden h y
  rw [value, value, abs_div_sub_div hden' hunit, abs_div_sub_div hden' hunit]
  exact div_le_div_of_nonneg_right hclosest (mul_pos hden' hunit).le

/-! ## Integers

An integer is a quotient with denominator one. Those of sixty-four bits are so far below the
greatest finite number that no condition on the result is left. -/

theorem isFinite_nearest (hden : 0 < den) (h : doublings num den ≤ 2044) :
    (nearest negative num den).isFinite = true := by
  have hrounded := rounded_le num hden
  have hbits := (bits_nearest negative num den).2
  have hmin : nearestBits num den ≤ doublings num den * 2 ^ 52 + rounded num den :=
    Nat.min_le_left _ _
  simp only [isFinite, exponentField, bne_iff_ne, ne_eq]
  omega

theorem ofInt_eq (n : Int) : ofInt n = nearest (decide (n < 0)) (n.natAbs * 2 ^ 1074) 1 := by
  unfold ofInt ofDecimal
  rw [Int.toNat_zero, Int.neg_zero, Int.toNat_zero, Nat.pow_zero, Nat.mul_one]

/-- The integers that sixty-four bits hold are far from where the finite numbers end. -/
theorem isFinite_ofInt {n : Int} (h : n.natAbs < 2 ^ 64) : (ofInt n).isFinite = true := by
  rw [ofInt_eq]
  refine isFinite_nearest Nat.one_pos ?_
  have hnum : ∀ k, n.natAbs * 2 ^ k < 2 ^ (64 + k) * 1 := by
    intro k
    rw [Nat.mul_one, Nat.pow_add]
    exact Nat.mul_lt_mul_of_pos_right h (Nat.two_pow_pos k)
  have hlog := log2_div_lt (by omega) Nat.one_pos (hnum 1074)
  unfold doublings
  omega

/-- **The number for an integer is the nearest one.** -/
theorem isNearest_ofInt {n : Int} (h : n.natAbs < 2 ^ 64) : IsNearest (ofInt n) n := by
  have hfinite := isFinite_ofInt h
  rw [ofInt_eq] at hfinite ⊢
  have hnearest := isNearest_nearest Nat.one_pos hfinite
  have hunit : (2 : ℚ) ^ 1074 ≠ 0 := pow_ne_zero _ two_ne_zero
  have hvalue : (if decide (n < 0) = true then -((n.natAbs * 2 ^ 1074 : Nat) : ℚ)
      else (n.natAbs * 2 ^ 1074 : Nat)) / (1 : Nat) / 2 ^ 1074 = n := by
    rw [Nat.cast_one, div_one, Nat.cast_mul, Nat.cast_pow, Nat.cast_ofNat]
    generalize (2 : ℚ) ^ 1074 = unit at hunit ⊢
    by_cases hn : n < 0
    · have habs : (n.natAbs : ℚ) = -n := by rw [Nat.cast_natAbs, abs_of_neg hn, Int.cast_neg]
      simp only [hn, decide_true, if_true, habs]
      field_simp
    · have habs : (n.natAbs : ℚ) = n := by rw [Nat.cast_natAbs, abs_of_nonneg (not_lt.mp hn)]
      simp only [hn, decide_false, Bool.false_eq_true, if_false, habs]
      field_simp
  rwa [hvalue] at hnearest

end Nearest

end Binary64

end GraphQuery.Number
