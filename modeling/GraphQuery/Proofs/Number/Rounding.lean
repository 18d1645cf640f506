import Mathlib
import GraphQuery.Number.Decimal

set_option autoImplicit false

/-! # Rounding a decimal back

A finite binary number attracts the decimals between its two halfway points. This file shows that
`Binary64.nearest` takes every decimal that a number attracts back to that very number, and that the
shortest decimal of a number is one of them. Together these say that a number is determined by its
shortest decimal and its sign.

A quotient `num / den` stands for the same magnitude as `t` ticks when
`4 * num * quarterGap = t * (den * 2 ^ scale)`; halfway points are then compared after multiplying
by `den * 2 ^ scale`, so that everything stays within the naturals.
-/

namespace GraphQuery.Number

namespace Binary64

/-! ## Rounding to a natural number

The converse of what rounding promises: a natural number within half a step is the result,
provided that ties go the right way. -/

/-- The nearest natural number is the one whose distance is at most a half, an even one in case of
a tie. -/
theorem roundHalfEven_eq {num den n : Nat} (hden : 0 < den)
    (lower : 2 * (n * den) ≤ 2 * num + den) (upper : 2 * num ≤ 2 * (n * den) + den)
    (odd : n % 2 = 1 → 2 * (n * den) ≠ 2 * num + den ∧ 2 * num ≠ 2 * (n * den) + den) :
    roundHalfEven num den = n := by
  have hsplit : num / den * den + num % den = num := Nat.div_add_mod' num den
  have hrem : num % den < den := Nat.mod_lt num hden
  unfold roundHalfEven
  rcases Nat.lt_trichotomy (num / den) n with h | h | h
  · -- two steps below would leave more than half a step, so the quotient is one step below
    have hlow : n = num / den + 1 := by
      by_contra hne
      have hmul := Nat.mul_le_mul_right den (show num / den + 2 ≤ n by omega)
      rw [Nat.add_mul] at hmul
      omega
    have hmul : n * den = num / den * den + den := by rw [hlow, Nat.succ_mul]
    by_cases htie : 2 * (num % den) = den
    · have heven : ¬ num / den % 2 = 0 := by
        intro he
        exact (odd (by omega)).1 (by omega)
      simp [htie, heven, hlow]
    · simp [show ¬ 2 * (num % den) < den by omega, show den < 2 * (num % den) by omega, hlow]
  · by_cases htie : 2 * (num % den) = den
    · have heven : num / den % 2 = 0 := by
        by_contra ho
        exact (odd (by omega)).2 (by rw [← h]; omega)
      rw [h] at heven ⊢
      simp [htie, heven]
    · simp [show 2 * (num % den) < den by rw [← h] at upper; omega, h]
  · have hmul := Nat.mul_le_mul_right den h
    rw [Nat.succ_mul] at hmul
    omega

/-! ## The fields of a finite number

The two lemmas on `scale` are about normal numbers: with a doubling there is a leading bit, so
the least significand of an exponent has fraction zero. -/

section Fields

variable {x : Binary64}

theorem exponentField_lt (hx : x.isFinite = true) : x.exponentField < 2047 := by
  have h : x.exponentField ≠ 2047 := by simpa [isFinite] using hx
  have : x.exponentField < 2 ^ 11 := Nat.mod_lt _ (by norm_num)
  omega

theorem fraction_lt (x : Binary64) : x.fraction < 2 ^ 52 := Nat.mod_lt _ (by norm_num)

theorem significand_lt (x : Binary64) : x.significand < 2 ^ 53 := by
  have := fraction_lt x
  unfold significand
  split <;> omega

/-- All bits but the sign count the doublings and the significand together: a significand that is
rounded up to the next power of two carries into the exponent field. -/
theorem magnitude_eq (x : Binary64) :
    x.bits.toNat % 2 ^ 63 = x.scale * 2 ^ 52 + x.significand := by
  have hbits : x.bits.toNat < 2 ^ 64 := x.bits.toNat_lt
  unfold scale significand exponentField fraction
  split <;> omega

theorem le_significand_of_scale (h : 0 < x.scale) : 2 ^ 52 ≤ x.significand := by
  unfold scale at h
  unfold significand
  rw [if_neg (by omega)]
  omega

theorem narrowBelow_of_significand (h : 0 < x.scale) (hs : x.significand = 2 ^ 52) :
    x.narrowBelow = true := by
  unfold scale at h
  unfold significand at hs
  rw [if_neg (by omega)] at hs
  have hf : x.fraction = 0 := by omega
  simp [narrowBelow, hf]
  omega

end Fields

/-! ## Quotients near a number

How often the gap is doubled is found from the logarithm of the quotient. A quotient near a
number has the doublings of that number, except just below a power of two, where it belongs to
the finer grid and rounds up to the coarser one. -/

/-- The quotient `num / den` lies between the halfway points of a number: its lower end is half a
gap away, or a quarter where the gap below is half as wide, and an odd significand has neither
end. -/
structure Near (x : Binary64) (num den : Nat) : Prop where
  lower : 4 * (x.significand * (den * 2 ^ x.scale))
    ≤ 4 * num + (if x.narrowBelow then 1 else 2) * (den * 2 ^ x.scale)
  upper : 4 * num ≤ 4 * (x.significand * (den * 2 ^ x.scale)) + 2 * (den * 2 ^ x.scale)
  odd : x.significand % 2 = 1 →
    4 * (x.significand * (den * 2 ^ x.scale))
        ≠ 4 * num + (if x.narrowBelow then 1 else 2) * (den * 2 ^ x.scale) ∧
      4 * num ≠ 4 * (x.significand * (den * 2 ^ x.scale)) + 2 * (den * 2 ^ x.scale)

section Nearest

variable {x : Binary64} {num den : Nat}

theorem Near.lower_half (h : Near x num den) :
    2 * (x.significand * (den * 2 ^ x.scale)) ≤ 2 * num + den * 2 ^ x.scale := by
  have := h.lower
  split at this <;> omega

theorem Near.roundHalfEven_eq (h : Near x num den) (hden : 0 < den) :
    roundHalfEven num (den * 2 ^ x.scale) = x.significand := by
  have hD : 0 < den * 2 ^ x.scale := by positivity
  have hl := h.lower
  have hu := h.upper
  refine Binary64.roundHalfEven_eq hD h.lower_half (by omega) ?_
  intro hodd
  obtain ⟨h1, h2⟩ := h.odd hodd
  refine ⟨?_, by omega⟩
  cases hn : x.narrowBelow with
  | false => simp only [hn, Bool.false_eq_true, if_false] at h1; omega
  | true => simp only [hn, if_true] at hl; omega

theorem log2_div_lt {k : Nat} (hk : 0 < k) (hden : 0 < den) (h : num < 2 ^ k * den) :
    (num / den).log2 < k := by
  have hq : num / den < 2 ^ k := (Nat.div_lt_iff_lt_mul hden).mpr h
  rcases Nat.eq_zero_or_pos (num / den) with h0 | h0
  · simpa [h0] using hk
  · exact (Nat.log2_lt (by omega)).mpr hq

theorem le_log2_div {k : Nat} (hden : 0 < den) (h : 2 ^ k * den ≤ num) :
    k ≤ (num / den).log2 := by
  have hq : 2 ^ k ≤ num / den := (Nat.le_div_iff_mul_le hden).mpr h
  have h0 : num / den ≠ 0 := by
    have : 0 < 2 ^ k := by positivity
    omega
  exact (Nat.le_log2 h0).mpr hq

theorem Near.lt_top (h : Near x num den) (hden : 0 < den) :
    num < 2 ^ (53 + x.scale) * den := by
  have hs : x.significand + 1 ≤ 2 ^ 53 := significand_lt x
  have hD : 0 < den * 2 ^ x.scale := by positivity
  have hstep : (x.significand + 1) * (den * 2 ^ x.scale) ≤ 2 ^ 53 * (den * 2 ^ x.scale) :=
    Nat.mul_le_mul_right _ hs
  have hnum : num < (x.significand + 1) * (den * 2 ^ x.scale) := by
    rw [Nat.add_mul]
    have := h.upper
    omega
  calc num < (x.significand + 1) * (den * 2 ^ x.scale) := hnum
    _ ≤ 2 ^ 53 * (den * 2 ^ x.scale) := hstep
    _ = 2 ^ (53 + x.scale) * den := by rw [pow_add]; ring

/-- A quotient below the least significand of the exponent is near no other number than that with
the least significand, whose lower end is in reach from below. -/
theorem Near.significand_of_lt (h : Near x num den) (hden : 0 < den) (hk : 0 < x.scale)
    (hlt : num < 2 ^ 52 * (den * 2 ^ x.scale)) : x.significand = 2 ^ 52 := by
  have hs := le_significand_of_scale hk
  have hD : 0 < den * 2 ^ x.scale := by positivity
  by_contra hne
  have hs1 : 2 ^ 52 + 1 ≤ x.significand := by omega
  have hmul := Nat.mul_le_mul_right (den * 2 ^ x.scale) hs1
  have hlower := h.lower_half
  rw [Nat.add_mul] at hmul
  omega

/-- **A quotient near a number rounds to that number.** -/
theorem Near.nearestBits_eq (h : Near x num den) (hx : x.isFinite = true) (hden : 0 < den) :
    nearestBits num den = x.bits.toNat % 2 ^ 63 := by
  have hmag := magnitude_eq x
  have hE := exponentField_lt hx
  have htop := log2_div_lt (by omega) hden (h.lt_top hden)
  have hmax : x.bits.toNat % 2 ^ 63 ≤ 2047 * 2 ^ 52 := by
    have := significand_lt x
    have : x.scale ≤ 2045 := by unfold scale; omega
    omega
  unfold nearestBits
  simp only
  by_cases hlow : x.scale = 0 ∨ 2 ^ 52 * (den * 2 ^ x.scale) ≤ num
  · -- the quotient has as many doublings as the number
    have hd : (num / den).log2 - 52 = x.scale := by
      rcases hlow with h0 | hle
      · omega
      · have : 52 + x.scale ≤ (num / den).log2 := by
          refine le_log2_div hden ?_
          rw [pow_add]
          linarith
        omega
    rw [hd, h.roundHalfEven_eq hden, ← hmag]
    exact Nat.min_eq_left hmax
  · -- it has one doubling less and rounds up to a power of two
    simp only [not_or, not_le] at hlow
    obtain ⟨k, hk⟩ : ∃ k, x.scale = k + 1 := ⟨x.scale - 1, by omega⟩
    have hs := h.significand_of_lt hden (by omega) hlow.2
    have hlower := h.lower
    have hD : 0 < den * 2 ^ k := by positivity
    have hhalf : den * 2 ^ x.scale = 2 * (den * 2 ^ k) := by rw [hk, pow_succ]; ring
    rw [narrowBelow_of_significand (by omega) hs, if_pos rfl, hs, hhalf] at hlower
    rw [hhalf] at hlow
    have hd : (num / den).log2 - 52 = k := by
      have h1 : (num / den).log2 < 53 + k := by
        refine log2_div_lt (by omega) hden ?_
        rw [pow_add]
        nlinarith [hlow.2]
      have h2 : 52 + k ≤ (num / den).log2 := by
        refine le_log2_div hden ?_
        rw [pow_add]
        nlinarith
      omega
    have hround : roundHalfEven num (den * 2 ^ k) = 2 ^ 53 :=
      Binary64.roundHalfEven_eq hD (by nlinarith) (by nlinarith [hlow.2]) (by norm_num)
    rw [hd, hround]
    have : k * 2 ^ 52 + 2 ^ 53 = x.bits.toNat % 2 ^ 63 := by
      rw [hmag, hk, hs]; ring
    rw [this]
    exact Nat.min_eq_left hmax

theorem Near.nearest_eq (h : Near x num den) (hx : x.isFinite = true) (hden : 0 < den) :
    nearest x.negative num den = x := by
  have hbits : x.bits.toNat < 2 ^ 64 := x.bits.toNat_lt
  have hsum : (if x.negative then 2 ^ 63 else 0) + x.bits.toNat % 2 ^ 63 = x.bits.toNat := by
    unfold negative
    by_cases hn : 2 ^ 63 ≤ x.bits.toNat
    · simp only [decide_eq_true hn, if_true]; omega
    · simp only [decide_eq_false hn, Bool.false_eq_true, if_false]; omega
  unfold nearest
  rw [h.nearestBits_eq hx hden, hsum, UInt64.ofNat_toNat]

end Nearest

end Binary64

end GraphQuery.Number
