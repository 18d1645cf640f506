import GraphQuery.Proofs.Number.Rounding

set_option autoImplicit false

/-! # Shortest decimals stand for their number

The search for the shortest decimal only accepts decimals that its number attracts, and falls back
on the exact value, which is attracted too. Cutting zeros off the end of the digits keeps the value.
So whatever digits and exponent are written for a number, if they have the value of its shortest
decimal then `Binary64.ofDecimal` reads the number back.
-/

namespace GraphQuery.Number

/-- The value of a decimal. -/
def Decimal.value (d : Decimal) : ℚ := d.digits * (10 : ℚ) ^ d.exponent

theorem Decimal.value_trimmed (digits : Nat) (exponent : Int) :
    (Decimal.trimmed digits exponent).value = digits * (10 : ℚ) ^ exponent := by
  fun_induction Decimal.trimmed digits exponent with
  | case1 digits exponent h ih =>
      obtain ⟨k, hk⟩ : ∃ k, digits = 10 * k := ⟨digits / 10, by omega⟩
      rw [ih, hk, Nat.mul_div_cancel_left k (by norm_num), zpow_add_one₀ (by norm_num)]
      push_cast
      ring
  | case2 digits exponent h => rfl

theorem mul_zpow_natCast_sub (n place : Nat) (e : Int) :
    (n : ℚ) * (10 : ℚ) ^ ((place : Int) - e) = ((n * 10 ^ place : Nat) : ℚ) * (10 : ℚ) ^ (-e) := by
  rw [sub_eq_add_neg, zpow_add₀ (by norm_num), zpow_natCast]
  push_cast
  ring

namespace Binary64

variable {x : Binary64}

/-! ## Attracted ticks

Only one property of the search matters here: it accepts nothing that the number does not
attract. That the decimal is the shortest plays no part in reading it back. -/

theorem quarterGap_pos (x : Binary64) : 0 < x.quarterGap := by
  rw [quarterGap]
  exact Nat.mul_pos (Nat.mul_pos (by positivity) (by positivity)) (by decide)

-- only the sign of the gap matters below, and its power of five is too large to compute with
attribute [local irreducible] quarterGap

/-- The attracted ticks: those between the halfway points, which an odd significand leaves out. -/
theorem attracts_iff (x : Binary64) (t : Nat) :
    x.attracts t = true ↔
      x.ticks ≤ t + (if x.narrowBelow then 1 else 2) * x.quarterGap ∧
      t ≤ x.ticks + 2 * x.quarterGap ∧
      (x.significand % 2 = 1 →
        0 < t ∧ x.ticks ≠ t + (if x.narrowBelow then 1 else 2) * x.quarterGap ∧
          t ≠ x.ticks + 2 * x.quarterGap) := by
  unfold attracts lowerEnd upperEnd
  generalize (if x.narrowBelow then 1 else 2) * x.quarterGap = w
  generalize 2 * x.quarterGap = u
  generalize x.ticks = m
  rcases Nat.mod_two_eq_zero_or_one x.significand with h | h
  · simp only [h, if_true, decide_eq_true_eq, zero_ne_one, false_implies, and_true]
    omega
  · simp only [h, if_false, decide_eq_true_eq, one_ne_zero, forall_const]
    omega

/-- A number attracts its own magnitude. -/
theorem attracts_ticks (x : Binary64) : x.attracts x.ticks = true := by
  have hq := quarterGap_pos x
  rw [attracts_iff]
  refine ⟨Nat.le_add_right _ _, Nat.le_add_right _ _, fun hodd => ?_⟩
  have hs : 0 < 4 * x.significand := by omega
  have ht : 0 < x.ticks := Nat.mul_pos hs hq
  refine ⟨ht, ?_, by omega⟩
  split <;> omega

theorem attracts_of_closestOnGrid {place n : Nat} (h : x.closestOnGrid place = some n) :
    x.attracts (n * 10 ^ place) = true := by
  unfold closestOnGrid at h
  simp only at h
  split at h
  next hlow hhigh =>
      split at h
      · rw [← Option.some.inj h]; exact hlow
      · rw [← Option.some.inj h]; exact hhigh
  next hlow _ => rw [← Option.some.inj h]; exact hlow
  next _ hhigh => rw [← Option.some.inj h]; exact hhigh
  next => simp at h

/-- **The shortest decimal of a number is attracted by it.** -/
theorem exists_attracts_shortest (x : Binary64) :
    ∃ t, x.attracts t = true ∧ x.shortest.value = t * (10 : ℚ) ^ (-1076 : Int) := by
  unfold shortest
  simp only
  -- which grid the search stops at does not matter, only that its decimal is attracted
  generalize hfound : List.findSome? _ (List.range 17) = found
  cases found with
  | none =>
      refine ⟨x.ticks, attracts_ticks x, ?_⟩
      rw [Option.getD_none, Decimal.value_trimmed]
  | some d =>
      obtain ⟨more, -, hd⟩ := List.exists_of_findSome?_eq_some hfound
      obtain ⟨n, hn, rfl⟩ := Option.map_eq_some_iff.mp hd
      refine ⟨_, attracts_of_closestOnGrid hn, ?_⟩
      rw [Option.getD_some, Decimal.value_trimmed, mul_zpow_natCast_sub]

/-! ## From ticks to quotients

The search compares ticks and the rounding compares quotients. Both compare with multiples of the
quarter gap, so the comparisons carry over by multiplying with the denominator. -/

/-- A quotient and a number of ticks of the same magnitude. -/
def SameMagnitude (x : Binary64) (num den t : Nat) : Prop :=
  4 * num * x.quarterGap = t * (den * 2 ^ x.scale)

section Units

variable {num den t : Nat}

/-- Ticks compare with multiples of the quarter gap as quotients do. -/
theorem SameMagnitude.eq_mul (h : SameMagnitude x num den t) (b : Nat) :
    (t + b * x.quarterGap) * (den * 2 ^ x.scale)
      = (4 * num + b * (den * 2 ^ x.scale)) * x.quarterGap := by
  calc (t + b * x.quarterGap) * (den * 2 ^ x.scale)
      = t * (den * 2 ^ x.scale) + b * x.quarterGap * (den * 2 ^ x.scale) := Nat.add_mul _ _ _
    _ = 4 * num * x.quarterGap + b * x.quarterGap * (den * 2 ^ x.scale) := by rw [h]
    _ = (4 * num + b * (den * 2 ^ x.scale)) * x.quarterGap := by ring

theorem SameMagnitude.le_iff (h : SameMagnitude x num den t) (hden : 0 < den) (a b : Nat) :
    a * x.quarterGap ≤ t + b * x.quarterGap ↔
      a * (den * 2 ^ x.scale) ≤ 4 * num + b * (den * 2 ^ x.scale) := by
  have hD : 0 < den * 2 ^ x.scale := Nat.mul_pos hden (Nat.pow_pos Nat.two_pos)
  calc a * x.quarterGap ≤ t + b * x.quarterGap
      ↔ a * x.quarterGap * (den * 2 ^ x.scale) ≤ (t + b * x.quarterGap) * (den * 2 ^ x.scale) :=
        (Nat.mul_le_mul_right_iff hD).symm
    _ ↔ a * (den * 2 ^ x.scale) * x.quarterGap
          ≤ (4 * num + b * (den * 2 ^ x.scale)) * x.quarterGap := by
        rw [h.eq_mul, Nat.mul_right_comm]
    _ ↔ a * (den * 2 ^ x.scale) ≤ 4 * num + b * (den * 2 ^ x.scale) :=
        Nat.mul_le_mul_right_iff (quarterGap_pos x)

theorem SameMagnitude.ge_iff (h : SameMagnitude x num den t) (hden : 0 < den) (a b : Nat) :
    t + b * x.quarterGap ≤ a * x.quarterGap ↔
      4 * num + b * (den * 2 ^ x.scale) ≤ a * (den * 2 ^ x.scale) := by
  have hD : 0 < den * 2 ^ x.scale := Nat.mul_pos hden (Nat.pow_pos Nat.two_pos)
  calc t + b * x.quarterGap ≤ a * x.quarterGap
      ↔ (t + b * x.quarterGap) * (den * 2 ^ x.scale) ≤ a * x.quarterGap * (den * 2 ^ x.scale) :=
        (Nat.mul_le_mul_right_iff hD).symm
    _ ↔ (4 * num + b * (den * 2 ^ x.scale)) * x.quarterGap
          ≤ a * (den * 2 ^ x.scale) * x.quarterGap := by
        rw [h.eq_mul, Nat.mul_right_comm a]
    _ ↔ 4 * num + b * (den * 2 ^ x.scale) ≤ a * (den * 2 ^ x.scale) :=
        Nat.mul_le_mul_right_iff (quarterGap_pos x)

/-- Being between the halfway points does not depend on the unit. -/
theorem near_of_attracts (hden : 0 < den) (ht : x.attracts t = true)
    (hsame : SameMagnitude x num den t) : Near x num den := by
  rw [attracts_iff, ticks] at ht
  have le_iff := hsame.le_iff hden
  have ge_iff := hsame.ge_iff hden
  obtain ⟨hlower, hupper, hodd⟩ := ht
  constructor
  · rw [← Nat.mul_assoc, ← le_iff]
    exact hlower
  · have := (ge_iff (4 * x.significand + 2) 0).mp (by linarith)
    linarith
  · intro ho
    obtain ⟨-, hne, hne'⟩ := hodd ho
    constructor
    · intro heq
      rw [← Nat.mul_assoc] at heq
      exact hne (Nat.le_antisymm ((le_iff _ _).mpr heq.le) ((ge_iff _ _).mpr heq.ge))
    · intro heq
      have h := (le_iff (4 * x.significand + 2) 0).mpr (by linarith)
      exact hne' (Nat.le_antisymm hupper (by linarith))

end Units

/-! ## Reading back

A decimal becomes a quotient by moving its negative exponent into the denominator. As rationals
the decimal, its ticks and the quotient are the same number, in units of their own. -/

/-- A decimal as the quotient that `ofDecimal` rounds. -/
theorem ofDecimal_quotient (digits : Nat) (exponent : Int) (k : Nat) :
    ((digits * 10 ^ exponent.toNat * 2 ^ k : Nat) : ℚ)
      = digits * (10 : ℚ) ^ exponent * 2 ^ k * (10 ^ (-exponent).toNat : Nat) := by
  have hten : (10 : ℚ) ^ exponent * (10 : ℚ) ^ (-exponent).toNat = (10 : ℚ) ^ exponent.toNat := by
    rw [← zpow_natCast, ← zpow_natCast, ← zpow_add₀ (by norm_num)]
    congr 1
    omega
  calc ((digits * 10 ^ exponent.toNat * 2 ^ k : Nat) : ℚ)
      = digits * (10 : ℚ) ^ exponent.toNat * 2 ^ k := by push_cast; rfl
    _ = digits * ((10 : ℚ) ^ exponent * (10 : ℚ) ^ (-exponent).toNat) * 2 ^ k := by rw [hten]
    _ = digits * (10 : ℚ) ^ exponent * 2 ^ k * (10 ^ (-exponent).toNat : Nat) := by
        push_cast
        ring

theorem hundred_mul_pow (k : Nat) :
    (100 : ℚ) * (2 ^ k * 5 ^ k) * (10 : ℚ) ^ (-((k + 2 : Nat) : Int)) = 1 := by
  rw [← mul_pow, zpow_neg, zpow_natCast, pow_add, show (2 : ℚ) * 5 = 10 by norm_num]
  have : (10 : ℚ) ^ k ≠ 0 := by positivity
  field_simp
  norm_num

theorem cast_quarterGap (x : Binary64) :
    (x.quarterGap : ℚ) = 2 ^ x.scale * 5 ^ 1074 * 25 := by
  rw [quarterGap, Nat.cast_mul, Nat.cast_mul, Nat.cast_pow, Nat.cast_pow, Nat.cast_ofNat,
    Nat.cast_ofNat, Nat.cast_ofNat]

theorem sameMagnitude_ofDecimal {digits t : Nat} {exponent : Int}
    (h : (digits : ℚ) * (10 : ℚ) ^ exponent = t * (10 : ℚ) ^ (-1076 : Int)) :
    SameMagnitude x (digits * 10 ^ exponent.toNat * 2 ^ 1074) (10 ^ (-exponent).toNat) t := by
  have hunit : (100 : ℚ) * (2 ^ 1074 * 5 ^ 1074) * (10 : ℚ) ^ (-1076 : Int) = 1 :=
    hundred_mul_pow 1074
  have hnum := ofDecimal_quotient digits exponent 1074
  have hgap := cast_quarterGap x
  rw [h] at hnum
  unfold SameMagnitude
  generalize digits * 10 ^ exponent.toNat * 2 ^ 1074 = num at *
  generalize 10 ^ (-exponent).toNat = den at *
  generalize (10 : ℚ) ^ (-1076 : Int) = u at *
  generalize (2 : ℚ) ^ 1074 = g at *
  generalize (5 : ℚ) ^ 1074 = f at *
  -- the powers of two, of five and of ten cancel; only the scale of the number is left
  have hrat : 4 * (num : ℚ) * x.quarterGap = t * (den * 2 ^ x.scale) :=
    calc 4 * (num : ℚ) * x.quarterGap
        = 4 * (t * u * g * den) * (2 ^ x.scale * f * 25) := by rw [hnum, hgap]
      _ = 100 * (g * f) * u * (t * (den * 2 ^ x.scale)) := by ring
      _ = t * (den * 2 ^ x.scale) := by rw [hunit, one_mul]
  exact_mod_cast hrat

theorem ofDecimal_of_attracts {digits t : Nat} {exponent : Int} (hx : x.isFinite = true)
    (ht : x.attracts t = true)
    (h : (digits : ℚ) * (10 : ℚ) ^ exponent = t * (10 : ℚ) ^ (-1076 : Int)) :
    ofDecimal x.negative digits exponent = x := by
  have hden : 0 < 10 ^ (-exponent).toNat := by positivity
  have hsame := sameMagnitude_ofDecimal (x := x) h
  have hnear := near_of_attracts hden ht hsame
  rw [ofDecimal]
  exact hnear.nearest_eq hx hden

/-- **A decimal of the right value is read back**: it rounds to the number whose shortest decimal
has that value. -/
theorem ofDecimal_of_value {digits : Nat} {exponent : Int} (hx : x.isFinite = true)
    (h : (digits : ℚ) * (10 : ℚ) ^ exponent = x.shortest.value) :
    ofDecimal x.negative digits exponent = x := by
  obtain ⟨t, ht, hvalue⟩ := exists_attracts_shortest x
  exact ofDecimal_of_attracts hx ht (h.trans hvalue)

/-- Either zero is read back from digits that are all zero. -/
theorem ofDecimal_zero (exponent : Int) (hx : x.isFinite = true) (hzero : x.isZero = true) :
    ofDecimal x.negative 0 exponent = x := by
  have hmag : x.bits.toNat % 2 ^ 63 = 0 := by simpa [isZero] using hzero
  have hs : x.significand = 0 := by
    have := magnitude_eq x
    omega
  have hticks : x.ticks = 0 := by rw [ticks, hs, Nat.mul_zero, Nat.zero_mul]
  refine ofDecimal_of_attracts hx (attracts_ticks x) ?_
  rw [hticks, Nat.cast_zero, zero_mul, zero_mul]

end Binary64

end GraphQuery.Number
