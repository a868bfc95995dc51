import Cs162.FixedPoint
import Cs162.MachineInt

/-!
# How exact the fixed-point numbers are

Products and quotients are taken in 64 bits and come out truncated whenever they fit. The rest of
the header promises more than it keeps. The sixteen integer bits include the sign, but
`FIX_MAX_INT` is the largest number of sixteen bits without one, so `fix_int` and `fix_frac` admit
arguments that overflow. And `fix_round` adds one half before a division that truncates toward
zero, which rounds most negative numbers up.
-/

namespace Pintos

open IntExpr (InRange)

/-- `FIX_MAX_INT`. -/
def fixMaxInt : ℤ := 2 ^ 16 - 1

/-- What `fix_int` asserts of its argument. -/
def FixIntAdmits (n : ℤ) : Prop := -fixMaxInt ≤ n ∧ n ≤ fixMaxInt

/-- What `fix_frac` asserts of its arguments. -/
def FixFracAdmits (n d : ℤ) : Prop := d ≠ 0 ∧ FixIntAdmits (n.tdiv d)

theorem int32_eq_iff (n : ℤ) : int32 n = n ↔ InRange 32 n :=
  IntExpr.bmod_eq_self_iff (by decide) n

theorem int32_of_inRange {n : ℤ} (h : InRange 32 n) : int32 n = n := (int32_eq_iff n).2 h

/-! ## Rounding -/

/-- Without overflow the sum is rounded to the nearest integer from zero up, and below zero only
if it is an integer already. -/
theorem fixRound_sum_near_iff (s : ℤ) :
    2 * |s.tdiv fixF * fixF - (s - 2 ^ 15)| ≤ fixF ↔ 0 ≤ s ∨ fixF ∣ s := by
  have habs : ∀ a : ℤ, 2 * |a| ≤ 2 ^ 16 ↔ -2 ^ 15 ≤ a ∧ a ≤ 2 ^ 15 := by
    intro a
    rw [← abs_le]
    omega
  unfold fixF
  rw [habs]
  obtain h | h := le_or_gt 0 s
  · rw [Int.tdiv_eq_ediv_of_nonneg h]
    omega
  · have hdiv : s.tdiv (2 ^ 16) = -(-s / 2 ^ 16) := by
      rw [← Int.tdiv_eq_ediv_of_nonneg (by omega), Int.neg_tdiv, neg_neg]
    rw [hdiv]
    omega

/-- **When rounding is off by one half at most**: the sum must not overflow, and it must not be a
negative number that has something to round. -/
theorem fixRound_near_iff {x : FixedPoint} (hx : InRange 32 x.f) :
    2 * |fixRound x * fixF - x.f| ≤ fixF
      ↔ x.f < 2 ^ 31 - 2 ^ 15 ∧ (-2 ^ 15 ≤ x.f ∨ fixF ∣ x.f + 2 ^ 15) := by
  obtain ⟨hlo, hhi⟩ := hx
  have hhalf : fixF / 2 = 2 ^ 15 := by decide
  unfold fixRound
  rw [hhalf]
  obtain h | h := lt_or_ge x.f (2 ^ 31 - 2 ^ 15)
  · have hrange : InRange 32 (x.f + 2 ^ 15) := ⟨by omega, by omega⟩
    have hnear := fixRound_sum_near_iff (x.f + 2 ^ 15)
    rw [add_sub_cancel_right] at hnear
    rw [int32_of_inRange hrange, hnear]
    omega
  · -- The overflown sum is negative, so the result is far below `x`.
    have hwrap : int32 (x.f + 2 ^ 15) = x.f + 2 ^ 15 - 2 ^ 32 := by
      unfold int32
      rw [Int.bmod_def]
      omega
    have hneg : (int32 (x.f + 2 ^ 15)).tdiv fixF ≤ 0 := by
      rw [hwrap, ← neg_nonneg, ← Int.neg_tdiv]
      exact Int.tdiv_nonneg (by omega) (by decide)
    have hfar : ¬ 2 * |(int32 (x.f + 2 ^ 15)).tdiv fixF * fixF - x.f| ≤ fixF := by
      have := neg_le_abs ((int32 (x.f + 2 ^ 15)).tdiv fixF * fixF - x.f)
      unfold fixF at *
      omega
    simp only [hfar, false_iff, not_and]
    omega

/-! ## Integers and fractions -/

theorem fixInt_eq_iff (n : ℤ) : (fixInt n).f = n * fixF ↔ -2 ^ 15 ≤ n ∧ n < 2 ^ 15 := by
  have h := int32_eq_iff (n * fixF)
  unfold InRange fixF at h
  unfold fixInt fixF
  rw [h]
  omega

/-- A truncated quotient fits exactly if the quotient is above the number below the smallest. -/
theorem inRange_tdiv_iff (a : ℤ) {b : ℤ} (hb : 0 < b) :
    InRange 32 (a.tdiv b) ↔ -(2 ^ 31 + 1) * b < a ∧ a < 2 ^ 31 * b := by
  unfold InRange
  obtain h | h := le_or_gt 0 a
  · have hq : 0 ≤ a / b := Int.ediv_nonneg h hb.le
    rw [Int.tdiv_eq_ediv_of_nonneg h, Int.ediv_lt_iff_lt_mul hb]
    constructor
    · rintro ⟨-, hlt⟩
      exact ⟨by nlinarith, hlt⟩
    · rintro ⟨-, hlt⟩
      exact ⟨by omega, hlt⟩
  · have hdiv : a.tdiv b = -(-a / b) := by
      rw [← Int.tdiv_eq_ediv_of_nonneg (by omega), Int.neg_tdiv, neg_neg]
    have hq : 0 ≤ -a / b := Int.ediv_nonneg (by omega) hb.le
    have hlow : -a / b < 2 ^ 31 + 1 ↔ -a < (2 ^ 31 + 1) * b := Int.ediv_lt_iff_lt_mul hb
    rw [hdiv]
    constructor
    · rintro ⟨hle, -⟩
      have := hlow.1 (by omega)
      exact ⟨by linarith, by nlinarith⟩
    · rintro ⟨hgt, -⟩
      have := hlow.2 (by linarith)
      omega

theorem fixFrac_eq_iff (n : ℤ) {d : ℤ} (hd : d ≠ 0) : (fixFrac n d).f = (n * fixF).tdiv d
      ↔ -(2 ^ 15 + 1 / 2 ^ 16 : ℚ) < n / d ∧ (n / d : ℚ) < 2 ^ 15 := by
  have hpos : ∀ {n d : ℤ}, 0 < d → (InRange 32 ((n * fixF).tdiv d)
      ↔ -(2 ^ 15 + 1 / 2 ^ 16 : ℚ) < n / d ∧ (n / d : ℚ) < 2 ^ 15) := by
    intro n d hd
    have hd' : (0 : ℚ) < d := by exact_mod_cast hd
    rw [inRange_tdiv_iff _ hd, lt_div_iff₀ hd', div_lt_iff₀ hd']
    unfold fixF
    constructor
    · rintro ⟨h₁, h₂⟩
      have h₁' : (-(2 ^ 31 + 1) * d : ℚ) < n * 2 ^ 16 := by exact_mod_cast h₁
      have h₂' : (n * 2 ^ 16 : ℚ) < 2 ^ 31 * d := by exact_mod_cast h₂
      constructor <;> linarith
    · rintro ⟨h₁, h₂⟩
      have h₁' : (-(2 ^ 31 + 1) * d : ℚ) < n * 2 ^ 16 := by linarith
      have h₂' : (n * 2 ^ 16 : ℚ) < 2 ^ 31 * d := by linarith
      exact ⟨by exact_mod_cast h₁', by exact_mod_cast h₂'⟩
  unfold fixFrac
  rw [int32_eq_iff]
  obtain h | h := lt_or_gt_of_ne hd
  · -- Both signs change at once.
    have := hpos (n := -n) (d := -d) (by omega)
    rwa [neg_mul, Int.neg_tdiv, Int.tdiv_neg, neg_neg, Int.cast_neg, Int.cast_neg, neg_div_neg_eq]
      at this
  · exact hpos h

/-! ## The primitives together -/

/-- What the primitives return: the nearest integer exactly for the numbers that neither overflow
nor need rounding below zero, the number meant exactly for the arguments inside the sixteen signed
bits, and the truncated product and quotient whenever they fit. -/
theorem fixed_point_exact_iff (x y : FixedPoint) (n d : ℤ) :
    (InRange 32 x.f →
      (2 * |fixRound x * fixF - x.f| ≤ fixF
        ↔ x.f < 2 ^ 31 - 2 ^ 15 ∧ (-2 ^ 15 ≤ x.f ∨ fixF ∣ x.f + 2 ^ 15)))
    ∧ (FixIntAdmits n → ((fixInt n).f = n * fixF ↔ -2 ^ 15 ≤ n ∧ n < 2 ^ 15))
    ∧ (InRange 32 n → InRange 32 d → FixFracAdmits n d →
      ((fixFrac n d).f = (n * fixF).tdiv d
        ↔ -(2 ^ 15 + 1 / 2 ^ 16 : ℚ) < n / d ∧ (n / d : ℚ) < 2 ^ 15))
    ∧ (InRange 32 ((x.f * y.f).tdiv fixF) → (fixMul x y).f = (x.f * y.f).tdiv fixF)
    ∧ (y.f ≠ 0 → InRange 32 ((x.f * fixF).tdiv y.f) →
      (fixDiv x y).f = (x.f * fixF).tdiv y.f) :=
  ⟨fixRound_near_iff, fun _ => fixInt_eq_iff n, fun _ _ hd => fixFrac_eq_iff n hd.1,
    int32_of_inRange, fun _ => int32_of_inRange⟩

/-- Minus one is rounded to zero, forty thousand becomes a negative number, and so does the
largest integer as a fraction; each is an argument the header admits. -/
theorem fixed_point_inexact :
    (InRange 32 (-fixF) ∧ fixRound ⟨-fixF⟩ = 0)
    ∧ (FixIntAdmits 40000 ∧ (fixInt 40000).f = -25536 * fixF)
    ∧ (FixFracAdmits 65535 1 ∧ (fixFrac 65535 1).f = -fixF) := by
  unfold InRange FixFracAdmits FixIntAdmits
  decide

end Pintos
