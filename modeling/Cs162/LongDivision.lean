import Mathlib.Tactic

/-!
# Long division

Two ways to divide a number of two digits with a machine that divides by one digit only.

If the divisor is one digit, the upper digit of the dividend is divided first, and what is left
of it goes in front of the lower one. If it is longer, the quotient is estimated by leaving the
lower digits of the divisor out: the estimate is never too small, and if the divisor is
normalised first, so that its leading bit is set, it is too large by one at most.
-/

namespace LongDivision

variable {b n n₁ n₀ d D : ℕ}

/-! ## Digit by digit -/

/-- **The two digits of a quotient.** -/
theorem div_eq_add (hd : 0 < d) (hn : b * n₁ + n₀ = n) :
    n / d = (b * (n₁ % d) + n₀) / d + b * (n₁ / d) := by
  have hsplit : n = b * (n₁ % d) + n₀ + d * (b * (n₁ / d)) := by
    rw [← hn]
    conv_lhs => rw [← Nat.mod_add_div n₁ d]
    ring
  rw [hsplit, Nat.add_mul_div_left _ _ hd]

theorem digit_lt (n₁ : ℕ) (hd : 0 < d) (hn₀ : n₀ < b) : (b * (n₁ % d) + n₀) / d < b := by
  refine Nat.div_lt_of_lt_mul ?_
  calc b * (n₁ % d) + n₀ < b * (n₁ % d) + b := Nat.add_lt_add_left hn₀ _
    _ = b * (n₁ % d + 1) := (Nat.mul_succ ..).symm
    _ ≤ b * d := Nat.mul_le_mul_left b (Nat.mod_lt n₁ hd)
    _ = d * b := Nat.mul_comm ..

/-! ## Estimates -/

/-- **An estimate is too large by one at most** if the divisor it is made with is close
enough. -/
theorem estimate_le (hD : 0 < D) (hle : D ≤ d) (hclose : (n / d + 1) * (d - D) ≤ D) :
    n / D ≤ n / d + 1 := by
  refine Nat.lt_succ_iff.mp (Nat.div_lt_of_lt_mul ?_)
  calc n < d * (n / d + 1) := Nat.lt_mul_div_succ n (hD.trans_le hle)
    _ = (n / d + 1) * D + (n / d + 1) * (d - D) := by
      rw [← Nat.mul_add, Nat.add_sub_cancel' hle, Nat.mul_comm]
    _ ≤ (n / d + 1) * D + D := Nat.add_le_add_left hclose _
    _ = D * (n / d + 1 + 1) := by ring

/-- The bound that `estimate_le` asks for, for a divisor whose leading bit is bit `s + 2 * t + 1`
of a number with `2 * (s + t + 1)` bits, and whose lower `t + 1` bits are left out. -/
theorem close_of_normalised {s t : ℕ} (hn : n < 2 ^ (2 * (s + t + 1)))
    (hd : 2 ^ (s + 2 * t + 1) ≤ d) :
    (n / d + 1) * (d - d / 2 ^ (t + 1) * 2 ^ (t + 1)) ≤ d / 2 ^ (t + 1) * 2 ^ (t + 1) := by
  have hquotient : n / d + 1 ≤ 2 ^ (s + 1) := by
    refine Nat.succ_le_of_lt (Nat.div_lt_of_lt_mul (hn.trans_le ?_))
    calc 2 ^ (2 * (s + t + 1)) = 2 ^ (s + 2 * t + 1) * 2 ^ (s + 1) := by
          rw [← pow_add]
          congr 1
          ring
      _ ≤ d * 2 ^ (s + 1) := Nat.mul_le_mul_right _ hd
  have hrest : d - d / 2 ^ (t + 1) * 2 ^ (t + 1) ≤ 2 ^ (t + 1) - 1 := by
    rw [Nat.mul_comm, ← Nat.mod_eq_sub_mul_div]
    exact Nat.le_sub_one_of_lt (Nat.mod_lt d (Nat.two_pow_pos _))
  have hlow : 2 ^ (s + 2 * t + 1) ≤ d / 2 ^ (t + 1) * 2 ^ (t + 1) := by
    have hpow : 2 ^ (s + 2 * t + 1) = 2 ^ (s + t) * 2 ^ (t + 1) := by
      rw [← pow_add]
      congr 1
      ring
    rw [hpow] at hd ⊢
    exact Nat.mul_le_mul_right _ ((Nat.le_div_iff_mul_le (Nat.two_pow_pos _)).mpr hd)
  refine (Nat.mul_le_mul hquotient hrest).trans (le_trans ?_ hlow)
  -- the two sides are equal for `t = 0`, and far apart otherwise
  have hexpand : 2 ^ (s + 1) * (2 ^ (t + 1) - 1) + 2 ^ (s + 1) = 2 ^ (s + 1) * 2 ^ (t + 1) := by
    rw [← Nat.mul_succ, Nat.succ_eq_add_one, Nat.sub_add_cancel Nat.one_le_two_pow]
  cases t with
  | zero =>
    rw [show s + 2 * 0 + 1 = s + 1 by ring]
    norm_num
  | succ t =>
    refine (Nat.le_of_add_right_le hexpand.le).trans ?_
    rw [← pow_add]
    exact Nat.pow_le_pow_right two_pos (by omega)

end LongDivision
