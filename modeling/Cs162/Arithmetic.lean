import Cs162.LongDivision
import Cs162.MachineInt
import Mathlib

/-!
# 64-bit division

The kernel brings its own division of 64-bit integers, for compilers without `libgcc`. The
machine divides 64 bits by 32 bits, and traps if the quotient has more than 32: a function that
executes such an instruction returns `none` if it traps.

`udiv64` divides digit by digit, or estimates the quotient from the upper half of the divisor;
no division traps, and the quotient is exact. The functions for the remainder subtract the
product of divisor and quotient, which is exact too, but return it as a 32-bit integer.
-/

namespace Pintos.Arithmetic

/-- `divl`. It traps if the divisor is zero or the quotient does not fit in 32 bits. -/
def divl (n : UInt64) (d : UInt32) : Option UInt32 :=
  if d = 0 ∨ 2 ^ 32 ≤ n.toNat / d.toNat then none else some (.ofNat (n.toNat / d.toNat))

/-- A step of `nlz`: numbers up to a bound are shifted. -/
def nlzStep (bound : UInt32) (k : ℕ) (r : ℕ × UInt32) : ℕ × UInt32 :=
  if r.2 ≤ bound then (r.1 + k, r.2 <<< .ofNat k) else r

/-- `nlz`, the number of leading zero bits. -/
def nlz (x : UInt32) : ℕ :=
  let r := nlzStep 0x0000FFFF 16 (0, x)
  let r := nlzStep 0x00FFFFFF 8 r
  let r := nlzStep 0x0FFFFFFF 4 r
  let r := nlzStep 0x3FFFFFFF 2 r
  if r.2 ≤ 0x7FFFFFFF then r.1 + 1 else r.1

/-- `udiv64`. -/
def udiv64 (n d : UInt64) : Option UInt64 :=
  if d >>> 32 = 0 then do
    let b := (1 : UInt64) <<< 32
    let n1 := (n >>> 32).toUInt32
    let n0 := n.toUInt32
    let d0 := d.toUInt32
    let low ← divl (b * (n1 % d0).toUInt64 + n0.toUInt64) d0
    return low.toUInt64 + b * (n1 / d0).toUInt64
  else if n < d then return 0
  else do
    let d1 := (d >>> 32).toUInt32
    let s := nlz d1
    let estimate ← divl (n >>> 1) ((d <<< .ofNat s) >>> 32).toUInt32
    let q := (estimate >>> .ofNat (31 - s)).toUInt64
    return if n - (q - 1) * d < d then q - 1 else q

/-- `umod64`, which returns a `uint32_t`. -/
def umod64 (n d : UInt64) : Option UInt32 := do
  let q ← udiv64 n d
  return (n - d * q).toUInt32

/-- The absolute value of a signed integer. -/
def abs64 (n : Int64) : UInt64 := if 0 ≤ n then n.toUInt64 else -n.toUInt64

/-- `sdiv64`. The negation wraps around. -/
def sdiv64 (n d : Int64) : Option Int64 := do
  let qAbs ← udiv64 (abs64 n) (abs64 d)
  return if decide (n < 0) = decide (d < 0) then qAbs.toInt64 else -qAbs.toInt64

/-- `smod64`, which returns an `int32_t`. -/
def smod64 (n d : Int64) : Option Int32 := do
  let q ← sdiv64 n d
  return (n - d * q).toInt32

/-- `__divdi3`. -/
def divdi3 (n d : Int64) : Option Int64 := sdiv64 n d

/-- `__moddi3`. -/
def moddi3 (n d : Int64) : Option Int64 := (smod64 n d).map Int32.toInt64

/-- `__udivdi3`. -/
def udivdi3 (n d : UInt64) : Option UInt64 := udiv64 n d

/-- `__umoddi3`. -/
def umoddi3 (n d : UInt64) : Option UInt64 := (umod64 n d).map UInt32.toUInt64

/-! ## Unsigned division -/

section Unsigned

variable {n d : UInt64}

/-- **The machine divides** if the quotient fits. -/
theorem divl_eq {d : UInt32} (hd : 0 < d.toNat) (hfits : n.toNat / d.toNat < 2 ^ 32) :
    ∃ q, divl n d = some q ∧ q.toNat = n.toNat / d.toNat := by
  have hne : d ≠ 0 := by
    rintro rfl
    exact absurd hd (by decide)
  refine ⟨.ofNat (n.toNat / d.toNat), if_neg ?_, UInt32.toNat_ofNat_of_lt' hfits⟩
  rintro (hzero | hle)
  · exact hne hzero
  · omega

theorem toNat_shiftLeft32 {x : UInt32} {k : ℕ} (hk : k < 32) (hx : x.toNat * 2 ^ k < 2 ^ 32) :
    (x <<< UInt32.ofNat k).toNat = x.toNat * 2 ^ k := by
  have hcount : (UInt32.ofNat k).toNat = k := UInt32.toNat_ofNat_of_lt' (by
    unfold UInt32.size
    omega)
  rw [UInt32.toNat_shiftLeft, hcount, Nat.mod_eq_of_lt hk, Nat.shiftLeft_eq, Nat.mod_eq_of_lt hx]

/-- How far a number has been shifted. -/
def Shifted (x : UInt32) (r : ℕ × UInt32) : Prop := r.2.toNat = x.toNat * 2 ^ r.1

/-- **A step of `nlz`** leaves fewer leading zeros than it tries for. -/
theorem nlzStep_spec (bound : UInt32) (k : ℕ) {x : UInt32} {r : ℕ × UInt32} (hr : Shifted x r)
    (hbound : bound.toNat + 1 = 2 ^ (32 - k)) (hk : 2 * k ≤ 32)
    (hlow : 2 ^ (32 - 2 * k) ≤ r.2.toNat) :
    Shifted x (nlzStep bound k r) ∧ 2 ^ (32 - k) ≤ (nlzStep bound k r).2.toNat := by
  unfold nlzStep
  split
  · rename_i hle
    rw [UInt32.le_iff_toNat_le] at hle
    have hlt : r.2.toNat * 2 ^ k < 2 ^ 32 := by
      calc r.2.toNat * 2 ^ k < 2 ^ (32 - k) * 2 ^ k :=
            Nat.mul_lt_mul_of_pos_right (by omega) (Nat.two_pow_pos k)
        _ = 2 ^ 32 := by rw [← pow_add, Nat.sub_add_cancel (by omega)]
    have hshift := toNat_shiftLeft32 (by omega) hlt
    refine ⟨?_, ?_⟩
    · show _ = _
      rw [hshift, hr, pow_add, Nat.mul_assoc]
    · dsimp only
      rw [hshift]
      calc 2 ^ (32 - k) = 2 ^ (32 - 2 * k) * 2 ^ k := by
            rw [← pow_add]
            congr 1
            omega
        _ ≤ r.2.toNat * 2 ^ k := Nat.mul_le_mul_right _ hlow
  · rename_i hgt
    rw [UInt32.le_iff_toNat_le] at hgt
    exact ⟨hr, by omega⟩

/-- **`nlz` normalises**: shifted by it, the leading bit of a number is set. -/
theorem nlz_spec {x : UInt32} (hx : 0 < x.toNat) :
    2 ^ 31 ≤ x.toNat * 2 ^ nlz x ∧ x.toNat * 2 ^ nlz x < 2 ^ 32 := by
  have h₀ : Shifted x (0, x) := (Nat.mul_one _).symm
  obtain ⟨h₁, hlow₁⟩ := nlzStep_spec 0x0000FFFF 16 h₀ rfl (by omega) hx
  obtain ⟨h₂, hlow₂⟩ := nlzStep_spec 0x00FFFFFF 8 h₁ rfl (by omega) hlow₁
  obtain ⟨h₃, hlow₃⟩ := nlzStep_spec 0x0FFFFFFF 4 h₂ rfl (by omega) hlow₂
  obtain ⟨h₄, hlow₄⟩ := nlzStep_spec 0x3FFFFFFF 2 h₃ rfl (by omega) hlow₃
  unfold nlz
  dsimp only
  revert h₄ hlow₄
  generalize nlzStep 0x3FFFFFFF 2 _ = r
  intro h₄ hlow₄
  have hlt := r.2.toNat_lt
  unfold Shifted at h₄
  split
  · rename_i hle
    have hle : r.2.toNat ≤ 2 ^ 31 - 1 := UInt32.le_iff_toNat_le.mp hle
    have hdouble : x.toNat * 2 ^ (r.1 + 1) = 2 * r.2.toNat := by
      rw [h₄, pow_succ]
      ring
    omega
  · rename_i hgt
    have hgt : ¬ r.2.toNat ≤ 2 ^ 31 - 1 := fun hle => hgt (UInt32.le_iff_toNat_le.mpr hle)
    rw [← h₄]
    omega

theorem toNat_shiftRight64 (x : UInt64) {k : UInt64} (hk : k.toNat < 64) :
    (x >>> k).toNat = x.toNat / 2 ^ k.toNat := by
  rw [UInt64.toNat_shiftRight, Nat.mod_eq_of_lt hk, Nat.shiftRight_eq_div_pow]

theorem toNat_high (x : UInt64) : (x >>> 32).toUInt32.toNat = x.toNat / 2 ^ 32 := by
  have hshift : (x >>> 32).toNat = x.toNat / 2 ^ 32 := toNat_shiftRight64 x (by decide)
  have hlt := x.toNat_lt
  rw [UInt64.toNat_toUInt32, hshift, Nat.mod_eq_of_lt (by omega)]

/-- **A divisor of 32 bits.** -/
theorem udiv64_short (n : UInt64) (hd : 0 < d.toNat) (hshort : d.toNat < 2 ^ 32) :
    ∃ q, udiv64 n d = some q ∧ q.toNat = n.toNat / d.toNat := by
  have hzero : d >>> 32 = 0 := by
    rw [← UInt64.toNat_inj, toNat_shiftRight64 d (by decide)]
    exact Nat.div_eq_of_lt hshort
  have hd₀ : d.toUInt32.toNat = d.toNat := by
    rw [UInt64.toNat_toUInt32, Nat.mod_eq_of_lt hshort]
  have hdigits := LongDivision.div_eq_add hd (Nat.div_add_mod n.toNat (2 ^ 32))
  have hlow := LongDivision.digit_lt (n.toNat / 2 ^ 32) hd
    (Nat.mod_lt n.toNat (by decide : 0 < 2 ^ 32))
  have hquotient : n.toNat / d.toNat < 2 ^ 64 := (Nat.div_le_self ..).trans_lt n.toNat_lt
  have hrest := Nat.mod_lt (n.toNat / 2 ^ 32) hd
  have hb : ((1 : UInt64) <<< 32).toNat = 2 ^ 32 := by decide
  -- what is divided, and what is added to it
  have hdividend : ((1 : UInt64) <<< 32 * ((n >>> 32).toUInt32 % d.toUInt32).toUInt64
      + n.toUInt32.toUInt64).toNat = 2 ^ 32 * (n.toNat / 2 ^ 32 % d.toNat) + n.toNat % 2 ^ 32 := by
    rw [UInt64.toNat_add, UInt64.toNat_mul, hb, UInt32.toNat_toUInt64, UInt32.toNat_toUInt64,
      UInt32.toNat_mod, toNat_high, hd₀, UInt64.toNat_toUInt32]
    omega
  have hupper : ((1 : UInt64) <<< 32 * ((n >>> 32).toUInt32 / d.toUInt32).toUInt64).toNat
      = 2 ^ 32 * (n.toNat / 2 ^ 32 / d.toNat) := by
    rw [UInt64.toNat_mul, hb, UInt32.toNat_toUInt64, UInt32.toNat_div, toNat_high, hd₀]
    refine Nat.mod_eq_of_lt (lt_of_le_of_lt ?_ hquotient)
    rw [hdigits]
    exact Nat.le_add_left ..
  obtain ⟨low, hdivl, hlow'⟩ := divl_eq (d := d.toUInt32) (hd₀ ▸ hd) (by rwa [hdividend, hd₀])
  rw [hdividend, hd₀] at hlow'
  refine ⟨low.toUInt64 + (1 : UInt64) <<< 32 * ((n >>> 32).toUInt32 / d.toUInt32).toUInt64, ?_, ?_⟩
  · unfold udiv64
    rw [if_pos hzero]
    dsimp only
    rw [hdivl]
    rfl
  · rw [UInt64.toNat_add, UInt32.toNat_toUInt64, hlow', hupper, ← hdigits,
      Nat.mod_eq_of_lt hquotient]

/-- **The correction**: an estimate that is exact or too large by one. -/
theorem corrected {q : UInt64} (hd : 0 < d.toNat) (hle : d.toNat ≤ n.toNat)
    (hlow : n.toNat / d.toNat ≤ q.toNat) (hhigh : q.toNat ≤ n.toNat / d.toNat + 1) :
    (if n - (q - 1) * d < d then q - 1 else q).toNat = n.toNat / d.toNat := by
  have hpos : 1 ≤ n.toNat / d.toNat := (Nat.one_le_div_iff hd).mpr hle
  have hpred : (q - 1).toNat = q.toNat - 1 :=
    UInt64.toNat_sub_of_le _ _ (UInt64.le_iff_toNat_le.mpr (hpos.trans hlow))
  have hproduct : (q.toNat - 1) * d.toNat ≤ n.toNat :=
    (Nat.mul_le_mul_right _ (by omega)).trans (Nat.div_mul_le_self ..)
  have hmul : ((q - 1) * d).toNat = (q.toNat - 1) * d.toNat := by
    rw [UInt64.toNat_mul, hpred, Nat.mod_eq_of_lt (hproduct.trans_lt n.toNat_lt)]
  have hsub : (n - (q - 1) * d).toNat = n.toNat - (q.toNat - 1) * d.toNat := by
    rw [UInt64.toNat_sub_of_le _ _ (UInt64.le_iff_toNat_le.mpr (hmul ▸ hproduct)), hmul]
  have hless : n - (q - 1) * d < d ↔ n.toNat < q.toNat * d.toNat := by
    rw [UInt64.lt_iff_toNat_lt, hsub, Nat.sub_lt_iff_lt_add hproduct, Nat.add_comm,
      ← Nat.succ_mul, Nat.succ_eq_add_one, Nat.sub_add_cancel (hpos.trans hlow)]
  split
  all_goals
    rename_i hcase
    rw [hless, ← Nat.div_lt_iff_lt_mul hd] at hcase
    omega

/-- **A longer divisor**: the quotient is estimated from its normalised upper half. -/
theorem udiv64_long (n : UInt64) (hlong : 2 ^ 32 ≤ d.toNat) :
    ∃ q, udiv64 n d = some q ∧ q.toNat = n.toNat / d.toNat := by
  have hd : 0 < d.toNat := (by decide : 0 < 2 ^ 32).trans_le hlong
  have hzero : ¬ d >>> 32 = 0 := by
    rw [← UInt64.toNat_inj, toNat_shiftRight64 d (by decide)]
    exact Nat.ne_of_gt (Nat.div_pos hlong (by decide))
  unfold udiv64
  rw [if_neg hzero]
  by_cases hlt : n < d
  · refine ⟨0, if_pos hlt, ?_⟩
    exact (Nat.div_eq_of_lt (UInt64.lt_iff_toNat_lt.mp hlt)).symm
  rw [if_neg hlt]
  have hle : d.toNat ≤ n.toNat := Nat.le_of_not_lt fun hnot => hlt (UInt64.lt_iff_toNat_lt.mpr hnot)
  have hd₁ := toNat_high d
  obtain ⟨hnorm, hfits⟩ := nlz_spec (x := (d >>> 32).toUInt32) (by
    rw [hd₁]
    exact Nat.div_pos hlong (by decide))
  rw [hd₁] at hnorm hfits
  dsimp only
  generalize nlz (d >>> 32).toUInt32 = s at hnorm hfits ⊢
  obtain ⟨t, ht⟩ : ∃ t, s + t + 1 = 32 := by
    have hpow : 2 ^ s < 2 ^ 32 :=
      (Nat.le_mul_of_pos_left _ (Nat.div_pos hlong (by decide))).trans_lt hfits
    have hs := (Nat.pow_lt_pow_iff_right (by decide)).mp hpow
    exact ⟨31 - s, by omega⟩
  -- the divisor, between powers of two
  have hdlow : 2 ^ (s + 2 * t + 1) ≤ d.toNat := by
    have hhalf : 2 ^ t ≤ d.toNat / 2 ^ 32 := by
      refine Nat.le_of_mul_le_mul_right ?_ (Nat.two_pow_pos s)
      rwa [← pow_add, show t + s = 31 by omega]
    rw [Nat.le_div_iff_mul_le (by decide), ← pow_add] at hhalf
    rwa [show s + 2 * t + 1 = t + 32 by omega]
  have hdhigh : d.toNat < 2 ^ (t + 1) * 2 ^ 32 := by
    rw [← Nat.div_lt_iff_lt_mul (by decide)]
    refine Nat.lt_of_mul_lt_mul_right (a := 2 ^ s) ?_
    rwa [← pow_add, show t + 1 + s = 32 by omega]
  have hdivisor : ((d <<< UInt64.ofNat s) >>> 32).toUInt32.toNat = d.toNat / 2 ^ (t + 1) := by
    have hcount : (UInt64.ofNat s).toNat = s := UInt64.toNat_ofNat_of_lt' (by
      unfold UInt64.size
      omega)
    have hword : 2 ^ 32 = 2 ^ (t + 1) * 2 ^ s := by
      rw [← pow_add, show t + 1 + s = 32 by omega]
    have hshifted : d.toNat * 2 ^ s < 2 ^ 64 := by
      calc d.toNat * 2 ^ s < 2 ^ (t + 1) * 2 ^ 32 * 2 ^ s :=
            Nat.mul_lt_mul_of_pos_right hdhigh (Nat.two_pow_pos s)
        _ = 2 ^ 32 * (2 ^ (t + 1) * 2 ^ s) := by ring
        _ = 2 ^ 64 := by rw [← hword, ← pow_add]
    rw [toNat_high, UInt64.toNat_shiftLeft, hcount, Nat.mod_eq_of_lt (by omega : s < 64),
      Nat.shiftLeft_eq, Nat.mod_eq_of_lt hshifted, hword,
      Nat.mul_div_mul_right _ _ (Nat.two_pow_pos s)]
  have hlarge : 2 ^ 31 ≤ d.toNat / 2 ^ (t + 1) := by
    rw [Nat.le_div_iff_mul_le (Nat.two_pow_pos _), ← pow_add]
    rwa [show 31 + (t + 1) = s + 2 * t + 1 by omega]
  have hhalved : (n >>> 1).toNat = n.toNat / 2 := toNat_shiftRight64 n (by decide)
  have hquotient : n.toNat / 2 / (d.toNat / 2 ^ (t + 1)) < 2 ^ 32 := by
    refine Nat.div_lt_of_lt_mul ?_
    have hn := n.toNat_lt
    omega
  obtain ⟨estimate, hdivl, hestimate⟩ := divl_eq (n := n >>> 1)
    (d := ((d <<< UInt64.ofNat s) >>> 32).toUInt32) (by omega) (by rwa [hhalved, hdivisor])
  rw [hhalved, hdivisor] at hestimate
  refine ⟨_, by rw [hdivl]; rfl, ?_⟩
  have hq : (estimate >>> UInt32.ofNat (31 - s)).toUInt64.toNat
      = n.toNat / (d.toNat / 2 ^ (t + 1) * 2 ^ (t + 1)) := by
    have hcount : (UInt32.ofNat (31 - s)).toNat = t := by
      rw [show 31 - s = t by omega]
      exact UInt32.toNat_ofNat_of_lt' (by
        unfold UInt32.size
        omega)
    rw [UInt32.toNat_toUInt64, UInt32.toNat_shiftRight, hcount,
      Nat.mod_eq_of_lt (by omega : t < 32), Nat.shiftRight_eq_div_pow, hestimate,
      Nat.div_div_eq_div_mul, Nat.div_div_eq_div_mul]
    congr 1
    ring
  have hD : 0 < d.toNat / 2 ^ (t + 1) * 2 ^ (t + 1) :=
    Nat.mul_pos ((by decide : 0 < 2 ^ 31).trans_le hlarge) (Nat.two_pow_pos _)
  have hDd : d.toNat / 2 ^ (t + 1) * 2 ^ (t + 1) ≤ d.toNat := Nat.div_mul_le_self ..
  refine corrected hd hle (hq ▸ Nat.div_le_div_left hDd hD) ?_
  rw [hq]
  refine LongDivision.estimate_le hD hDd (LongDivision.close_of_normalised (s := s) ?_ hdlow)
  rw [ht]
  exact n.toNat_lt

/-- **Unsigned division is exact**, and does not trap. -/
theorem udiv64_spec (n : UInt64) (hd : d ≠ 0) :
    ∃ q, udiv64 n d = some q ∧ q.toNat = n.toNat / d.toNat := by
  have hpos : 0 < d.toNat := Nat.pos_of_ne_zero fun hzero => hd (UInt64.toNat_inj.mp hzero)
  rcases lt_or_ge d.toNat (2 ^ 32) with hshort | hlong
  · exact udiv64_short n hpos hshort
  · exact udiv64_long n hlong

end Unsigned

/-! ## Signed division -/

section Signed

variable {n d : Int64}

theorem toInt_toInt64 (u : UInt64) : u.toInt64.toInt = (u.toNat : ℤ).bmod (2 ^ 64) :=
  BitVec.toInt_eq_toNat_bmod u.toBitVec

theorem toNat_abs64 (n : Int64) : (abs64 n).toNat = n.toInt.natAbs := by
  have hint : n.toInt = if 2 * n.toUInt64.toNat < 2 ^ 64 then (n.toUInt64.toNat : ℤ)
      else n.toUInt64.toNat - (2 ^ 64 : ℕ) := BitVec.toInt_eq_toNat_cond n.toBitVec
  have hlt := n.toUInt64.toNat_lt
  unfold abs64
  split
  · rename_i hle
    have hle : 0 ≤ n.toInt := Int64.le_iff_toInt_le.mp hle
    split at hint
    · omega
    · omega
  · rename_i hneg
    have hneg : ¬ 0 ≤ n.toInt := fun hle => hneg (Int64.le_iff_toInt_le.mpr hle)
    rw [UInt64.toNat_neg]
    unfold UInt64.size
    split at hint
    · omega
    · omega

/-- The two integers whose quotient is not a signed integer. -/
def Overflows (n d : Int64) : Prop := n = Int64.minValue ∧ d = -1

/-- The quotient of the absolute values is a signed integer, up to its sign. -/
theorem natAbs_div_le (n d : Int64) : n.toInt.natAbs / d.toInt.natAbs ≤ 2 ^ 63 := by
  have hlow := n.le_toInt
  have hhigh := n.toInt_lt
  exact (Nat.div_le_self ..).trans (by omega)

/-- A quotient of integers with the same sign is smaller, but for the two that overflow. -/
theorem natAbs_div_lt (hd : d ≠ 0) (hover : ¬ Overflows n d) (hsigns : n < 0 ↔ d < 0) :
    n.toInt.natAbs / d.toInt.natAbs < 2 ^ 63 := by
  have hlow := n.le_toInt
  have hhigh := n.toInt_lt
  have hzero : d.toInt ≠ 0 := fun heq => hd (Int64.toInt_inj.mp heq)
  have hneg : n.toInt < 0 ↔ d.toInt < 0 := by
    rw [Int64.lt_iff_toInt_lt, Int64.lt_iff_toInt_lt] at hsigns
    exact hsigns
  by_cases hone : d.toInt.natAbs = 1
  · have hmin : n.toInt ≠ -2 ^ 63 := fun hmin => by
      refine hover ⟨Int64.toInt_inj.mp (hmin.trans (by decide)), Int64.toInt_inj.mp ?_⟩
      have hminus : (-1 : Int64).toInt = -1 := by decide
      rw [hminus]
      omega
    rw [hone, Nat.div_one]
    omega
  · refine Nat.div_lt_of_lt_mul ?_
    have htwo : 2 ≤ d.toInt.natAbs := by omega
    calc n.toInt.natAbs < 2 * 2 ^ 63 := by omega
      _ ≤ d.toInt.natAbs * 2 ^ 63 := Nat.mul_le_mul_right _ htwo

/-- **The quotient of integers**, from their absolute values. -/
theorem tdiv_eq (a b : ℤ) : a.tdiv b = if a < 0 ↔ b < 0 then ((a.natAbs / b.natAbs : ℕ) : ℤ)
      else -((a.natAbs / b.natAbs : ℕ) : ℤ) := by
  have habs (a : ℤ) : a < 0 ∧ a = -(a.natAbs : ℤ) ∨ ¬ a < 0 ∧ a = (a.natAbs : ℤ) := by omega
  rw [Int.ofNat_tdiv]
  rcases habs a with ⟨ha, ha_eq⟩ | ⟨ha, ha_eq⟩
  · rcases habs b with ⟨hb, hb_eq⟩ | ⟨hb, hb_eq⟩
    · rw [if_pos (iff_of_true ha hb)]
      conv_lhs => rw [ha_eq, hb_eq, Int.neg_tdiv, Int.tdiv_neg, neg_neg]
    · rw [if_neg fun hiff => hb (hiff.mp ha)]
      conv_lhs => rw [ha_eq, hb_eq, Int.neg_tdiv]
  · rcases habs b with ⟨hb, hb_eq⟩ | ⟨hb, hb_eq⟩
    · rw [if_neg fun hiff => ha (hiff.mpr hb)]
      conv_lhs => rw [ha_eq, hb_eq, Int.tdiv_neg]
    · rw [if_pos (iff_of_false ha hb)]
      conv_lhs => rw [ha_eq, hb_eq]

/-- **Signed division truncates**, and does not trap. -/
theorem sdiv64_spec (hd : d ≠ 0) (hover : ¬ Overflows n d) :
    ∃ q, sdiv64 n d = some q ∧ q.toInt = n.toInt.tdiv d.toInt := by
  have hne : abs64 d ≠ 0 := fun hzero => by
    have habs := toNat_abs64 d
    rw [hzero] at habs
    exact hd (Int64.toInt_inj.mp (Int.natAbs_eq_zero.mp habs.symm))
  obtain ⟨u, hudiv, hu⟩ := udiv64_spec (abs64 n) hne
  rw [toNat_abs64, toNat_abs64] at hu
  have hrun : sdiv64 n d
      = some (if decide (n < 0) = decide (d < 0) then u.toInt64 else -u.toInt64) := by
    unfold sdiv64
    rw [hudiv]
    rfl
  refine ⟨_, hrun, ?_⟩
  have hle := natAbs_div_le n d
  have hsigns : decide (n < 0) = decide (d < 0) ↔ (n.toInt < 0 ↔ d.toInt < 0) := by
    rw [decide_eq_decide, Int64.lt_iff_toInt_lt, Int64.lt_iff_toInt_lt]
    rfl
  rw [← hu] at hle
  rw [tdiv_eq, ← hu]
  by_cases hsame : n.toInt < 0 ↔ d.toInt < 0
  · have hlt := natAbs_div_lt hd hover (by
      rwa [Int64.lt_iff_toInt_lt, Int64.lt_iff_toInt_lt])
    rw [← hu] at hlt
    rw [if_pos (hsigns.mpr hsame), if_pos hsame, toInt_toInt64]
    exact Int.bmod_eq_of_le (by omega) (by omega)
  · rw [if_neg fun heq => hsame (hsigns.mp heq), if_neg hsame, Int64.toInt_neg, toInt_toInt64,
      Int.bmod_neg_bmod]
    exact Int.bmod_eq_of_le (by omega) (by omega)

end Signed

/-- **Division is correct**: unsigned division returns the exact quotient, signed division the
one truncated toward zero, and no instruction traps. -/
theorem division_correct :
    (∀ n d : UInt64, d ≠ 0 → ∃ q, udiv64 n d = some q ∧ q.toNat = n.toNat / d.toNat)
      ∧ ∀ n d : Int64, d ≠ 0 → ¬ Overflows n d →
        ∃ q, sdiv64 n d = some q ∧ q.toInt = n.toInt.tdiv d.toInt :=
  ⟨fun n _ hd => udiv64_spec n hd, fun _ _ hd hover => sdiv64_spec hd hover⟩

theorem division_correct_long :
    (0x100000001 : UInt64) ≠ 0 ∧ ∃ q, udiv64 0xFFFFFFFFFFFFFFFF 0x100000001 = some q
      ∧ q.toNat = (0xFFFFFFFFFFFFFFFF : UInt64).toNat / (0x100000001 : UInt64).toNat :=
  ⟨by decide, division_correct.1 _ _ (by decide)⟩

/-! ## Remainders -/

/-- **The unsigned remainder** is cut to 32 bits. -/
theorem umoddi3_spec (n : UInt64) {d : UInt64} (hd : d ≠ 0) :
    ∃ q r, udivdi3 n d = some q ∧ q.toNat = n.toNat / d.toNat ∧ umoddi3 n d = some r
      ∧ r.toNat = n.toNat % d.toNat % 2 ^ 32 := by
  obtain ⟨q, hudiv, hq⟩ := udiv64_spec n hd
  have hproduct : (d * q).toNat = d.toNat * (n.toNat / d.toNat) := by
    rw [UInt64.toNat_mul, hq]
    exact Nat.mod_eq_of_lt ((Nat.mul_div_le ..).trans_lt n.toNat_lt)
  have hle : d * q ≤ n := by
    rw [UInt64.le_iff_toNat_le, hproduct]
    exact Nat.mul_div_le ..
  refine ⟨q, (n - d * q).toUInt32.toUInt64, hudiv, hq, ?_, ?_⟩
  · unfold umoddi3 umod64
    rw [hudiv]
    rfl
  · rw [UInt32.toNat_toUInt64, UInt64.toNat_toUInt32, UInt64.toNat_sub_of_le _ _ hle, hproduct,
      ← Nat.mod_eq_sub_mul_div]

/-- **The remainder of integers**, from their absolute values. -/
theorem tmod_eq (a b : ℤ) : a.tmod b = if a < 0 then -((a.natAbs % b.natAbs : ℕ) : ℤ)
      else ((a.natAbs % b.natAbs : ℕ) : ℤ) := by
  have habs := Int.natAbs_tmod a b
  split
  · rename_i hneg
    have hsign : 0 ≤ (-a).tmod b := Int.tmod_nonneg b (by omega)
    rw [Int.neg_tmod] at hsign
    omega
  · rename_i hpos
    have hsign : 0 ≤ a.tmod b := Int.tmod_nonneg b (by omega)
    omega

/-- **The signed remainder** is cut to 32 bits. -/
theorem moddi3_spec {n d : Int64} (hd : d ≠ 0) (hover : ¬ Overflows n d) :
    ∃ q r, divdi3 n d = some q ∧ q.toInt = n.toInt.tdiv d.toInt ∧ moddi3 n d = some r
      ∧ r.toInt = (n.toInt.tmod d.toInt).bmod (2 ^ 32) := by
  obtain ⟨q, hsdiv, hq⟩ := sdiv64_spec hd hover
  refine ⟨q, (n - d * q).toInt32.toInt64, hsdiv, hq, ?_, ?_⟩
  · unfold moddi3 smod64
    rw [hsdiv]
    rfl
  · have hrest : (n - d * q).toInt = n.toInt.tmod d.toInt := by
      have hmod := Nat.mod_le n.toInt.natAbs d.toInt.natAbs
      have hlow := n.le_toInt
      have hhigh := n.toInt_lt
      rw [Int64.toInt_sub, Int64.toInt_mul, Int.sub_bmod_bmod, hq, ← Int.tmod_def, tmod_eq]
      split
      · exact Int.bmod_eq_of_le (by omega) (by omega)
      · exact Int.bmod_eq_of_le (by omega) (by omega)
    rw [Int32.toInt_toInt64, Int64.toInt_toInt32, hrest]

/-- How far a number is above a multiple. -/
theorem exists_multiple_iff {m e c : ℕ} (he : 0 < e) :
    (∃ k, e * k ≤ m ∧ m < e * k + c) ↔ m % e < c := by
  have hdiv := Nat.div_add_mod m e
  constructor
  · rintro ⟨k, hle, hlt⟩
    have hk : k ≤ m / e := (Nat.le_div_iff_mul_le he).mpr (by rwa [Nat.mul_comm])
    have hmul := Nat.mul_le_mul_left e hk
    omega
  · intro hlt
    exact ⟨m / e, by omega, by omega⟩

/-- **When the unsigned remainder matches the quotient.** -/
theorem umoddi3_matches_iff (n : UInt64) {d : UInt64} (hd : d ≠ 0) :
    (∃ q r, udivdi3 n d = some q ∧ umoddi3 n d = some r
        ∧ r.toNat + d.toNat * q.toNat = n.toNat ∧ r.toNat < d.toNat)
      ↔ ∃ k, d.toNat * k ≤ n.toNat ∧ n.toNat < d.toNat * k + 2 ^ 32 := by
  have hpos : 0 < d.toNat := Nat.pos_of_ne_zero fun hzero => hd (UInt64.toNat_inj.mp hzero)
  obtain ⟨q, r, hdiv, hq, hmod, hr⟩ := umoddi3_spec n hd
  have hsum := Nat.div_add_mod n.toNat d.toNat
  rw [exists_multiple_iff hpos]
  constructor
  · rintro ⟨q', r', hdiv', hmod', hmatch, -⟩
    rw [hdiv, Option.some.injEq] at hdiv'
    rw [hmod, Option.some.injEq] at hmod'
    rw [← hdiv', ← hmod', hq] at hmatch
    omega
  · intro hlt
    rw [Nat.mod_eq_of_lt hlt] at hr
    refine ⟨q, r, hdiv, hmod, ?_, ?_⟩
    · rw [hr, hq]
      exact Nat.mod_add_div ..
    · rw [hr]
      exact Nat.mod_lt _ hpos

/-- **When the signed remainder matches the quotient.** -/
theorem moddi3_matches_iff {n d : Int64} (hd : d ≠ 0) (hover : ¬ Overflows n d) :
    (∃ q r, divdi3 n d = some q ∧ moddi3 n d = some r
        ∧ r.toInt = n.toInt - d.toInt * q.toInt ∧ (0 ≤ n → 0 ≤ r) ∧ (n ≤ 0 → r ≤ 0)
        ∧ r.toInt.natAbs < d.toInt.natAbs)
      ↔ ∃ k, d.toInt.natAbs * k ≤ n.toInt.natAbs
        ∧ n.toInt.natAbs < d.toInt.natAbs * k + 2 ^ 31 + if n < 0 then 1 else 0 := by
  have hpos : 0 < d.toInt.natAbs :=
    Int.natAbs_pos.mpr fun hzero => hd (Int64.toInt_inj.mp hzero)
  obtain ⟨q, r, hdiv, hq, hmod, hr⟩ := moddi3_spec hd hover
  have hlt := Nat.mod_lt n.toInt.natAbs hpos
  have hsign : n < 0 ↔ n.toInt < 0 := Int64.lt_iff_toInt_lt
  -- the remainder is the exact one if it fits
  have hfits : r.toInt = n.toInt.tmod d.toInt
      ↔ n.toInt.natAbs % d.toInt.natAbs < 2 ^ 31 + if n < 0 then 1 else 0 := by
    rw [hr, IntExpr.bmod_eq_self_iff (by decide), tmod_eq]
    unfold IntExpr.InRange
    simp only [hsign]
    split
    · omega
    · omega
  simp only [Nat.add_assoc]
  rw [exists_multiple_iff hpos, ← hfits]
  constructor
  · rintro ⟨q', r', hdiv', hmod', hmatch, -⟩
    rw [hdiv, Option.some.injEq] at hdiv'
    rw [hmod, Option.some.injEq] at hmod'
    rw [← hdiv', ← hmod', hq, ← Int.tmod_def] at hmatch
    exact hmatch
  · intro hexact
    have hcases := tmod_eq n.toInt d.toInt
    rw [← hexact] at hcases
    refine ⟨q, r, hdiv, hmod, ?_, fun hn => ?_, fun hn => ?_, ?_⟩
    · rw [hexact, hq, Int.tmod_def]
    · have hn : 0 ≤ n.toInt := Int64.le_iff_toInt_le.mp hn
      rw [if_neg (Int.not_lt.mpr hn)] at hcases
      exact Int64.le_iff_toInt_le.mpr (hcases ▸ Int.natCast_nonneg _)
    · have hn : n.toInt ≤ 0 := Int64.le_iff_toInt_le.mp hn
      refine Int64.le_iff_toInt_le.mpr (show r.toInt ≤ 0 from ?_)
      split at hcases
      · omega
      · rename_i hnot
        have hn' : n.toInt = 0 := by omega
        rw [hexact, hn', Int.zero_tmod]
    · rw [hexact, Int.natAbs_tmod]
      exact hlt

/-- **When the remainders match the quotients.** The unsigned one does exactly if the dividend is
less than `2 ^ 32` above a multiple of the divisor. The signed one does if the magnitude of the
dividend is less than `2 ^ 31` above one, or just as much for a negative dividend. -/
theorem remainder_iff (n d : UInt64) (i j : Int64) :
    (d ≠ 0 →
        ((∃ q r, udivdi3 n d = some q ∧ umoddi3 n d = some r
            ∧ r.toNat + d.toNat * q.toNat = n.toNat ∧ r.toNat < d.toNat)
          ↔ ∃ k, d.toNat * k ≤ n.toNat ∧ n.toNat < d.toNat * k + 2 ^ 32))
      ∧ (j ≠ 0 → ¬ Overflows i j →
        ((∃ q r, divdi3 i j = some q ∧ moddi3 i j = some r
            ∧ r.toInt = i.toInt - j.toInt * q.toInt ∧ (0 ≤ i → 0 ≤ r) ∧ (i ≤ 0 → r ≤ 0)
            ∧ r.toInt.natAbs < j.toInt.natAbs)
          ↔ ∃ k, j.toInt.natAbs * k ≤ i.toInt.natAbs
            ∧ i.toInt.natAbs < j.toInt.natAbs * k + 2 ^ 31 + if i < 0 then 1 else 0)) :=
  ⟨fun hd => umoddi3_matches_iff n hd, fun hj hover => moddi3_matches_iff hj hover⟩

theorem remainder_iff_small :
    (1000 : UInt64) ≠ 0 ∧ ∃ q r, udivdi3 0xFFFFFFFFFFFFFFFF 1000 = some q
      ∧ umoddi3 0xFFFFFFFFFFFFFFFF 1000 = some r
      ∧ r.toNat + (1000 : UInt64).toNat * q.toNat = (0xFFFFFFFFFFFFFFFF : UInt64).toNat
      ∧ r.toNat < (1000 : UInt64).toNat := by
  refine ⟨by decide, ((remainder_iff _ _ 0 1).1 (by decide)).mpr ⟨18446744073709551, ?_, ?_⟩⟩
  · decide
  · decide

/-- A remainder of more than 32 bits, and a positive one that becomes negative. -/
theorem remainder_cut :
    (udivdi3 0x100000000 0x200000000 = some 0 ∧ umoddi3 0x100000000 0x200000000 = some 0)
      ∧ divdi3 0x80000000 0x100000000 = some 0
      ∧ moddi3 0x80000000 0x100000000 = some (-0x80000000) := by
  decide

end Pintos.Arithmetic
