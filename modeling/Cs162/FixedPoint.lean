import Mathlib

/-!
# Fixed-point numbers of the advanced scheduler

`fixed-point.h` represents a real number by a 32-bit `int` with 16 fractional
bits. Results are cut to 32 bits as the machine does, the product and the
quotient are taken in 64 bits, where they fit, and division truncates toward
zero. The assertions of the header bound the arguments of `fix_int` and
`fix_frac`; they are not part of the functions.
-/

namespace Pintos

/-- The value an `int` holds after a computation. -/
def int32 (n : ℤ) : ℤ := n.bmod (2 ^ 32)

/-- `FIX_F`, two to the number of fractional bits. -/
def fixF : ℤ := 2 ^ 16

/-- `fixed_point_t`. -/
structure FixedPoint where
  /-- The internal value. -/
  f : ℤ
  deriving DecidableEq

/-- `fix_int`. -/
def fixInt (n : ℤ) : FixedPoint := ⟨int32 (n * fixF)⟩

/-- `fix_frac`. -/
def fixFrac (n d : ℤ) : FixedPoint := ⟨int32 ((n * fixF).tdiv d)⟩

/-- `fix_round`. -/
def fixRound (x : FixedPoint) : ℤ := (int32 (x.f + fixF / 2)).tdiv fixF

/-- `fix_add`. -/
def fixAdd (x y : FixedPoint) : FixedPoint := ⟨int32 (x.f + y.f)⟩

/-- `fix_sub`. -/
def fixSub (x y : FixedPoint) : FixedPoint := ⟨int32 (x.f - y.f)⟩

/-- `fix_mul`. -/
def fixMul (x y : FixedPoint) : FixedPoint := ⟨int32 ((x.f * y.f).tdiv fixF)⟩

/-- `fix_scale`. -/
def fixScale (x : FixedPoint) (n : ℤ) : FixedPoint := ⟨int32 (x.f * n)⟩

/-- `fix_div`. -/
def fixDiv (x y : FixedPoint) : FixedPoint := ⟨int32 ((x.f * fixF).tdiv y.f)⟩

/-- `fix_unscale`. -/
def fixUnscale (x : FixedPoint) (n : ℤ) : FixedPoint := ⟨int32 (x.f.tdiv n)⟩

end Pintos
