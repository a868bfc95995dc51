import Mathlib.Data.Int.Basic
import Mathlib.Tactic

/-!
# Integer computations and the machine

A computation with integers has two values: the number its formula denotes,
and the number a machine ends up with that cuts the result of every operation
to a word. `IntExpr` is the syntax of such computations, `IntExpr.exact` the
first value, and `IntExpr.run` the second, for words of any width.

A computation is *exact* (`IntExpr.Exact`) if the two agree at every operation
that it carries out. This is the case if and only if all the numbers its
operations denote are in the range of a word, which `IntExpr.exact_op_iff` and
`IntExpr.exact_mulDiv_iff` say operation by operation.
-/

/-- The operations that are carried out within a word. Division truncates. -/
inductive IntOp
  | add
  | sub
  | mul
  | div
  deriving DecidableEq

/-- The number an operation denotes. -/
def IntOp.apply : IntOp → ℤ → ℤ → ℤ
  | .add, a, b => a + b
  | .sub, a, b => a - b
  | .mul, a, b => a * b
  | .div, a, b => a.tdiv b

/-- A computation with integers. -/
inductive IntExpr
  /-- A value at hand. -/
  | val (n : ℤ)
  | op (o : IntOp) (a b : IntExpr)
  /-- A product and a quotient that are taken in a wider word, of which only the
  quotient is cut. -/
  | mulDiv (a b c : IntExpr)
  deriving DecidableEq

namespace IntExpr

variable {w : ℕ} {o : IntOp} {a b c e : IntExpr}

/-- **The number a computation denotes.** -/
def exact : IntExpr → ℤ
  | val n => n
  | op o a b => o.apply a.exact b.exact
  | mulDiv a b c => (a.exact * b.exact).tdiv c.exact

/-- **The number a machine ends up with** that has words of `w` bits. -/
def run (w : ℕ) : IntExpr → ℤ
  | val n => n
  | op o a b => (o.apply (a.run w) (b.run w)).bmod (2 ^ w)
  | mulDiv a b c => ((a.run w * b.run w).tdiv (c.run w)).bmod (2 ^ w)

/-- The operations of a computation, in the order they are carried out. -/
def steps : IntExpr → List IntExpr
  | val _ => []
  | op o a b => a.steps ++ b.steps ++ [op o a b]
  | mulDiv a b c => a.steps ++ b.steps ++ c.steps ++ [mulDiv a b c]

/-- **Every intermediate result, and the result, is the exact one.** -/
def Exact (w : ℕ) (e : IntExpr) : Prop := ∀ s ∈ e.steps, s.run w = s.exact

instance (w : ℕ) (e : IntExpr) : Decidable (e.Exact w) :=
  inferInstanceAs (Decidable (∀ s ∈ e.steps, s.run w = s.exact))

/-- The numbers a word of `w` bits can hold. -/
def InRange (w : ℕ) (n : ℤ) : Prop := -2 ^ (w - 1) ≤ n ∧ n < 2 ^ (w - 1)

/-- **Cutting to a word changes the numbers that do not fit.** -/
theorem bmod_eq_self_iff (hw : 0 < w) (n : ℤ) : n.bmod (2 ^ w) = n ↔ InRange w n := by
  obtain ⟨v, rfl⟩ : ∃ v, w = v + 1 := ⟨w - 1, by omega⟩
  have hpow : ((2 ^ (v + 1) : ℕ) : ℤ) = 2 * 2 ^ v := by
    push_cast
    ring
  have hlow := Int.le_bmod (x := n) (m := 2 ^ (v + 1)) (by positivity)
  have hhigh := Int.bmod_lt (x := n) (m := 2 ^ (v + 1)) (by positivity)
  unfold InRange
  rw [Nat.add_sub_cancel]
  constructor
  · intro h
    rw [h] at hlow hhigh
    omega
  · rintro ⟨hge, hlt⟩
    exact Int.bmod_eq_of_le (by omega) (by omega)

@[simp]
theorem exact_val (w : ℕ) (n : ℤ) : (val n).Exact w := by
  intro s hs
  cases hs

/-- An exact computation ends up with the number it denotes. -/
theorem Exact.run_eq (h : e.Exact w) : e.run w = e.exact := by
  cases e with
  | val n => rfl
  | op o a b => exact h _ (by simp [steps])
  | mulDiv a b c => exact h _ (by simp [steps])

/-- **An operation is exact** if its operands are and its result fits. -/
theorem exact_op_iff (hw : 0 < w) :
    (op o a b).Exact w ↔ a.Exact w ∧ b.Exact w ∧ InRange w (o.apply a.exact b.exact) := by
  have hlast (ha : a.Exact w) (hb : b.Exact w) :
      (op o a b).run w = (op o a b).exact ↔ InRange w (o.apply a.exact b.exact) := by
    rw [run, exact, ha.run_eq, hb.run_eq]
    exact bmod_eq_self_iff hw _
  unfold Exact
  rw [steps]
  simp only [List.mem_append, List.mem_singleton, or_imp, forall_and, forall_eq]
  constructor
  · rintro ⟨⟨ha, hb⟩, hrun⟩
    exact ⟨ha, hb, (hlast ha hb).mp hrun⟩
  · rintro ⟨ha, hb, hrange⟩
    exact ⟨⟨ha, hb⟩, (hlast ha hb).mpr hrange⟩

/-- **A quotient of a wide product is exact** if its operands are and it fits. -/
theorem exact_mulDiv_iff (hw : 0 < w) : (mulDiv a b c).Exact w
      ↔ a.Exact w ∧ b.Exact w ∧ c.Exact w ∧ InRange w ((a.exact * b.exact).tdiv c.exact) := by
  have hlast (ha : a.Exact w) (hb : b.Exact w) (hc : c.Exact w) :
      (mulDiv a b c).run w = (mulDiv a b c).exact
        ↔ InRange w ((a.exact * b.exact).tdiv c.exact) := by
    rw [run, exact, ha.run_eq, hb.run_eq, hc.run_eq]
    exact bmod_eq_self_iff hw _
  unfold Exact
  rw [steps]
  simp only [List.mem_append, List.mem_singleton, or_imp, forall_and, forall_eq]
  constructor
  · rintro ⟨⟨⟨ha, hb⟩, hc⟩, hrun⟩
    exact ⟨ha, hb, hc, (hlast ha hb hc).mp hrun⟩
  · rintro ⟨ha, hb, hc, hrange⟩
    exact ⟨⟨⟨ha, hb⟩, hc⟩, (hlast ha hb hc).mpr hrange⟩

/-- A truncated quotient is at most what the dividend is at most the multiple of. -/
theorem tdiv_le {n d m : ℤ} (hd : 0 < d) (h : n ≤ m * d) : n.tdiv d ≤ m := by
  have hneg : -m ≤ (-n).tdiv d := Int.le_tdiv_of_mul_le hd (by linarith)
  rw [Int.neg_tdiv] at hneg
  exact neg_le_neg_iff.mp hneg

end IntExpr
