import Cs162.MachineInt
import Cs162.MlfqsPriority

/-!
# The formulas of the advanced scheduler

The scheduler computes the load, what each thread is charged and the
priorities in 32-bit fixed-point arithmetic. Here each of its computations is
written down as a formula over `IntExpr`, with one operation for each that
the machine carries out; `run_…` says that running it on the machine is what
the functions of `thread.c` do.

Whether a formula is exact depends on the numbers that go into it. With at most
64 threads besides the idle thread the load stays below 65, and `recent_cpu`
between -2700 and 16000, with up to a second's ticks on top; within these
bounds (`LoadBounded`, `Thread.Bounded`) every formula is exact, and its
result is within them again. The two functions that report 100 times a value
to the outside are another matter: for `recent_cpu` this fits a word only up
to 327.
-/

namespace Pintos

open IntExpr

namespace Formula

/-- `fix_int`. -/
def fixInt (n : IntExpr) : IntExpr := .op .mul n (.val fixF)

/-- `fix_frac`. -/
def fixFrac (n d : IntExpr) : IntExpr := .mulDiv n (.val fixF) d

/-- `fix_round`. -/
def fixRound (x : IntExpr) : IntExpr := .op .div (.op .add x (.val (fixF / 2))) (.val fixF)

/-- `fix_add`. -/
def fixAdd (x y : IntExpr) : IntExpr := .op .add x y

/-- `fix_sub`. -/
def fixSub (x y : IntExpr) : IntExpr := .op .sub x y

/-- `fix_mul`. -/
def fixMul (x y : IntExpr) : IntExpr := .mulDiv x y (.val fixF)

/-- `fix_scale`. -/
def fixScale (x n : IntExpr) : IntExpr := .op .mul x n

/-- `fix_div`. -/
def fixDiv (x y : IntExpr) : IntExpr := .mulDiv x (.val fixF) y

/-- `fix_unscale`. -/
def fixUnscale (x n : IntExpr) : IntExpr := .op .div x n

/-- The computation of `tick_increment`. -/
def tickIncrement (t : Thread) : IntExpr := fixAdd (.val t.recentCpu.f) (fixInt (.val 1))

/-- The computation of `calculate_load_avg`, with a given number of threads that
are ready or run. -/
def calculateLoadAvg (loadAvg : FixedPoint) (size : ℕ) : IntExpr :=
  fixAdd (fixMul (fixFrac (.val 59) (.val 60)) (.val loadAvg.f)) (fixFrac (.val size) (.val 60))

/-- The computation of `calculate_recent_cpu`. -/
def calculateRecentCpu (loadAvg : FixedPoint) (t : Thread) : IntExpr :=
  let loadNum := fixScale (.val loadAvg.f) (.val 2)
  let loadFrac := fixDiv loadNum (fixAdd loadNum (fixInt (.val 1)))
  fixAdd (fixMul loadFrac (.val t.recentCpu.f)) (fixInt (.val t.nice))

/-- The computation of `calculate_priority`, up to the bounds check. -/
def calculatePriority (t : Thread) : IntExpr :=
  fixRound (fixSub (fixSub (fixInt (.val priMax)) (fixUnscale (.val t.recentCpu.f) (.val 4)))
    (fixInt (.op .mul (.val 2) (.val t.nice))))

/-- The computation of `thread_get_load_avg` and `thread_get_recent_cpu`: 100
times a value, rounded. -/
def hundredfold (x : FixedPoint) : IntExpr := fixRound (fixScale (.val x.f) (.val 100))

end Formula

/-! ## The machine runs the formulas -/

theorem inRange_int32 (n : ℤ) : InRange 32 n ↔ -2147483648 ≤ n ∧ n ≤ 2147483647 := by
  unfold InRange
  norm_num
  omega

/-- A quotient of an `int` fits an `int`. -/
theorem inRange_tdiv_fixF {n : ℤ} (h : InRange 32 n) : InRange 32 (n.tdiv fixF) := by
  rw [inRange_int32] at *
  have hge : -32768 ≤ n.tdiv fixF :=
    Int.le_tdiv_of_mul_le (by decide) (le_trans (by decide) h.1)
  have hle : n.tdiv fixF ≤ 32768 := tdiv_le (by decide) (le_trans h.2 (by decide))
  omega

theorem run_fixRound (x : IntExpr) : (Formula.fixRound x).run 32 = fixRound ⟨x.run 32⟩ := by
  unfold Formula.fixRound fixRound
  rw [run, run, run, run]
  refine (bmod_eq_self_iff (by decide) _).mpr (inRange_tdiv_fixF ?_)
  exact (bmod_eq_self_iff (by decide) _).mp Int.bmod_bmod

/-- **Rounding is exact** if one half can be added. -/
theorem exact_fixRound_iff (x : IntExpr) :
    (Formula.fixRound x).Exact 32 ↔ x.Exact 32 ∧ InRange 32 (x.exact + fixF / 2) := by
  unfold Formula.fixRound
  rw [exact_op_iff (by decide), exact_op_iff (by decide)]
  simp only [exact_val, true_and]
  exact ⟨fun h => h.1, fun h => ⟨h, inRange_tdiv_fixF h.2⟩⟩

theorem run_tickIncrement (t : Thread) :
    (Formula.tickIncrement t).run 32 = (fixAdd t.recentCpu (fixInt 1)).f := by
  rfl

theorem run_calculateLoadAvg (loadAvg : FixedPoint) (size : ℕ) :
    (Formula.calculateLoadAvg loadAvg size).run 32
      = (fixAdd (fixMul (fixFrac 59 60) loadAvg) (fixFrac size 60)).f := by
  unfold Formula.calculateLoadAvg Formula.fixAdd Formula.fixMul Formula.fixFrac
  unfold fixAdd fixMul fixFrac
  simp only [run, IntOp.apply, int32]

theorem run_calculateRecentCpu (loadAvg : FixedPoint) (t : Thread) :
    (Formula.calculateRecentCpu loadAvg t).run 32 = (Kernel.calculatedRecentCpu loadAvg t).f := by
  unfold Formula.calculateRecentCpu Formula.fixAdd Formula.fixMul Formula.fixDiv Formula.fixScale
    Formula.fixInt
  unfold Kernel.calculatedRecentCpu fixAdd fixMul fixDiv fixScale fixInt
  simp only [run, IntOp.apply, int32]

/-- Twice the `nice` value is cut to a word before it is scaled, which makes no
difference to the product. -/
theorem run_calculatePriority (t : Thread) : Kernel.calculatedPriority t
      = max priMin (min priMax ((Formula.calculatePriority t).run 32)) := by
  have hnice : int32 (int32 (2 * t.nice) * fixF) = int32 (2 * t.nice * fixF) :=
    Int.bmod_mul_bmod
  rw [calculatedPriority_eq, Formula.calculatePriority, run_fixRound]
  unfold fullPriority fixInt fixSub fixUnscale
  rw [← hnice]
  unfold Formula.fixSub Formula.fixInt Formula.fixUnscale
  simp only [run, IntOp.apply, int32]

/-- `thread_get_load_avg`. -/
def Kernel.threadGetLoadAvg (k : Kernel) : ℤ := fixRound (fixScale k.loadAvg 100)

/-- `thread_get_recent_cpu`. -/
def Kernel.threadGetRecentCpu (k : Kernel) : ℤ :=
  fixRound (fixScale (k.threads k.current).recentCpu 100)

theorem run_hundredfold (x : FixedPoint) :
    (Formula.hundredfold x).run 32 = fixRound (fixScale x 100) := by
  unfold Formula.hundredfold
  rw [run_fixRound]
  rfl

/-! ## Bounds -/

/-- The load is at most 65. -/
def LoadBounded (loadAvg : FixedPoint) : Prop := 0 ≤ loadAvg.f ∧ loadAvg.f ≤ 65 * fixF

/-- The bounds of a thread's account, with `extra` for what it was charged since
the last full second. -/
structure Thread.Bounded (t : Thread) (extra : ℕ) : Prop where
  nice_ge : niceMin ≤ t.nice
  nice_le : t.nice ≤ niceMax
  cpu_ge : -2700 * fixF ≤ t.recentCpu.f
  cpu_le : t.recentCpu.f ≤ (16000 + extra) * fixF

section

variable {t : Thread} {extra : ℕ} {loadAvg : FixedPoint}

/-- **A tick can be charged** to a thread that was charged less than a second's
ticks. -/
theorem Thread.Bounded.tickIncrement (h : t.Bounded extra) (hextra : extra < timerFreq) :
    (Formula.tickIncrement t).Exact 32
      ∧ { t with recentCpu := fixAdd t.recentCpu (fixInt 1) }.Bounded (extra + 1) := by
  obtain ⟨hnice, hnice', hcpu, hcpu'⟩ := h
  unfold timerFreq at hextra
  have hexact : (Formula.tickIncrement t).Exact 32 := by
    unfold Formula.tickIncrement Formula.fixAdd Formula.fixInt
    simp only [exact_op_iff (w := 32) (by decide), exact_val, exact, IntOp.apply, inRange_int32,
      fixF, true_and] at *
    omega
  have hf : (fixAdd t.recentCpu (fixInt 1)).f = t.recentCpu.f + 1 * fixF := hexact.run_eq
  refine ⟨hexact, hnice, hnice', ?_, ?_⟩
  · show _ ≤ (fixAdd t.recentCpu (fixInt 1)).f
    rw [hf]
    unfold fixF at *
    omega
  · show (fixAdd t.recentCpu (fixInt 1)).f ≤ _
    rw [hf]
    unfold fixF at *
    push_cast
    omega

/-- **The load** of at most `N` threads stays at most `N`: the two fractions are rounded
down, to 64443 and to less than 1093 for each thread. -/
theorem calculateLoadAvg_bounds {N size : ℕ} (hN : N ≤ 16383) (hge : 0 ≤ loadAvg.f)
    (hle : loadAvg.f ≤ N * fixF) (hsize : size ≤ N) :
    (Formula.calculateLoadAvg loadAvg size).Exact 32
      ∧ 0 ≤ (fixAdd (fixMul (fixFrac 59 60) loadAvg) (fixFrac size 60)).f
      ∧ (fixAdd (fixMul (fixFrac 59 60) loadAvg) (fixFrac size 60)).f ≤ N * fixF := by
  have hpast : (64443 * loadAvg.f).tdiv fixF ≤ 64443 * N :=
    tdiv_le (by decide) (by linarith)
  have hpast' : 0 ≤ (64443 * loadAvg.f).tdiv fixF := Int.tdiv_nonneg (by omega) (by decide)
  have hready : ((size : ℤ) * fixF).tdiv 60 ≤ 1093 * N := by
    refine tdiv_le (by decide) ?_
    unfold fixF
    omega
  have hready' : 0 ≤ ((size : ℤ) * fixF).tdiv 60 := by
    refine Int.tdiv_nonneg ?_ (by decide)
    unfold fixF
    omega
  have hfrac : (59 * fixF).tdiv 60 = 64443 := by decide
  have hexact : (Formula.calculateLoadAvg loadAvg size).Exact 32 := by
    unfold Formula.calculateLoadAvg Formula.fixAdd Formula.fixMul Formula.fixFrac
    simp only [exact_op_iff (w := 32) (by decide), exact_mulDiv_iff (w := 32) (by decide),
      exact_val, exact, IntOp.apply, inRange_int32, true_and, hfrac]
    omega
  have hf : (fixAdd (fixMul (fixFrac 59 60) loadAvg) (fixFrac size 60)).f
      = (64443 * loadAvg.f).tdiv fixF + ((size : ℤ) * fixF).tdiv 60 := by
    rw [← run_calculateLoadAvg, hexact.run_eq, ← hfrac]
    rfl
  refine ⟨hexact, ?_⟩
  rw [hf]
  unfold fixF at *
  omega

/-- The load of at most 65 threads. -/
theorem LoadBounded.calculateLoadAvg (h : LoadBounded loadAvg) {size : ℕ} (hsize : size ≤ 65) :
    (Formula.calculateLoadAvg loadAvg size).Exact 32
      ∧ LoadBounded (fixAdd (fixMul (fixFrac 59 60) loadAvg) (fixFrac size 60)) :=
  calculateLoadAvg_bounds (by decide) h.1 h.2 hsize

/-- **What the load leaves of `recent_cpu`**: the fraction is below one by at
least 500 / 65536, which is more than 20 in 2700 and 120 in 16100. -/
theorem decay_bounds {n r : ℤ} (hn : 0 ≤ n) (hn' : n ≤ 130 * fixF) (hr : -2700 * fixF ≤ r)
    (hr' : r ≤ 16100 * fixF) : (0 ≤ (n * fixF).tdiv (n + fixF) ∧ (n * fixF).tdiv (n + fixF) ≤ 65036)
      ∧ -2680 * fixF ≤ ((n * fixF).tdiv (n + fixF) * r).tdiv fixF
      ∧ ((n * fixF).tdiv (n + fixF) * r).tdiv fixF ≤ 15980 * fixF := by
  have hfrac : (n * fixF).tdiv (n + fixF) ≤ 65036 := by
    unfold fixF at *
    exact tdiv_le (by omega) (by omega)
  have hfrac' : 0 ≤ (n * fixF).tdiv (n + fixF) := by
    unfold fixF at *
    exact Int.tdiv_nonneg (by omega) (by omega)
  generalize (n * fixF).tdiv (n + fixF) = a at *
  refine ⟨⟨hfrac', hfrac⟩, Int.le_tdiv_of_mul_le (by decide) ?_, tdiv_le (by decide) ?_⟩
  · unfold fixF at *
    nlinarith
  · unfold fixF at *
    nlinarith

/-- **`recent_cpu` at a full second**, from what a second's ticks can make of it. -/
theorem Thread.Bounded.calculateRecentCpu (h : t.Bounded timerFreq) (hload : LoadBounded loadAvg) :
    (Formula.calculateRecentCpu loadAvg t).Exact 32
      ∧ { t with recentCpu := Kernel.calculatedRecentCpu loadAvg t }.Bounded 0 := by
  obtain ⟨hnice, hnice', hcpu, hcpu'⟩ := h
  obtain ⟨hge, hle⟩ := hload
  have hn : 0 ≤ loadAvg.f * 2 := by omega
  have hn' : loadAvg.f * 2 ≤ 130 * fixF := by
    unfold fixF at *
    omega
  obtain ⟨⟨hfrac, hfrac'⟩, hpart, hpart'⟩ := decay_bounds hn hn' hcpu hcpu'
  have hexact : (Formula.calculateRecentCpu loadAvg t).Exact 32 := by
    unfold Formula.calculateRecentCpu Formula.fixAdd Formula.fixMul Formula.fixDiv
      Formula.fixScale Formula.fixInt
    simp only [exact_op_iff (w := 32) (by decide), exact_mulDiv_iff (w := 32) (by decide),
      exact_val, exact, IntOp.apply, inRange_int32, true_and, one_mul]
    unfold niceMin at hnice
    unfold niceMax at hnice'
    unfold fixF at *
    omega
  have hf : (Kernel.calculatedRecentCpu loadAvg t).f
      = ((loadAvg.f * 2 * fixF).tdiv (loadAvg.f * 2 + fixF) * t.recentCpu.f).tdiv fixF
        + t.nice * fixF := by
    rw [← run_calculateRecentCpu, hexact.run_eq]
    unfold Formula.calculateRecentCpu Formula.fixAdd Formula.fixMul Formula.fixDiv
      Formula.fixScale Formula.fixInt
    simp only [exact, IntOp.apply, one_mul]
  refine ⟨hexact, hnice, hnice', ?_, ?_⟩
  · show _ ≤ (Kernel.calculatedRecentCpu loadAvg t).f
    rw [hf]
    unfold niceMin at hnice
    unfold fixF at *
    omega
  · show (Kernel.calculatedRecentCpu loadAvg t).f ≤ _
    rw [hf]
    unfold niceMax at hnice'
    unfold fixF at *
    omega

/-- **A priority** at any time. -/
theorem Thread.Bounded.calculatePriority (h : t.Bounded extra) (hextra : extra ≤ timerFreq) :
    (Formula.calculatePriority t).Exact 32 := by
  obtain ⟨hnice, hnice', hcpu, hcpu'⟩ := h
  unfold timerFreq at hextra
  unfold niceMin at hnice
  unfold niceMax at hnice'
  have hquarter : -2700 * fixF ≤ t.recentCpu.f.tdiv 4 :=
    Int.le_tdiv_of_mul_le (by decide) (by unfold fixF at *; omega)
  have hquarter' : t.recentCpu.f.tdiv 4 ≤ 16100 * fixF :=
    tdiv_le (by decide) (by unfold fixF at *; omega)
  unfold Formula.calculatePriority
  rw [exact_fixRound_iff]
  unfold Formula.fixSub Formula.fixInt Formula.fixUnscale
  simp only [exact_op_iff (w := 32) (by decide), exact_val, exact, IntOp.apply, inRange_int32,
    true_and]
  unfold priMax fixF at *
  omega

/-- **100 times a value fits** a word only as long as the value is within 327 and
a little of zero. -/
theorem hundredfold_exact_iff (x : FixedPoint) :
    (Formula.hundredfold x).Exact 32 ↔ -21474836 ≤ x.f ∧ x.f ≤ 21474508 := by
  unfold Formula.hundredfold
  rw [exact_fixRound_iff]
  unfold Formula.fixScale
  simp only [exact_op_iff (w := 32) (by decide), exact_val, exact, IntOp.apply, inRange_int32,
    true_and]
  unfold fixF
  omega

/-- **The load can be reported.** -/
theorem LoadBounded.hundredfold (h : LoadBounded loadAvg) :
    (Formula.hundredfold loadAvg).Exact 32 := by
  unfold LoadBounded fixF at h
  rw [hundredfold_exact_iff]
  omega

end

end Pintos
