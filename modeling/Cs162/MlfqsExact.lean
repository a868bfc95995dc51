import Cs162.MlfqsFormula

/-!
# The arithmetic of the advanced scheduler does not wrap

`Kernel.formulas` lists the computations an event makes the kernel carry out,
in their order and with the values that go into them. In every run with at most
64 threads besides the idle thread, all of them are exact: the load and the
accounts stay within their bounds (`Kernel.Bounded`), step by step, because a
full second takes more from `recent_cpu` than the hundred ticks and the `nice`
value have added where it is large.

The numbers are reported 100 times as large. `thread_get_load_avg` is exact in
every such run. `thread_get_recent_cpu` is not: a single thread with the
`nice` value 20 that never gives up the processor has a `recent_cpu` of 328
after two minutes, and the call returns a negative number.
-/

namespace Pintos

namespace Kernel

variable {k k' : Kernel} {t : ThreadId} {e : Event}

/-! ## The computations of an event -/

/-- What `tick_increment` computes. -/
def tickIncrementFormulas (k : Kernel) : List IntExpr :=
  if k.current = k.idleThread then [] else [Formula.tickIncrement (k.threads k.current)]

/-- What `calculate_load_avg` computes. -/
def calculateLoadAvgFormulas (k : Kernel) : List IntExpr :=
  let size := k.readyList.length + if k.current ≠ k.idleThread then 1 else 0
  [Formula.calculateLoadAvg k.loadAvg size]

/-- What `calculate_recent_cpu` computes. -/
def calculateRecentCpuFormulas (k : Kernel) (t : ThreadId) : List IntExpr :=
  if t = k.idleThread then [] else [Formula.calculateRecentCpu k.loadAvg (k.threads t)]

/-- What `calculate_priority` computes. -/
def calculatePriorityFormulas (k : Kernel) (t : ThreadId) : List IntExpr :=
  if t = k.idleThread then [] else [Formula.calculatePriority (k.threads t)]

/-- What the loop of `do_recalculate` computes. -/
def doRecalculateFormulas : List ThreadId → Kernel → List IntExpr
  | [], _ => []
  | t :: list, k =>
    k.calculateRecentCpuFormulas t ++ (k.calculateRecentCpu t).calculatePriorityFormulas t
      ++ doRecalculateFormulas list ((k.calculateRecentCpu t).calculatePriority t)

/-- What `timer_interrupt` computes for the advanced scheduler. -/
def mlfqsTickFormulas (k : Kernel) : List IntExpr :=
  let k' := k.tickIncrement
  k.tickIncrementFormulas ++
    if k'.ticks % timerFreq = 0 then
      k'.calculateLoadAvgFormulas
        ++ doRecalculateFormulas k'.calculateLoadAvg.allList k'.calculateLoadAvg
    else if k'.ticks % timeSlice = 0 then k'.calculatePriorityFormulas k'.current
    else []

/-- **What an event makes the scheduler compute**: there is `thread_set_nice`, and
the timer. -/
def formulas (k : Kernel) (e : Event) : List IntExpr :=
  match k.action e with
  | some (.threadSetNice nice) =>
    (k.updateCurrent fun t => { t with nice := clampedNice nice }).calculatePriorityFormulas
      k.current
  | some _ => []
  | none =>
    if e = .timerInterrupt then
      { k with ticks := k.ticks + 1, threadTicks := k.threadTicks + 1 }.mlfqsTickFormulas
    else []

end Kernel

/-! ## The bounds -/

theorem Thread.Bounded.mono {t : Thread} {m n : ℕ} (h : t.Bounded m) (hle : m ≤ n) :
    t.Bounded n := by
  refine ⟨h.nice_ge, h.nice_le, h.cpu_ge, h.cpu_le.trans ?_⟩
  unfold fixF
  omega

theorem Thread.Bounded.congr {t u : Thread} {extra : ℕ} (h : t.Bounded extra)
    (hsame : u.account.2 = t.account.2) : u.Bounded extra := by
  obtain ⟨hnice, hcpu⟩ := Prod.mk.inj hsame
  obtain ⟨hnice', hnice'', hcpu', hcpu''⟩ := h
  rw [← hnice] at hnice' hnice''
  rw [← hcpu] at hcpu' hcpu''
  exact ⟨hnice', hnice'', hcpu', hcpu''⟩

/-- The result of a full second's recalculation. -/
theorem Thread.Bounded.recalculated {t : Thread} {loadAvg : FixedPoint} (h : t.Bounded timerFreq)
    (hload : LoadBounded loadAvg) : (Kernel.recalculatedThread loadAvg t).Bounded 0 :=
  (h.calculateRecentCpu hload).2.congr rfl

theorem newThread_bounded (priority : ℤ) : (Kernel.newThread priority).Bounded 0 where
  nice_ge := show niceMin ≤ 0 by decide
  nice_le := show 0 ≤ niceMax by decide
  cpu_ge := show -2700 * fixF ≤ (fixInt 0).f by decide
  cpu_le := show (fixInt 0).f ≤ (16000 + (0 : ℕ)) * fixF by decide

theorem Thread.Bounded.setNice {t : Thread} {extra : ℕ} (h : t.Bounded extra) (nice : ℤ) :
    { t with nice := Kernel.clampedNice nice }.Bounded extra := by
  refine ⟨?_, ?_, h.cpu_ge, h.cpu_le⟩
  · show niceMin ≤ Kernel.clampedNice nice
    unfold Kernel.clampedNice niceMin niceMax
    split
    · omega
    · split <;> omega
  · show Kernel.clampedNice nice ≤ niceMax
    unfold Kernel.clampedNice niceMin niceMax
    split
    · omega
    · split <;> omega

namespace Kernel

variable {k k' : Kernel} {t : ThreadId} {e : Event}

/-- **What the arithmetic relies on.** -/
structure Bounded (k : Kernel) : Prop where
  mlfqs : k.mlfqs = true
  load : LoadBounded k.loadAvg
  threads : ∀ t ∈ k.allList, t ≠ k.idleThread → (k.threads t).Bounded (k.ticks % timerFreq)

theorem Bounded.unaccounted (h : k.Bounded) (hsame : Unaccounted k k') : k'.Bounded where
  mlfqs := hsame.mlfqs.trans h.mlfqs
  load := hsame.loadAvg ▸ h.load
  threads t ht hidle := by
    rw [hsame.ticks]
    exact (h.threads t (hsame.all t ht) (hsame.idle ▸ hidle)).congr
      (congrArg Prod.snd (hsame.account t))

theorem Bounded.schedule (h : k.Bounded) : k.schedule.Bounded where
  mlfqs := h.mlfqs
  load := h.load
  threads t ht hidle := by
    refine (h.threads t ht hidle).congr ?_
    unfold Kernel.schedule
    exact proj_updateCurrent (fun th => th.account.2) rfl t

/-- At most 64 threads besides the idle thread. -/
def Few (k : Kernel) : Prop := k.allList.length ≤ 65

/-- The threads that `calculate_load_avg` counts are threads. -/
theorem Active.load_size (h : k.Active) (hfew : k.Few) :
    k.readyList.length + (if k.current ≠ k.idleThread then 1 else 0) ≤ 65 := by
  have hsub : k.current :: k.readyList ⊆ k.allList := by
    intro t ht
    rw [h.all_mem]
    rcases List.mem_cons.mp ht with rfl | ht
    · rw [h.running]
      exact nofun
    · rw [h.ready_status t ht]
      exact nofun
  have hnodup : (k.current :: k.readyList).Nodup :=
    List.nodup_cons.mpr ⟨h.current_not_ready, h.ready_nodup⟩
  have hlength := (hnodup.subperm hsub).length_le
  rw [List.length_cons] at hlength
  unfold Few at hfew
  split <;> omega

theorem Bounded.charged (h : k.Bounded) (ht : t ∈ k.allList) (hidle : t ≠ k.idleThread) :
    (k.charged.threads t).Bounded (k.ticks % timerFreq + 1) := by
  have hbounded := h.threads t ht hidle
  rw [threads_charged]
  split
  · exact (hbounded.tickIncrement (Nat.mod_lt _ (by decide))).2
  · exact hbounded.mono (Nat.le_succ _)

theorem Bounded.calculateLoadAvg (h : k.Bounded) (hactive : k.Active) (hfew : k.Few) :
    LoadBounded k.charged.calculateLoadAvg.loadAvg := by
  have hsame := onlyThreads_charged k
  have hsize := hactive.load_size hfew
  unfold Kernel.calculateLoadAvg
  rw [hsame.loadAvg, hsame.ready, hsame.current, hsame.idle]
  exact (h.load.calculateLoadAvg hsize).2

/-- **A tick keeps the bounds.** -/
theorem Bounded.ticked (h : k.Bounded) (hactive : k.Active) (hfew : k.Few) : k.ticked.Bounded := by
  have hsame := onlyThreads_ticked hactive.all_nodup
  by_cases hsecond : (k.ticks + 1) % timerFreq = 0
  · obtain ⟨hload, hthreads⟩ := ticked_second hactive.all_nodup hsecond
    refine ⟨hsame.mlfqs.trans h.mlfqs, ?_, fun t ht hidle => ?_⟩
    · rw [hload.loadAvg]
      exact h.calculateLoadAvg hactive hfew
    · rw [hsame.all] at ht
      rw [hsame.idle] at hidle
      rw [hsame.ticks, hsecond, hthreads t, if_pos ⟨ht, hidle⟩]
      refine ((h.charged ht hidle).mono ?_).recalculated (h.calculateLoadAvg hactive hfew)
      exact Nat.mod_lt _ (by decide)
  · have hcount : k.ticks % timerFreq + 1 = (k.ticks + 1) % timerFreq := by
      unfold timerFreq at *
      omega
    obtain ⟨hload, hthreads⟩ := ticked_between hsecond
    refine ⟨hsame.mlfqs.trans h.mlfqs, hload ▸ h.load, fun t ht hidle => ?_⟩
    rw [hsame.all] at ht
    rw [hsame.idle] at hidle
    obtain ⟨p, hp⟩ := hthreads t
    rw [hsame.ticks, hp, ← hcount]
    exact (h.charged ht hidle).congr rfl

/-- **`thread_set_nice` keeps the bounds.** -/
theorem Bounded.niceSet (h : k.Bounded) (nice : ℤ) : (k.niceSet nice).Bounded := by
  have hsame := onlyThreads_niceSet k nice
  refine ⟨hsame.mlfqs.trans h.mlfqs, hsame.loadAvg ▸ h.load, fun t ht hidle => ?_⟩
  rw [hsame.all] at ht
  rw [hsame.idle] at hidle
  have hbounded := h.threads t ht hidle
  rw [hsame.ticks]
  have haccount := account_niceSet k nice t
  split at haccount
  · refine (hbounded.setNice nice).congr ?_
    rw [haccount]
    rfl
  · exact hbounded.congr (congrArg Prod.snd haccount)

/-- **A new thread is within the bounds.** -/
theorem Bounded.initThread (h : k.Bounded) (priority : ℤ) : (k.initThread priority).Bounded := by
  refine ⟨h.mlfqs, h.load, fun t ht hidle => ?_⟩
  have ht : t ∈ k.allList ++ [k.nextThread] := ht
  show ((k.initThread priority).threads t).Bounded (k.ticks % timerFreq)
  unfold Kernel.initThread
  rw [update_threads]
  by_cases htn : t = k.nextThread
  · rw [htn, Function.update_self]
    exact (newThread_bounded priority).mono (Nat.zero_le _)
  · rw [Function.update_of_ne htn]
    exact h.threads t (by simpa [htn] using ht) hidle

theorem Bounded.accounted (h : k.Bounded) (hactive : k.Active) (hfew : k.Few) :
    (k.accounted e).Bounded := by
  unfold Kernel.accounted
  split
  · exact h.niceSet _
  · exact h.initThread _
  · exact h
  · split
    · exact h.ticked hactive hfew
    · exact h

end Kernel

/-- **Every step keeps the bounds.** -/
theorem KernelStep.bounded {k k' : Kernel} {e : Event} (hstep : KernelStep k e k')
    (h : k.Bounded) (hactive : k.Active) (hfew : k.Few) : k'.Bounded := by
  obtain ⟨sw, hsw, rfl⟩ := Option.map_eq_some_iff.mp hstep.2
  have hstate : sw.state.Bounded :=
    (h.accounted hactive hfew).unaccounted (Kernel.handle_accounts h.mlfqs hsw)
  cases sw with
  | stay k₁ => exact hstate
  | schedule k₁ => exact hstate.schedule

theorem boot_bounded (values : ℕ → ℕ) : (boot true values).Bounded := by
  refine ⟨rfl, (show LoadBounded (fixInt 0) from ⟨by decide, by decide⟩), fun t ht hidle => ?_⟩
  have ht : t ∈ [0, 1] := ht
  rcases List.mem_pair.mp ht with rfl | rfl
  · exact (newThread_bounded priDefault).congr rfl
  · exact absurd rfl hidle

namespace Kernel

variable {k k' : Kernel} {t : ThreadId} {e : Event}

/-! ## Exactness -/

/-- The loop of `do_recalculate`: the account of a thread is as it was until its
turn comes. -/
theorem doRecalculateFormulas_exact {list : List ThreadId} (hnodup : list.Nodup)
    (hload : LoadBounded k.loadAvg)
    (h : ∀ t ∈ list, t ≠ k.idleThread → (k.threads t).Bounded timerFreq) :
    ∀ f ∈ doRecalculateFormulas list k, f.Exact 32 := by
  induction list generalizing k with
  | nil => exact nofun
  | cons t list ih =>
    obtain ⟨ht, hnodup⟩ := List.nodup_cons.mp hnodup
    have hcpu := onlyThreads_calculateRecentCpu k t
    have hone := hcpu.trans (onlyThreads_calculatePriority (k.calculateRecentCpu t) t)
    unfold doRecalculateFormulas
    intro f hf
    rcases List.mem_append.mp hf with hf | hf
    · by_cases hidle : t = k.idleThread
      · simp only [calculateRecentCpuFormulas, calculatePriorityFormulas, hcpu.idle, if_pos hidle,
          List.append_nil, List.not_mem_nil] at hf
      · obtain ⟨hexact, hbounded⟩ := (h t List.mem_cons_self hidle).calculateRecentCpu hload
        have hthread := threads_calculateRecentCpu k t t
        rw [if_pos ⟨rfl, hidle⟩] at hthread
        simp only [calculateRecentCpuFormulas, calculatePriorityFormulas, hcpu.idle, if_neg hidle,
          List.mem_append, List.mem_singleton] at hf
        rcases hf with rfl | rfl
        · exact hexact
        · rw [hthread]
          exact hbounded.calculatePriority (Nat.zero_le _)
    · refine ih hnodup (hone.loadAvg ▸ hload) (fun u hu hidle => ?_) f hf
      have hut : u ≠ t := fun heq => ht (heq ▸ hu)
      rw [threads_calculatePriority, if_neg fun hnot => hut hnot.1, threads_calculateRecentCpu,
        if_neg fun hnot => hut hnot.1]
      exact h u (List.mem_cons_of_mem t hu) (hone.idle ▸ hidle)

/-- **What a tick computes is exact.** -/
theorem Bounded.mlfqsTickFormulas_exact (h : k.Bounded) (hactive : k.Active) (hfew : k.Few) :
    ∀ f ∈ { k with ticks := k.ticks + 1, threadTicks := k.threadTicks + 1 }.mlfqsTickFormulas,
      f.Exact 32 := by
  have hsame := onlyThreads_charged k
  have hcurrent : k.current ∈ k.allList := by
    rw [hactive.all_mem, hactive.running]
    exact nofun
  have hlt : k.ticks % timerFreq < timerFreq := Nat.mod_lt _ (by decide)
  unfold mlfqsTickFormulas
  intro f hf
  rcases List.mem_append.mp hf with hf | hf
  · unfold tickIncrementFormulas at hf
    split at hf
    · cases hf
    · rename_i hidle
      obtain rfl := List.mem_singleton.mp hf
      exact ((h.threads _ hcurrent hidle).tickIncrement hlt).1
  · change f ∈ (if k.charged.ticks % timerFreq = 0 then
      k.charged.calculateLoadAvgFormulas
        ++ doRecalculateFormulas k.charged.calculateLoadAvg.allList k.charged.calculateLoadAvg
      else if k.charged.ticks % timeSlice = 0 then
        k.charged.calculatePriorityFormulas k.charged.current else []) at hf
    split at hf
    · rcases List.mem_append.mp hf with hf | hf
      · obtain rfl := List.mem_singleton.mp hf
        rw [hsame.loadAvg, hsame.ready, hsame.current, hsame.idle]
        exact (h.load.calculateLoadAvg (hactive.load_size hfew)).1
      · refine doRecalculateFormulas_exact ?_ (h.calculateLoadAvg hactive hfew) ?_ f hf
        · exact hsame.all ▸ hactive.all_nodup
        · intro t ht hidle
          exact (h.charged (hsame.all ▸ ht) (hsame.idle ▸ hidle)).mono hlt
    · split at hf
      · unfold calculatePriorityFormulas at hf
        split at hf
        · cases hf
        · rename_i hidle
          obtain rfl := List.mem_singleton.mp hf
          rw [hsame.current] at hidle ⊢
          rw [hsame.idle] at hidle
          exact (h.charged hcurrent hidle).calculatePriority hlt
      · cases hf

/-- **What an event computes is exact.** -/
theorem Bounded.formulas_exact (h : k.Bounded) (hactive : k.Active) (hfew : k.Few) :
    ∀ f ∈ k.formulas e, f.Exact 32 := by
  unfold formulas
  split
  · rename_i nice _
    intro f hf
    unfold calculatePriorityFormulas at hf
    split at hf
    · cases hf
    · rename_i hidle
      obtain rfl := List.mem_singleton.mp hf
      have hcurrent : k.current ∈ k.allList := by
        rw [hactive.all_mem, hactive.running]
        exact nofun
      rw [updateCurrent_threads, Function.update_self]
      exact ((h.threads _ hcurrent hidle).setNice nice).calculatePriority
        (Nat.mod_lt _ (by decide)).le
  · exact nofun
  · split
    · exact h.mlfqsTickFormulas_exact hactive hfew
    · exact nofun

end Kernel

/-- A step of the kernel that leaves at most 64 threads besides the idle thread. -/
def FewStep (k : Kernel) (e : Event) (k' : Kernel) : Prop := KernelStep k e k' ∧ k'.Few

/-! ## A thread that is alone -/

/-- A value of `recent_cpu` after a number of ticks. -/
def chargedTicks (n : ℕ) (cpu : FixedPoint) : FixedPoint := ⟨int32 (cpu.f + n * fixF)⟩

theorem fixAdd_chargedTicks (n : ℕ) (cpu : FixedPoint) :
    fixAdd (chargedTicks n cpu) (fixInt 1) = chargedTicks (n + 1) cpu := by
  unfold fixAdd chargedTicks fixInt
  have hone : int32 (1 * fixF) = fixF := by decide
  rw [hone]
  unfold int32
  rw [Int.bmod_add_bmod]
  push_cast
  ring_nf

theorem chargedTicks_zero (x y : FixedPoint) : chargedTicks 0 (fixAdd x y) = fixAdd x y := by
  unfold chargedTicks fixAdd int32
  rw [Nat.cast_zero, zero_mul, add_zero, Int.bmod_bmod]

/-- The load and the `recent_cpu` at the full seconds, of a thread with the
`nice` value 20 that nobody competes with. -/
def loneAccount : ℕ → FixedPoint × FixedPoint
  | 0 => (fixInt 0, fixInt 0)
  | n + 1 =>
    let (load, cpu) := loneAccount n
    let load := fixAdd (fixMul (fixFrac 59 60) load) (fixFrac 1 60)
    (load, Kernel.calculatedRecentCpu load
      { Kernel.newThread priDefault with nice := 20, recentCpu := chargedTicks timerFreq cpu })

/-- **The main thread is alone** with its `nice` value 20 after a number of ticks. -/
structure Kernel.Alone (k : Kernel) (n : ℕ) : Prop where
  mlfqs : k.mlfqs = true
  current : k.current = 0
  idle : k.idleThread = 1
  ready : k.readyList = []
  all : k.allList = [0, 1]
  sleepers : k.threadsToWakeup = []
  ticks : k.ticks = n
  pending : (k.threads 0).pending = []
  nice : (k.threads 0).nice = 20
  load : k.loadAvg = (loneAccount (n / timerFreq)).1
  cpu : (k.threads 0).recentCpu = chargedTicks (n % timerFreq) (loneAccount (n / timerFreq)).2

namespace Kernel

variable {k : Kernel} {n : ℕ}

theorem Alone.charged (h : k.Alone n) : k.charged.threads 0 = { k.threads 0 with
      recentCpu := chargedTicks (n % timerFreq + 1) (loneAccount (n / timerFreq)).2 } := by
  rw [threads_charged, h.current, h.idle, if_pos ⟨rfl, by decide⟩, h.cpu, fixAdd_chargedTicks]

/-- The load when nobody else is ready. -/
theorem Alone.calculateLoadAvg (h : k.Alone n) : k.charged.calculateLoadAvg.loadAvg
      = fixAdd (fixMul (fixFrac 59 60) (loneAccount (n / timerFreq)).1) (fixFrac 1 60) := by
  have hsame := onlyThreads_charged k
  unfold Kernel.calculateLoadAvg
  rw [hsame.loadAvg, hsame.ready, hsame.current, hsame.idle]
  show fixAdd (fixMul _ k.loadAvg) (fixFrac ((k.readyList.length
    + if k.current ≠ k.idleThread then 1 else 0 : ℕ) : ℤ) 60) = _
  rw [h.load, h.ready, h.current, h.idle]
  rfl

/-- **A tick of the thread that is alone.** -/
theorem Alone.ticked (h : k.Alone n) : k.ticked.Alone (n + 1) := by
  have hnodup : k.allList.Nodup := h.all ▸ (by decide : [0, 1].Nodup)
  have hsame := onlyThreads_ticked hnodup
  have hrest (hthread : (k.ticked.threads 0).pending = [] ∧ (k.ticked.threads 0).nice = 20)
      (hload : k.ticked.loadAvg = (loneAccount ((n + 1) / timerFreq)).1)
      (hcpu : (k.ticked.threads 0).recentCpu
        = chargedTicks ((n + 1) % timerFreq) (loneAccount ((n + 1) / timerFreq)).2) :
      k.ticked.Alone (n + 1) :=
    ⟨hsame.mlfqs.trans h.mlfqs, hsame.current.trans h.current, hsame.idle.trans h.idle,
      hsame.ready.trans h.ready, hsame.all.trans h.all, hsame.sleepers.trans h.sleepers,
      hsame.ticks.trans (congrArg (· + 1) h.ticks), hthread.1, hthread.2, hload, hcpu⟩
  by_cases hsecond : (n + 1) % timerFreq = 0
  · have hfull : n % timerFreq + 1 = timerFreq := by
      unfold timerFreq at *
      omega
    have hnext : (n + 1) / timerFreq = n / timerFreq + 1 := by
      unfold timerFreq at *
      omega
    obtain ⟨hload, hthreads⟩ := ticked_second hnodup (h.ticks ▸ hsecond)
    have hmain : k.ticked.threads 0
        = recalculatedThread k.charged.calculateLoadAvg.loadAvg (k.charged.threads 0) := by
      rw [hthreads 0, if_pos ⟨h.all ▸ List.mem_cons_self, h.idle ▸ (by decide)⟩]
    rw [h.charged, h.calculateLoadAvg, hfull] at hmain
    refine hrest ?_ ?_ ?_
    · rw [hmain]
      exact ⟨h.pending, h.nice⟩
    · rw [hload.loadAvg, h.calculateLoadAvg, hnext]
      rfl
    · rw [hmain, hsecond, hnext]
      show calculatedRecentCpu _ { k.threads 0 with recentCpu := _ } = _
      unfold calculatedRecentCpu
      dsimp only
      rw [h.nice]
      exact (chargedTicks_zero _ _).symm
  · have hnext : (n + 1) / timerFreq = n / timerFreq := by
      unfold timerFreq at *
      omega
    have hcount : (n + 1) % timerFreq = n % timerFreq + 1 := by
      unfold timerFreq at *
      omega
    obtain ⟨hload, hthreads⟩ := ticked_between (k := k) (h.ticks ▸ hsecond)
    obtain ⟨p, hmain⟩ := hthreads 0
    rw [h.charged] at hmain
    refine hrest ?_ ?_ ?_
    · rw [hmain]
      exact ⟨h.pending, h.nice⟩
    · rw [hload, h.load, hnext]
    · rw [hmain, hcount, hnext]

/-- At the end of its time slice the thread that is alone is chosen again. -/
theorem Alone.threadYield (h : k.Alone n) : k.threadYield.finish.Alone n := by
  have hcurrent : k.current ≠ k.idleThread := by
    rw [h.current, h.idle]
    decide
  have hready : (k.makeReady k.current).readyList = [k.current] := by
    show KernelList.listInsertOrdered k.comparePriority k.current k.readyList = [k.current]
    rw [h.ready]
    rfl
  have hchosen : (k.makeReady k.current).schedule.current = 0 := by
    show (k.makeReady k.current).readyList.headD _ = 0
    rw [hready, h.current]
    rfl
  have hthread : (((k.makeReady k.current).schedule.threads 0).pending,
        ((k.makeReady k.current).schedule.threads 0).account)
      = ((k.threads 0).pending, (k.threads 0).account) := by
    unfold Kernel.schedule
    refine (proj_updateCurrent (fun th => (th.pending, th.account)) rfl 0).trans ?_
    exact proj_update (f := fun th => { th with status := .ready })
      (fun th => (th.pending, th.account)) rfl 0
  obtain ⟨hpending, haccount⟩ := Prod.mk.inj hthread
  unfold Kernel.threadYield
  rw [if_pos hcurrent]
  show (k.makeReady k.current).schedule.Alone n
  refine ⟨h.mlfqs, hchosen, h.idle, ?_, h.all, h.sleepers, h.ticks, ?_, ?_, h.load, ?_⟩
  · show (k.makeReady k.current).readyList.tail = []
    rw [hready]
    rfl
  · exact hpending.trans h.pending
  · exact (congrArg (fun a => a.2.1) haccount).trans h.nice
  · exact (congrArg (fun a => a.2.2) haccount).trans h.cpu

/-- **The timer interrupts the thread that is alone**, and it goes on. -/
theorem Alone.next (h : k.Alone n) : ∃ k', k.next .timerInterrupt = some k' ∧ k'.Alone (n + 1) := by
  have hon : k.interruptsOn = true := by
    unfold interruptsOn
    rw [h.current, h.pending]
  have hticked := h.ticked
  have hwake : wakeThreads k.ticked.threadsToWakeup k.ticked = some k.ticked := by
    rw [hticked.sleepers]
    unfold wakeThreads
    rw [← hticked.sleepers]
  have hhandle : k.handle .timerInterrupt
      = some (if k.threadTicks + 1 ≥ timeSlice then k.ticked.threadYield else .stay k.ticked) := by
    unfold handle
    rw [if_pos hon]
    unfold timerInterrupt
    dsimp only
    rw [if_pos h.mlfqs]
    show (wakeThreads k.ticked.threadsToWakeup k.ticked).bind _ = _
    rw [hwake]
    rfl
  unfold Kernel.next
  rw [if_neg (fun hexit => by cases hexit), hhandle]
  refine ⟨_, rfl, ?_⟩
  split
  · exact hticked.threadYield
  · exact hticked

/-- The events of the thread that is alone: it sets its `nice` value, and the
timer interrupts. -/
def loneEvents (n : ℕ) : List Event :=
  .call (.threadSetNice 20) :: List.replicate n .timerInterrupt

/-- **The run of the thread that is alone**, as a run of any steps that its steps are. -/
theorem alone_run {R : Kernel → Event → Kernel → Prop}
    (hcall : ∀ k : Kernel, KernelStep (boot true fun _ => 0) (.call (.threadSetNice 20)) k →
      k.Alone 0 → R (boot true fun _ => 0) (.call (.threadSetNice 20)) k)
    (htick : ∀ (n : ℕ) (k k' : Kernel), k.Alone n → k'.Alone (n + 1) →
      KernelStep k .timerInterrupt k' → R k .timerInterrupt k') (n : ℕ) :
    ∃ k : Kernel, Transition.Run R (boot true fun _ => 0) (loneEvents n) k ∧ k.Alone n := by
  induction n with
  | zero =>
    have hnext : (boot true fun _ => 0).next (.call (.threadSetNice 20))
        = some ((boot true fun _ => 0).niceSet 20) := by
      rfl
    have halone : ((boot true fun _ => 0).niceSet 20).Alone 0 :=
      ⟨rfl, rfl, rfl, rfl, rfl, rfl, rfl, rfl, rfl, rfl, rfl⟩
    exact ⟨_, Transition.Run.nil.snoc (hcall _ (kernelStep_of_next hnext) halone), halone⟩
  | succ n ih =>
    obtain ⟨k, hrun, halone⟩ := ih
    obtain ⟨k', hnext, halone'⟩ := halone.next
    refine ⟨k', ?_, halone'⟩
    have hrun' := hrun.snoc (htick n k k' halone halone' (kernelStep_of_next hnext))
    unfold loneEvents at hrun' ⊢
    rwa [List.cons_append, ← List.replicate_succ'] at hrun'

theorem Alone.few (h : k.Alone n) : k.Few := by
  unfold Few
  rw [h.all]
  decide

theorem alone_fewRun (n : ℕ) :
    ∃ k : Kernel, Transition.Run FewStep (boot true fun _ => 0) (loneEvents n) k ∧ k.Alone n :=
  alone_run (fun _ hstep halone => ⟨hstep, halone.few⟩)
    (fun _ _ _ _ halone hstep => ⟨hstep, halone.few⟩) n

end Kernel

/-! ## Results -/

/-- **No computation of the scheduler wraps** in any run with at most 64 threads
besides the idle thread, whatever happens next; and of the two functions that
report a value, `thread_get_load_avg` is exact, and `thread_get_recent_cpu` if
and only if the `recent_cpu` of the running thread is within 327.67 of zero. -/
theorem mlfqs_exact (values : ℕ → ℕ) {events : List Event} {k : Kernel}
    (hrun : Transition.Run FewStep (boot true values) events k) :
    (∀ e, ∀ f ∈ k.formulas e, f.Exact 32)
      ∧ (Formula.hundredfold k.loadAvg).Exact 32
      ∧ ((Formula.hundredfold (k.threads k.current).recentCpu).Exact 32
        ↔ -21474836 ≤ (k.threads k.current).recentCpu.f
          ∧ (k.threads k.current).recentCpu.f ≤ 21474508) := by
  obtain ⟨hactive, hbounded, hfew⟩ : k.Active ∧ k.Bounded ∧ k.Few := hrun.invariant
    (I := fun _ k => k.Active ∧ k.Bounded ∧ k.Few)
    ⟨boot_active true values, boot_bounded values, (show 2 ≤ 65 by decide)⟩
    fun _ k e k' h hstep =>
      ⟨hstep.1.active h.1, hstep.1.bounded h.2.1 h.1 h.2.2, hstep.2⟩
  exact ⟨fun e => hbounded.formulas_exact hactive hfew, hbounded.load.hundredfold,
    hundredfold_exact_iff _⟩

/-- After four ticks the thread that is alone is told its `recent_cpu`. -/
theorem mlfqs_exact_lone :
    ∃ k : Kernel, Transition.Run FewStep (boot true fun _ => 0) (Kernel.loneEvents 4) k
      ∧ (∀ e, ∀ f ∈ k.formulas e, f.Exact 32)
      ∧ (Formula.hundredfold (k.threads k.current).recentCpu).Exact 32
      ∧ k.threadGetRecentCpu = 400 := by
  obtain ⟨k, hrun, halone⟩ := Kernel.alone_fewRun 4
  have hcpu : (k.threads k.current).recentCpu = ⟨262144⟩ := by
    rw [halone.current, halone.cpu]
    decide
  obtain ⟨hformulas, -, hcall⟩ := mlfqs_exact _ hrun
  refine ⟨k, hrun, hformulas, hcall.mpr ?_, ?_⟩
  · rw [hcpu]
    decide
  · unfold Kernel.threadGetRecentCpu
    rw [hcpu]
    decide

/-- **The call that wraps**: after 12499 ticks the `recent_cpu` of the thread that
is alone is 327.98, and `thread_get_recent_cpu` returns -32737 for 32798. -/
theorem threadGetRecentCpu_wraps :
    ∃ k : Kernel, Transition.Run FewStep (boot true fun _ => 0) (Kernel.loneEvents 12499) k
      ∧ (k.threads k.current).recentCpu = ⟨21494770⟩
      ∧ k.threadGetRecentCpu = -32737
      ∧ (Formula.hundredfold (k.threads k.current).recentCpu).exact = 32798 := by
  obtain ⟨k, hrun, halone⟩ := Kernel.alone_fewRun 12499
  have hcpu : (k.threads k.current).recentCpu = ⟨21494770⟩ := by
    rw [halone.current, halone.cpu]
    decide +kernel
  refine ⟨k, hrun, hcpu, ?_, ?_⟩
  · unfold Kernel.threadGetRecentCpu
    rw [hcpu]
    decide
  · rw [hcpu]
    decide

end Pintos
