import Cs162.MlfqsExact

/-!
# The load average

Once a second `calculate_load_avg` moves the load average a sixtieth of the
way towards the number of threads that are ready or running, in fixed-point
arithmetic that truncates. The two fractions of the formula are rounded down,
so the average never rises above the greatest number of threads it has seen
(`loadAvg_bounded`), and the coefficient by which `calculate_recent_cpu`
multiplies is at least zero and less than one. What is counted is the length
of the ready list; the idle thread never gets on that list.
-/

namespace Pintos

open Transition (Run)

/-! ## The idle thread and the ready list -/

namespace Kernel

variable {k k' k'' : Kernel} {t : ThreadId} {s : SemaRef} {l : LockId} {sw : Switch} {e : Event}

/-- **The idle thread does not enter the ready list.** -/
structure IdleOff (k k' : Kernel) : Prop where
  idle : k'.idleThread = k.idleThread
  off : k.idleThread ∉ k.readyList → k.idleThread ∉ k'.readyList

theorem IdleOff.of_ready (hidle : k'.idleThread = k.idleThread)
    (hready : k'.readyList = k.readyList) : IdleOff k k' :=
  ⟨hidle, fun hoff => hready ▸ hoff⟩

theorem IdleOff.refl (k : Kernel) : IdleOff k k := .of_ready rfl rfl

theorem IdleOff.trans (h : IdleOff k k') (h' : IdleOff k' k'') : IdleOff k k'' where
  idle := h'.idle.trans h.idle
  off hoff := h.idle ▸ h'.off (h.idle.symm ▸ h.off hoff)

theorem OnlyThreads.idleOff (h : OnlyThreads k k') : IdleOff k k' := .of_ready h.idle h.ready

theorem idleOff_makeReady (ht : t ≠ k.idleThread) : IdleOff k (k.makeReady t) where
  idle := rfl
  off hoff hmem := (KernelList.mem_listInsertOrdered.mp hmem).elim (fun heq => ht heq.symm) hoff

theorem idleOff_threadUnblock (ht : t ≠ k.idleThread) (h : k.threadUnblock t = some k') :
    IdleOff k k' :=
  (threadUnblock_eq_some h).2 ▸ idleOff_makeReady ht

theorem idleOff_threadYield (k : Kernel) : IdleOff k k.threadYield.state := by
  unfold threadYield
  split
  · rename_i hne
    exact idleOff_makeReady hne
  · exact .of_ready rfl rfl

theorem idleOff_checkPriorityOrder (k : Kernel) : IdleOff k k.checkPriorityOrder.state :=
  checkPriorityOrder_cases k (.refl k) (idleOff_threadYield k)

/-- The idle thread waits for no semaphore. -/
theorem Parked.waiter_ne_idle (h : k.Parked) (ht : t ∈ k.waiters s) : t ≠ k.idleThread := by
  rintro rfl
  have hloop := h.idle _ (List.mem_of_mem_head? (h.waiting s _ ht).2)
  cases s <;> cases hloop

theorem idleOff_semaWake (hwaiters : ∀ t ∈ k.waiters s, t ≠ k.idleThread)
    (h : k.semaWake s = some k') : IdleOff k k' := by
  have hperm := KernelList.perm_listSort k.comparePriority (k.waiters s)
  unfold semaWake at h
  obtain ⟨k₁, hk₁, rfl⟩ := Option.map_eq_some_iff.mp h
  refine IdleOff.trans (?_ : IdleOff k k₁) (.of_ready rfl rfl)
  split at hk₁
  · exact Option.some.inj hk₁ ▸ .refl k
  · rename_i t rest hsort
    rw [hsort] at hperm
    have hne := hwaiters t (hperm.subset List.mem_cons_self)
    refine IdleOff.trans ?_ (idleOff_threadUnblock ?_ hk₁)
    · exact .of_ready rfl rfl
    · exact hne

theorem idleOff_semaUp (hwaiters : ∀ t ∈ k.waiters s, t ≠ k.idleThread)
    (h : k.semaUp s = some sw) : IdleOff k sw.state := by
  obtain ⟨k₁, hk₁, rfl⟩ := Option.map_eq_some_iff.mp h
  exact (idleOff_semaWake hwaiters hk₁).trans (idleOff_checkPriorityOrder k₁)

theorem idleOff_lockRelease (hmlfqs : k.mlfqs = true)
    (hwaiters : ∀ t ∈ k.waiters (.ofLock l), t ≠ k.idleThread)
    (h : k.lockRelease l = some sw) : IdleOff k sw.state := by
  unfold lockRelease at h
  split at h
  · dsimp only at h
    have hdrop : IdleOff k (k.dropHolder l) := .of_ready rfl rfl
    exact hdrop.trans (idleOff_semaUp hwaiters h)
  · cases h

theorem idleOff_semaWait {next : Action} (hmlfqs : k.mlfqs = true) (s : SemaRef) :
    IdleOff k (k.semaWait s next).state := by
  unfold semaWait
  rw [if_pos hmlfqs]
  exact .of_ready rfl rfl

theorem idleOff_lockWait (hmlfqs : k.mlfqs = true) (l : LockId) :
    IdleOff k (k.lockWait l).state := by
  unfold lockWait
  split
  · exact idleOff_semaWait hmlfqs _
  · exact .of_ready rfl rfl

theorem idleOff_lockAcquire (hmlfqs : k.mlfqs = true) (h : k.lockAcquire l = some sw) :
    IdleOff k sw.state := by
  obtain ⟨-, rfl⟩ := lockAcquire_eq_some h
  rw [joinDonors_of_mlfqs hmlfqs]
  exact idleOff_lockWait hmlfqs l

theorem idleOff_wakeThreads {list : List ThreadId} (hlist : ∀ t ∈ list, t ≠ k.idleThread)
    (h : wakeThreads list k = some k') : IdleOff k k' := by
  induction list generalizing k with
  | nil => exact Option.some.inj h ▸ .of_ready rfl rfl
  | cons t list ih =>
    rw [wakeThreads] at h
    split at h
    · exact Option.some.inj h ▸ .of_ready rfl rfl
    · obtain ⟨k₁, hk₁, h⟩ := Option.bind_eq_some_iff.mp h
      have hunblocked := idleOff_threadUnblock (hlist t List.mem_cons_self) hk₁
      refine hunblocked.trans (ih (fun u hu => ?_) h)
      rw [hunblocked.idle]
      exact hlist u (List.mem_cons_of_mem t hu)

theorem idleOff_timerInterrupt (hmlfqs : k.mlfqs = true) (hnodup : k.allList.Nodup)
    (hawake : k.idleThread ∉ k.threadsToWakeup) (h : k.timerInterrupt = some sw) :
    IdleOff k sw.state := by
  unfold timerInterrupt at h
  obtain ⟨k₂, hk₂, h⟩ := Option.bind_eq_some_iff.mp h
  rw [if_pos hmlfqs] at hk₂
  have hsame := onlyThreads_ticked hnodup
  have hticked : IdleOff k k.ticked := .of_ready hsame.idle hsame.ready
  have hwoken : IdleOff k k₂ := by
    refine hticked.trans (idleOff_wakeThreads (fun t ht => ?_) hk₂)
    rintro rfl
    have ht : k.ticked.idleThread ∈ k.ticked.threadsToWakeup := ht
    rw [hsame.idle, hsame.sleepers] at ht
    exact hawake ht
  obtain rfl := Option.some.inj h
  split
  · exact hwoken.trans (idleOff_threadYield k₂)
  · exact hwoken

/-- **No event puts the idle thread on the ready list.** -/
theorem Parked.idleOff (h : k.Parked) (hactive : k.Active) (hmlfqs : k.mlfqs = true)
    (hsw : k.handle e = some sw) : IdleOff k sw.state := by
  rcases handle_eq_some hsw with ⟨a, -, hfrom, hsw⟩ | ⟨-, hsw⟩ | ⟨n, k', -, hk', rfl⟩
  · set k₁ := k.goOn (k.threads k.current).pending.tail
    have hgo : IdleOff k k₁ := .of_ready rfl rfl
    have hmlfqs₁ : k₁.mlfqs = true := hmlfqs
    have hwaiters (s : SemaRef) : ∀ t ∈ k₁.waiters s, t ≠ k₁.idleThread :=
      fun t ht => h.waiter_ne_idle ht
    refine hgo.trans ?_
    cases a with
    | lockAcquire l => exact idleOff_lockAcquire hmlfqs₁ hsw
    | lockWait l => exact Option.some.inj hsw ▸ idleOff_lockWait hmlfqs₁ l
    | lockTryAcquire l =>
      obtain ⟨-, rfl⟩ | ⟨-, rfl⟩ := lockTryAcquire_eq_some hsw
      · exact .of_ready rfl rfl
      · exact .refl k₁
    | lockRelease l => exact idleOff_lockRelease hmlfqs₁ (hwaiters _) hsw
    | semaDown n =>
      obtain rfl := Option.some.inj hsw
      unfold semaDown
      split
      · exact idleOff_semaWait hmlfqs₁ _
      · exact .of_ready rfl rfl
    | semaTryDown n =>
      exact Option.some.inj hsw ▸ semaTryDown_cases _ n (.refl k₁) (.of_ready rfl rfl)
    | semaUp n => exact idleOff_semaUp (hwaiters _) hsw
    | threadCreate priority =>
      obtain ⟨-, rfl⟩ := threadCreate_eq_some hsw
      exact .of_ready rfl rfl
    | startThread t =>
      have hne : t ≠ k₁.idleThread := by
        rintro rfl
        have hhead := hfrom.resolve_right (by simp [mayCall])
        exact h.idle_started _ (List.mem_of_mem_head? hhead)
      obtain ⟨k₂, hk₂, rfl⟩ := Option.map_eq_some_iff.mp hsw
      exact (idleOff_threadUnblock hne hk₂).trans (idleOff_checkPriorityOrder k₂)
    | threadYield => exact Option.some.inj hsw ▸ idleOff_threadYield k₁
    | threadSetPriority priority =>
      obtain rfl := Option.some.inj hsw
      unfold Kernel.threadSetPriority
      rw [if_pos hmlfqs₁]
      exact .refl k₁
    | threadSetNice nice =>
      cases hsw
      exact (onlyThreads_niceSet k₁ nice).idleOff.trans (idleOff_checkPriorityOrder _)
    | threadBlock => exact Option.some.inj hsw ▸ .of_ready rfl rfl
    | unblocked => exact Option.some.inj hsw ▸ .refl k₁
    | threadUnblock t =>
      obtain ⟨-, hcall⟩ := hfrom.resolve_left fun hhead => (h.in_order _).follows hhead
      obtain ⟨k₂, hk₂, rfl⟩ := Option.map_eq_some_iff.mp hsw
      exact idleOff_threadUnblock (of_decide_eq_true hcall).2.2.2 hk₂
    | threadExit =>
      obtain rfl := Option.some.inj hsw
      unfold Kernel.threadExit
      split
      · exact .of_ready rfl rfl
      · exact .of_ready rfl rfl
    | timerSleep ticks =>
      exact Option.some.inj hsw ▸ timerSleep_cases _ ticks (.refl k₁) (.of_ready rfl rfl)
    | sleepStart wakeupTick =>
      refine IdleOff.trans ?_ (idleOff_lockAcquire ?_ hsw)
      · exact .of_ready rfl rfl
      · exact hmlfqs₁
    | sleepEnqueue wakeupTick =>
      refine IdleOff.trans ?_ (idleOff_lockRelease ?_ ?_ hsw)
      · exact .of_ready rfl rfl
      · exact hmlfqs₁
      · exact hwaiters _
  · exact idleOff_timerInterrupt hmlfqs hactive.all_nodup h.idle_awake hsw
  · exact idleOff_semaWake (fun t ht => h.waiter_ne_idle ht) hk'

/-! ## The number of threads that want the processor -/

/-- The threads, other than the idle thread, that are ready or running. -/
def runnable (k : Kernel) : List ThreadId :=
  k.allList.filter fun t =>
    t ≠ k.idleThread ∧ (k.status t = .ready ∨ k.status t = .running)

/-- **What `calculate_load_avg` counts** are such threads. -/
theorem Active.load_size_le (h : k.Active) (hoff : k.idleThread ∉ k.readyList) :
    k.readyList.length + (if k.current ≠ k.idleThread then 1 else 0) ≤ k.runnable.length := by
  have hready : k.readyList ⊆ k.runnable := by
    intro t ht
    have hstatus := h.ready_status t ht
    refine List.mem_filter.mpr ⟨(h.all_mem t).mpr ?_, decide_eq_true ⟨?_, .inl hstatus⟩⟩
    · rw [hstatus]
      exact nofun
    · rintro rfl
      exact hoff ht
  split
  · rename_i hne
    have hcurrent : k.current ∈ k.runnable := by
      refine List.mem_filter.mpr ⟨(h.all_mem _).mpr ?_, decide_eq_true ⟨hne, .inr h.running⟩⟩
      rw [h.running]
      exact nofun
    have hnodup : (k.current :: k.readyList).Nodup :=
      List.nodup_cons.mpr ⟨h.current_not_ready, h.ready_nodup⟩
    exact (hnodup.subperm (List.cons_subset.mpr ⟨hcurrent, hready⟩)).length_le
  · exact (h.ready_nodup.subperm hready).length_le

theorem Alone.runnable_le {n : ℕ} (h : k.Alone n) : k.runnable.length ≤ 1 := by
  unfold runnable
  rw [h.all, h.idle, List.filter_cons, List.filter_cons_of_neg (by simp)]
  split <;> simp

/-! ## The bound -/

/-- **What the bound of the load relies on.** -/
structure LoadInv (N : ℕ) (k : Kernel) : Prop where
  active : k.Active
  parked : k.Parked
  mlfqs : k.mlfqs = true
  idle_off : k.idleThread ∉ k.readyList
  nonneg : 0 ≤ k.loadAvg.f
  le : k.loadAvg.f ≤ N * fixF

theorem LoadInv.ticked {N : ℕ} (h : LoadInv N k) (hN : N ≤ 16383)
    (hfew : (k.ticks + 1) % timerFreq = 0 → k.runnable.length ≤ N) :
    0 ≤ k.ticked.loadAvg.f ∧ k.ticked.loadAvg.f ≤ N * fixF := by
  by_cases hsecond : (k.ticks + 1) % timerFreq = 0
  · have hcharged := onlyThreads_charged k
    have hsize := (h.active.load_size_le h.idle_off).trans (hfew hsecond)
    rw [(ticked_second h.active.all_nodup hsecond).1.loadAvg]
    unfold Kernel.calculateLoadAvg
    rw [hcharged.loadAvg, hcharged.ready, hcharged.current, hcharged.idle]
    exact (calculateLoadAvg_bounds hN h.nonneg h.le hsize).2
  · rw [(ticked_between hsecond).1]
    exact ⟨h.nonneg, h.le⟩

theorem LoadInv.accounted {N : ℕ} (h : LoadInv N k) (hN : N ≤ 16383)
    (hfew : e = .timerInterrupt → (k.ticks + 1) % timerFreq = 0 → k.runnable.length ≤ N) :
    0 ≤ (k.accounted e).loadAvg.f ∧ (k.accounted e).loadAvg.f ≤ N * fixF := by
  unfold Kernel.accounted
  split
  · rw [(onlyThreads_niceSet k _).loadAvg]
    exact ⟨h.nonneg, h.le⟩
  · exact ⟨h.nonneg, h.le⟩
  · exact ⟨h.nonneg, h.le⟩
  · split
    · rename_i htimer
      exact h.ticked hN (hfew htimer)
    · exact ⟨h.nonneg, h.le⟩

end Kernel

/-- **A step with at most `N` threads that want the processor**, where it is a once-per-second
update of the load. -/
def LoadStep (N : ℕ) (k : Kernel) (e : Event) (k' : Kernel) : Prop :=
  KernelStep k e k'
    ∧ (e = .timerInterrupt → (k.ticks + 1) % timerFreq = 0 → k.runnable.length ≤ N)

/-- **The step lemma.** -/
theorem Kernel.LoadInv.step {N : ℕ} {k k' : Kernel} {e : Event} (h : LoadInv N k) (hN : N ≤ 16383)
    (hstep : LoadStep N k e k') : LoadInv N k' := by
  obtain ⟨hstep, hfew⟩ := hstep
  have hactive := hstep.active h.active
  have hparked := hstep.parked h.parked h.active
  have hmlfqs := hstep.mlfqs h.active h.mlfqs
  obtain ⟨sw, hsw, rfl⟩ := Option.map_eq_some_iff.mp hstep.2
  have hload := h.accounted hN hfew
  rw [← (handle_accounts h.mlfqs hsw).loadAvg] at hload
  have hidle := h.parked.idleOff h.active h.mlfqs hsw
  have hoff : sw.state.idleThread ∉ sw.state.readyList := hidle.idle ▸ hidle.off h.idle_off
  cases sw with
  | stay k₁ => exact ⟨hactive, hparked, hmlfqs, hoff, hload.1, hload.2⟩
  | schedule k₁ =>
    exact ⟨hactive, hparked, hmlfqs, fun hmem => hoff (List.mem_of_mem_tail hmem), hload.1,
      hload.2⟩

theorem boot_loadInv (N : ℕ) (values : ℕ → ℕ) : (boot true values).LoadInv N where
  active := boot_active true values
  parked := boot_parked true values
  mlfqs := rfl
  idle_off := List.not_mem_nil
  nonneg := le_rfl
  le := Int.mul_nonneg (Int.natCast_nonneg N) (by decide)

/-! ## The coefficient of `calculate_recent_cpu` -/

/-- `load_num`, twice the load. -/
def loadNum (loadAvg : FixedPoint) : FixedPoint := fixScale loadAvg 2

/-- `load_den`, twice the load and one. -/
def loadDen (loadAvg : FixedPoint) : FixedPoint := fixAdd (loadNum loadAvg) (fixInt 1)

/-- `load_frac`, the coefficient. -/
def loadFrac (loadAvg : FixedPoint) : FixedPoint := fixDiv (loadNum loadAvg) (loadDen loadAvg)

/-- **The coefficient is in [0, 1)** for a load of at most 16383, and its denominator is
positive. -/
theorem loadFrac_bounds {loadAvg : FixedPoint} (hge : 0 ≤ loadAvg.f)
    (hle : loadAvg.f ≤ 16383 * fixF) :
    (loadDen loadAvg).f = 2 * loadAvg.f + fixF ∧ 0 < (loadDen loadAvg).f
      ∧ 0 ≤ (loadFrac loadAvg).f ∧ (loadFrac loadAvg).f < fixF := by
  have hfits {n : ℤ} (hn : 0 ≤ n) (hn' : n ≤ 2147483647) : int32 n = n := by
    refine (IntExpr.bmod_eq_self_iff (by decide) n).mpr ((inRange_int32 n).mpr ?_)
    omega
  have hnum : (loadNum loadAvg).f = 2 * loadAvg.f := by
    show int32 (loadAvg.f * 2) = 2 * loadAvg.f
    rw [mul_comm]
    unfold fixF at hle
    exact hfits (by omega) (by omega)
  have hden : (loadDen loadAvg).f = 2 * loadAvg.f + fixF := by
    show int32 ((loadNum loadAvg).f + int32 (1 * fixF)) = _
    rw [hnum, one_mul, show int32 fixF = fixF from rfl]
    unfold fixF at *
    exact hfits (by omega) (by omega)
  have hfrac : 0 ≤ (2 * loadAvg.f * fixF).tdiv (2 * loadAvg.f + fixF) := by
    unfold fixF
    exact Int.tdiv_nonneg (by omega) (by omega)
  have hfrac' : (2 * loadAvg.f * fixF).tdiv (2 * loadAvg.f + fixF) ≤ fixF - 1 := by
    unfold fixF at *
    exact IntExpr.tdiv_le (by omega) (by omega)
  have hquot : (loadFrac loadAvg).f = (2 * loadAvg.f * fixF).tdiv (2 * loadAvg.f + fixF) := by
    show int32 (((loadNum loadAvg).f * fixF).tdiv (loadDen loadAvg).f) = _
    rw [hnum, hden]
    exact hfits hfrac (hfrac'.trans (by decide))
  refine ⟨hden, ?_, ?_, ?_⟩
  · rw [hden]
    unfold fixF
    omega
  · rw [hquot]
    exact hfrac
  · rw [hquot]
    omega

/-- **The load average is bounded by the load.** In every run of the advanced scheduler in
which at most `N` threads besides the idle thread are ready or running at each once-per-second
update, the load average is between 0 and `N`, and the coefficient 2 · load / (2 · load + 1) is
at least 0 and less than 1, with a denominator that is not zero. -/
theorem loadAvg_bounded {N : ℕ} (hN : N ≤ 16383) {values : ℕ → ℕ} {events : List Event}
    {k : Kernel} (hrun : Run (LoadStep N) (boot true values) events k) :
    0 ≤ k.loadAvg.f ∧ k.loadAvg.f ≤ N * fixF
      ∧ (loadDen k.loadAvg).f = 2 * k.loadAvg.f + fixF ∧ (loadDen k.loadAvg).f ≠ 0
      ∧ 0 ≤ (loadFrac k.loadAvg).f ∧ (loadFrac k.loadAvg).f < fixF := by
  have hinv : k.LoadInv N := hrun.invariant (I := fun _ k => k.LoadInv N) (boot_loadInv N values)
    fun _ _ _ _ h hstep => h.step hN hstep
  have hle : k.loadAvg.f ≤ 16383 * fixF := by
    refine hinv.le.trans ?_
    unfold fixF
    omega
  obtain ⟨hden, hpos, hfrac, hfrac'⟩ := loadFrac_bounds hinv.nonneg hle
  exact ⟨hinv.nonneg, hinv.le, hden, hpos.ne', hfrac, hfrac'⟩

/-- A thread that is alone for a second: the load average is 1092 / 65536. -/
theorem loadAvg_bounded_lone :
    ∃ k, Run (LoadStep 1) (boot true fun _ => 0) (Kernel.loneEvents 100) k
      ∧ k.loadAvg.f = 1092 ∧ k.loadAvg.f ≤ 1 * fixF ∧ (loadFrac k.loadAvg).f < fixF := by
  obtain ⟨k, hrun, halone⟩ := Kernel.alone_run (R := LoadStep 1) (fun k hstep _ => ⟨hstep, nofun⟩)
    (fun n k k' halone _ hstep => ⟨hstep, fun _ _ => halone.runnable_le⟩) 100
  obtain ⟨-, hle, -, -, -, hfrac⟩ := loadAvg_bounded (by decide) hrun
  refine ⟨k, hrun, ?_, hle, hfrac⟩
  rw [halone.load]
  decide

end Pintos
