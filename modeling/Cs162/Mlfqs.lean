import Cs162.Mutex

/-!
# The accounts of the advanced scheduler

With `thread_mlfqs` on, three fields of a thread make up its account: what it
was charged (`recent_cpu`), its `nice` value, and the priority that was last
computed from the two. Little of the kernel touches an account. Donation is
off, so locks and semaphores do not, and neither does moving threads between
the scheduler's lists (`Kernel.Unaccounted`). What is left are the timer,
`thread_set_nice` and the creation of a thread, and `handle_accounts` says
once, for every event, which of these it is.
-/

namespace Pintos

open KernelList

/-- The account of a thread: its priority, its `nice` value and its
`recent_cpu`. -/
def Thread.account (t : Thread) : ℤ × ℤ × FixedPoint := (t.priority, t.nice, t.recentCpu)

namespace Kernel

variable {k k' k'' : Kernel} {t : ThreadId} {f : Thread → Thread} {sw : Switch} {s : SemaRef}
  {l : LockId} {e : Event}

/-- **No account changes**, nor anything that accounts are kept by. -/
structure Unaccounted (k k' : Kernel) : Prop where
  mlfqs : k'.mlfqs = k.mlfqs
  idle : k'.idleThread = k.idleThread
  current : k'.current = k.current
  ticks : k'.ticks = k.ticks
  threadTicks : k'.threadTicks = k.threadTicks
  loadAvg : k'.loadAvg = k.loadAvg
  /-- Threads may leave `all_list`. -/
  all : ∀ t ∈ k'.allList, t ∈ k.allList
  account : ∀ t, (k'.threads t).account = (k.threads t).account

theorem Unaccounted.refl (k : Kernel) : Unaccounted k k :=
  ⟨rfl, rfl, rfl, rfl, rfl, rfl, fun _ h => h, fun _ => rfl⟩

theorem Unaccounted.trans (h : Unaccounted k k') (h' : Unaccounted k' k'') : Unaccounted k k'' where
  mlfqs := h'.mlfqs.trans h.mlfqs
  idle := h'.idle.trans h.idle
  current := h'.current.trans h.current
  ticks := h'.ticks.trans h.ticks
  threadTicks := h'.threadTicks.trans h.threadTicks
  loadAvg := h'.loadAvg.trans h.loadAvg
  all t ht := h.all t (h'.all t ht)
  account t := (h'.account t).trans (h.account t)

/-- A change to a field that is not part of the account. -/
theorem Unaccounted.update (k : Kernel) (t : ThreadId)
    (hf : ∀ th, (f th).account = th.account) : Unaccounted k (k.update t f) :=
  ⟨rfl, rfl, rfl, rfl, rfl, rfl, fun _ h => h, proj_update Thread.account (hf _)⟩

theorem Unaccounted.updateCurrent (k : Kernel) (hf : ∀ th, (f th).account = th.account) :
    Unaccounted k (k.updateCurrent f) :=
  .update k k.current hf

theorem unaccounted_makeReady (k : Kernel) (t : ThreadId) : Unaccounted k (k.makeReady t) := by
  unfold makeReady
  refine Unaccounted.trans ?_ (.update _ t fun _ => rfl)
  exact ⟨rfl, rfl, rfl, rfl, rfl, rfl, fun _ h => h, fun _ => rfl⟩

theorem unaccounted_threadUnblock (h : k.threadUnblock t = some k') : Unaccounted k k' :=
  (threadUnblock_eq_some h).2 ▸ unaccounted_makeReady k t

theorem unaccounted_threadYield (k : Kernel) : Unaccounted k k.threadYield.state := by
  unfold threadYield
  split
  · exact unaccounted_makeReady k k.current
  · exact .updateCurrent k fun _ => rfl

theorem unaccounted_checkPriorityOrder (k : Kernel) : Unaccounted k k.checkPriorityOrder.state :=
  checkPriorityOrder_cases k (.refl k) (unaccounted_threadYield k)

theorem unaccounted_startThread (h : k.startThread t = some sw) : Unaccounted k sw.state := by
  obtain ⟨k', hk', rfl⟩ := Option.map_eq_some_iff.mp h
  exact (unaccounted_threadUnblock hk').trans (unaccounted_checkPriorityOrder k')

theorem unaccounted_threadExit (k : Kernel) : Unaccounted k k.threadExit.state := by
  have hdie : ∀ k : Kernel, Unaccounted k k.die := by
    intro k
    refine Unaccounted.trans ?_ (.updateCurrent _ fun _ => rfl)
    exact ⟨rfl, rfl, rfl, rfl, rfl, rfl, fun _ h => List.mem_of_mem_erase h, fun _ => rfl⟩
  unfold threadExit
  refine Unaccounted.trans ?_ (hdie _)
  split
  · exact ⟨rfl, rfl, rfl, rfl, rfl, rfl, fun _ h => h, fun _ => rfl⟩
  · exact .refl k

/-! ## Locks, semaphores and sleeping -/

/-- A change to the locks, the semaphores or the sleepers. -/
theorem Unaccounted.of_threads (hmlfqs : k'.mlfqs = k.mlfqs) (hidle : k'.idleThread = k.idleThread)
    (hcurrent : k'.current = k.current) (hticks : k'.ticks = k.ticks)
    (hslice : k'.threadTicks = k.threadTicks) (hload : k'.loadAvg = k.loadAvg)
    (hall : k'.allList = k.allList) (hthreads : k'.threads = k.threads) : Unaccounted k k' :=
  ⟨hmlfqs, hidle, hcurrent, hticks, hslice, hload, fun t ht => hall ▸ ht, fun t => by rw [hthreads]⟩

theorem unaccounted_semaWait {next : Action} (hmlfqs : k.mlfqs = true) (s : SemaRef) :
    Unaccounted k (k.semaWait s next).state := by
  unfold semaWait
  rw [if_pos hmlfqs]
  refine Unaccounted.trans ?_ (.updateCurrent _ fun _ => rfl)
  exact .of_threads rfl rfl rfl rfl rfl rfl rfl rfl

theorem unaccounted_semaDown (hmlfqs : k.mlfqs = true) (n : ℕ) :
    Unaccounted k (k.semaDown n).state := by
  unfold semaDown
  split
  · exact unaccounted_semaWait hmlfqs _
  · exact .of_threads rfl rfl rfl rfl rfl rfl rfl rfl

theorem unaccounted_semaTryDown (k : Kernel) (n : ℕ) : Unaccounted k (k.semaTryDown n) :=
  semaTryDown_cases k n (.refl k) (.of_threads rfl rfl rfl rfl rfl rfl rfl rfl)

theorem unaccounted_semaWake (h : k.semaWake s = some k') : Unaccounted k k' := by
  unfold semaWake at h
  obtain ⟨k₁, hk₁, rfl⟩ := Option.map_eq_some_iff.mp h
  have hwoken : Unaccounted k k₁ := by
    split at hk₁
    · exact Option.some.inj hk₁ ▸ .refl k
    · refine Unaccounted.trans ?_ (unaccounted_threadUnblock hk₁)
      exact .of_threads rfl rfl rfl rfl rfl rfl rfl rfl
  exact hwoken.trans (.of_threads rfl rfl rfl rfl rfl rfl rfl rfl)

theorem unaccounted_semaUp (h : k.semaUp s = some sw) : Unaccounted k sw.state := by
  obtain ⟨k', hk', rfl⟩ := Option.map_eq_some_iff.mp h
  exact (unaccounted_semaWake hk').trans (unaccounted_checkPriorityOrder k')

theorem unaccounted_take (k : Kernel) (l : LockId) : Unaccounted k (k.take l) :=
  .of_threads rfl rfl rfl rfl rfl rfl rfl rfl

theorem unaccounted_setWaitLock (k : Kernel) (waitLock : Option LockId) :
    Unaccounted k (k.setWaitLock waitLock) := by
  unfold setWaitLock
  exact .updateCurrent k fun _ => rfl

theorem unaccounted_lockWait (hmlfqs : k.mlfqs = true) (l : LockId) :
    Unaccounted k (k.lockWait l).state := by
  unfold lockWait
  split
  · exact unaccounted_semaWait hmlfqs _
  · exact (unaccounted_take k l).trans (unaccounted_setWaitLock _ none)

theorem joinDonors_of_mlfqs (hmlfqs : k.mlfqs = true) (l : LockId) : k.joinDonors l = k := by
  unfold joinDonors
  split
  · rfl
  · exact if_pos hmlfqs

theorem unaccounted_lockAcquire (hmlfqs : k.mlfqs = true) (h : k.lockAcquire l = some sw) :
    Unaccounted k sw.state := by
  obtain ⟨-, rfl⟩ := lockAcquire_eq_some h
  rw [joinDonors_of_mlfqs hmlfqs]
  exact unaccounted_lockWait hmlfqs l

theorem unaccounted_lockTryAcquire (h : k.lockTryAcquire l = some sw) : Unaccounted k sw.state := by
  obtain ⟨-, rfl⟩ | ⟨-, rfl⟩ := lockTryAcquire_eq_some h
  · exact unaccounted_take k l
  · exact .refl k

theorem unaccounted_lockRelease (hmlfqs : k.mlfqs = true) (h : k.lockRelease l = some sw) :
    Unaccounted k sw.state := by
  unfold lockRelease at h
  split at h
  · dsimp only at h
    refine Unaccounted.trans ?_ (unaccounted_semaUp h)
    exact .of_threads rfl rfl rfl rfl rfl rfl rfl rfl
  · cases h

theorem unaccounted_timerSleep (k : Kernel) (ticks : ℤ) : Unaccounted k (k.timerSleep ticks) :=
  timerSleep_cases k ticks (.refl k) (.updateCurrent k fun _ => rfl)

theorem unaccounted_sleepStart (hmlfqs : k.mlfqs = true) {wakeupTick : ℤ}
    (h : k.sleepStart wakeupTick = some sw) : Unaccounted k sw.state := by
  refine Unaccounted.trans ?_ (unaccounted_lockAcquire (k := k.updateCurrent _) hmlfqs h)
  exact .updateCurrent k fun _ => rfl

theorem unaccounted_sleepEnqueue (hmlfqs : k.mlfqs = true) {wakeupTick : ℤ}
    (h : k.sleepEnqueue wakeupTick = some sw) : Unaccounted k sw.state := by
  unfold sleepEnqueue at h
  dsimp only at h
  refine Unaccounted.trans ?_ (unaccounted_lockRelease (by exact hmlfqs) h)
  refine ⟨rfl, rfl, rfl, rfl, rfl, rfl, fun _ h => h, fun t => ?_⟩
  dsimp only
  exact proj_updateCurrent Thread.account rfl t

theorem unaccounted_wakeThreads {list : List ThreadId} (h : wakeThreads list k = some k') :
    Unaccounted k k' :=
  wakeThreads_rule h (.refl k)
    (fun _ _ h => h.trans (.of_threads rfl rfl rfl rfl rfl rfl rfl rfl))
    fun h hk => h.trans (unaccounted_threadUnblock hk)

/-! ## A tick -/

/-- The record of a thread when its account has been recalculated. -/
def recalculatedThread (loadAvg : FixedPoint) (t : Thread) : Thread :=
  let t := { t with recentCpu := calculatedRecentCpu loadAvg t }
  { t with priority := calculatedPriority t }

/-- **Nothing but the records of threads changes.** -/
structure OnlyThreads (k k' : Kernel) : Prop where
  mlfqs : k'.mlfqs = k.mlfqs
  idle : k'.idleThread = k.idleThread
  current : k'.current = k.current
  ticks : k'.ticks = k.ticks
  threadTicks : k'.threadTicks = k.threadTicks
  loadAvg : k'.loadAvg = k.loadAvg
  all : k'.allList = k.allList
  ready : k'.readyList = k.readyList
  sleepers : k'.threadsToWakeup = k.threadsToWakeup

theorem OnlyThreads.refl (k : Kernel) : OnlyThreads k k :=
  ⟨rfl, rfl, rfl, rfl, rfl, rfl, rfl, rfl, rfl⟩

theorem OnlyThreads.trans (h : OnlyThreads k k') (h' : OnlyThreads k' k'') : OnlyThreads k k'' :=
  ⟨h'.mlfqs.trans h.mlfqs, h'.idle.trans h.idle, h'.current.trans h.current, h'.ticks.trans h.ticks,
    h'.threadTicks.trans h.threadTicks, h'.loadAvg.trans h.loadAvg, h'.all.trans h.all,
    h'.ready.trans h.ready, h'.sleepers.trans h.sleepers⟩

theorem onlyThreads_update (k : Kernel) (t : ThreadId) (f : Thread → Thread) :
    OnlyThreads k (k.update t f) :=
  ⟨rfl, rfl, rfl, rfl, rfl, rfl, rfl, rfl, rfl⟩

theorem onlyThreads_calculatePriority (k : Kernel) (t : ThreadId) :
    OnlyThreads k (k.calculatePriority t) := by
  unfold calculatePriority
  split
  · exact .refl k
  · exact onlyThreads_update k t _

theorem onlyThreads_calculateRecentCpu (k : Kernel) (t : ThreadId) :
    OnlyThreads k (k.calculateRecentCpu t) := by
  unfold calculateRecentCpu
  split
  · exact .refl k
  · exact onlyThreads_update k t _

theorem threads_calculatePriority (k : Kernel) (t u : ThreadId) : (k.calculatePriority t).threads u
      = if u = t ∧ u ≠ k.idleThread then
          { k.threads u with priority := calculatedPriority (k.threads u) }
        else k.threads u := by
  unfold calculatePriority
  by_cases hu : u = t
  · subst hu
    by_cases hidle : u = k.idleThread <;> simp [hidle]
  · by_cases hidle : t = k.idleThread <;> simp [hu, hidle]

theorem threads_calculateRecentCpu (k : Kernel) (t u : ThreadId) :
    (k.calculateRecentCpu t).threads u
      = if u = t ∧ u ≠ k.idleThread then
          { k.threads u with recentCpu := calculatedRecentCpu k.loadAvg (k.threads u) }
        else k.threads u := by
  unfold calculateRecentCpu
  by_cases hu : u = t
  · subst hu
    by_cases hidle : u = k.idleThread <;> simp [hidle]
  · by_cases hidle : t = k.idleThread <;> simp [hu, hidle]

/-- **`do_recalculate` recalculates every account once**, each from the account
itself and the load. -/
theorem threads_doRecalculate {list : List ThreadId} (hnodup : list.Nodup) (k : Kernel) :
    OnlyThreads k (list.foldl (fun k t => (k.calculateRecentCpu t).calculatePriority t) k)
      ∧ ∀ u, (list.foldl (fun k t => (k.calculateRecentCpu t).calculatePriority t) k).threads u
        = if u ∈ list ∧ u ≠ k.idleThread then recalculatedThread k.loadAvg (k.threads u)
          else k.threads u := by
  induction list generalizing k with
  | nil => exact ⟨.refl k, fun u => by simp⟩
  | cons t list ih =>
    obtain ⟨ht, hnodup⟩ := List.nodup_cons.mp hnodup
    have hcpu := onlyThreads_calculateRecentCpu k t
    have hone := hcpu.trans (onlyThreads_calculatePriority (k.calculateRecentCpu t) t)
    obtain ⟨hrest, hthreads⟩ := ih hnodup ((k.calculateRecentCpu t).calculatePriority t)
    refine ⟨hone.trans hrest, fun u => ?_⟩
    rw [List.foldl_cons, hthreads u, hone.idle, hone.loadAvg, threads_calculatePriority, hcpu.idle,
      threads_calculateRecentCpu]
    by_cases hu : u = t
    · subst hu
      by_cases hidle : u = k.idleThread <;> simp [ht, hidle, recalculatedThread]
    · simp [hu]

/-- The accounts when a tick has been charged to the running thread. -/
def charged (k : Kernel) : Kernel :=
  { k with ticks := k.ticks + 1, threadTicks := k.threadTicks + 1 }.tickIncrement

theorem threads_charged (k : Kernel) (t : ThreadId) : k.charged.threads t
      = if t = k.current ∧ t ≠ k.idleThread then
          { k.threads t with recentCpu := fixAdd (k.threads t).recentCpu (fixInt 1) }
        else k.threads t := by
  unfold charged tickIncrement
  by_cases ht : t = k.current
  · subst ht
    by_cases hidle : k.current = k.idleThread <;> simp [hidle]
  · by_cases hidle : k.current = k.idleThread <;> simp [ht, hidle]

theorem onlyThreads_charged (k : Kernel) :
    OnlyThreads { k with ticks := k.ticks + 1, threadTicks := k.threadTicks + 1 } k.charged := by
  unfold charged tickIncrement
  split
  · exact .refl _
  · exact onlyThreads_update _ _ _

/-- The accounts after a tick: `timer_interrupt` up to the end of the part that
is for the advanced scheduler. -/
def ticked (k : Kernel) : Kernel :=
  { k with ticks := k.ticks + 1, threadTicks := k.threadTicks + 1 }.mlfqsTick

/-- **A tick at a full second** recalculates the load and every account. -/
theorem ticked_second (hnodup : k.allList.Nodup) (h : (k.ticks + 1) % timerFreq = 0) :
    OnlyThreads k.charged.calculateLoadAvg k.ticked
      ∧ ∀ t, k.ticked.threads t
        = if t ∈ k.allList ∧ t ≠ k.idleThread then
            recalculatedThread k.charged.calculateLoadAvg.loadAvg (k.charged.threads t)
          else k.charged.threads t := by
  have hcharged := onlyThreads_charged k
  have hticked : k.ticked = k.charged.calculateLoadAvg.doRecalculate := by
    unfold ticked mlfqsTick
    dsimp only
    exact if_pos (hcharged.ticks ▸ h)
  have hall : k.charged.calculateLoadAvg.allList = k.allList := hcharged.all
  have hidle : k.charged.calculateLoadAvg.idleThread = k.idleThread := hcharged.idle
  rw [hticked]
  unfold doRecalculate
  rw [hall]
  obtain ⟨hsame, hthreads⟩ := threads_doRecalculate hnodup k.charged.calculateLoadAvg
  refine ⟨hsame, fun t => ?_⟩
  rw [hthreads t, hidle]
  rfl

/-- **Between two full seconds** a tick at the end of a slice recalculates the priority of the
running thread, and any other is only charged. -/
theorem ticked_eq (h : (k.ticks + 1) % timerFreq ≠ 0) : k.ticked =
    if (k.ticks + 1) % timeSlice = 0 then k.charged.calculatePriority k.current else k.charged := by
  have hcharged := onlyThreads_charged k
  unfold ticked mlfqsTick
  dsimp only
  show (if k.charged.ticks % timerFreq = 0 then _ else if k.charged.ticks % timeSlice = 0 then
    k.charged.calculatePriority k.charged.current else k.charged) = _
  rw [hcharged.ticks, if_neg h, hcharged.current]

theorem ticked_slice (h : (k.ticks + 1) % timerFreq ≠ 0) (h' : (k.ticks + 1) % timeSlice = 0) :
    k.ticked = k.charged.calculatePriority k.current := (ticked_eq h).trans (if_pos h')

theorem ticked_other (h : (k.ticks + 1) % timeSlice ≠ 0) : k.ticked = k.charged := by
  have hsecond : (k.ticks + 1) % timerFreq ≠ 0 := by
    unfold timerFreq
    unfold timeSlice at h
    omega
  rw [ticked_eq hsecond, if_neg h]

/-- **Between two full seconds** a tick changes no more than a priority, once it
has been charged. -/
theorem ticked_between (h : (k.ticks + 1) % timerFreq ≠ 0) : k.ticked.loadAvg = k.loadAvg
      ∧ ∀ t, ∃ p, k.ticked.threads t = { k.charged.threads t with priority := p } := by
  have hcharged := onlyThreads_charged k
  by_cases hslice : (k.ticks + 1) % timeSlice = 0
  · rw [ticked_slice h hslice]
    refine ⟨(onlyThreads_calculatePriority _ _).loadAvg.trans hcharged.loadAvg, fun t => ?_⟩
    rw [threads_calculatePriority]
    split
    · exact ⟨_, rfl⟩
    · exact ⟨_, rfl⟩
  · rw [ticked_other hslice]
    exact ⟨hcharged.loadAvg, fun t => ⟨_, rfl⟩⟩

/-! ## What an event does to the accounts -/

/-- A tick counts, and otherwise concerns only the load and the accounts. -/
theorem onlyThreads_ticked (hnodup : k.allList.Nodup) : OnlyThreads
      { k with ticks := k.ticks + 1, threadTicks := k.threadTicks + 1, loadAvg := k.ticked.loadAvg }
      k.ticked := by
  have hcharged := onlyThreads_charged k
  by_cases hsecond : (k.ticks + 1) % timerFreq = 0
  · obtain ⟨hsame, -⟩ := ticked_second hnodup hsecond
    exact ⟨hsame.mlfqs.trans hcharged.mlfqs, hsame.idle.trans hcharged.idle,
      hsame.current.trans hcharged.current, hsame.ticks.trans hcharged.ticks,
      hsame.threadTicks.trans hcharged.threadTicks, rfl, hsame.all.trans hcharged.all,
      hsame.ready.trans hcharged.ready, hsame.sleepers.trans hcharged.sleepers⟩
  · have hsame : OnlyThreads k.charged k.ticked := by
      by_cases hslice : (k.ticks + 1) % timeSlice = 0
      · rw [ticked_slice hsecond hslice]
        exact onlyThreads_calculatePriority _ _
      · rw [ticked_other hslice]
        exact .refl _
    have hticked := hcharged.trans hsame
    exact ⟨hticked.mlfqs, hticked.idle, hticked.current, hticked.ticks, hticked.threadTicks, rfl,
      hticked.all, hticked.ready, hticked.sleepers⟩

/-- The bounds check of `thread_set_nice`. -/
def clampedNice (nice : ℤ) : ℤ :=
  if nice < niceMin then niceMin else if nice > niceMax then niceMax else nice

/-- `thread_set_nice` up to the call of `check_priority_order`. -/
def niceSet (k : Kernel) (nice : ℤ) : Kernel :=
  (k.updateCurrent fun t => { t with nice := clampedNice nice }).calculatePriority k.current

theorem account_niceSet (k : Kernel) (nice : ℤ) (t : ThreadId) :
    ((k.niceSet nice).threads t).account
      = if t = k.current then
          (if t = k.idleThread then k.priority t
           else calculatedPriority { k.threads t with nice := clampedNice nice },
            clampedNice nice, (k.threads t).recentCpu)
        else (k.threads t).account := by
  unfold niceSet calculatePriority
  by_cases hidle : k.current = k.idleThread
  · by_cases ht : t = k.current
    · simp [hidle, ht, Thread.account, Kernel.priority]
    · simp [hidle, hidle ▸ ht]
  · by_cases ht : t = k.current
    · simp [hidle, ht, Thread.account, calculatedPriority]
    · simp [hidle, ht]

theorem onlyThreads_niceSet (k : Kernel) (nice : ℤ) : OnlyThreads k (k.niceSet nice) := by
  unfold niceSet
  exact (onlyThreads_update k k.current _).trans (onlyThreads_calculatePriority _ _)

theorem unaccounted_niceSet (k : Kernel) (rest : List Action) (nice : ℤ) :
    Unaccounted (k.niceSet nice) ((k.goOn rest).niceSet nice) := by
  have h := onlyThreads_niceSet k nice
  have h' := onlyThreads_niceSet (k.goOn rest) nice
  refine ⟨h'.mlfqs.trans h.mlfqs.symm, h'.idle.trans h.idle.symm, h'.current.trans h.current.symm,
    h'.ticks.trans h.ticks.symm, h'.threadTicks.trans h.threadTicks.symm,
    h'.loadAvg.trans h.loadAvg.symm, fun t ht => ?_, fun t => ?_⟩
  · rw [h'.all] at ht
    rw [h.all]
    exact ht
  · rw [account_niceSet, account_niceSet]
    show (if t = k.current then _ else _) = if t = k.current then _ else _
    split
    · rename_i ht
      simp [ht, goOn, calculatedPriority, Kernel.priority]
    · exact proj_updateCurrent Thread.account rfl t

theorem unaccounted_initThread (k : Kernel) (rest : List Action) (priority : ℤ) :
    Unaccounted (k.initThread priority) ((k.goOn rest).initThread priority) := by
  refine ⟨rfl, rfl, rfl, rfl, rfl, rfl, fun _ h => h, fun t => ?_⟩
  unfold initThread
  by_cases ht : t = k.nextThread
  · simp [ht, goOn]
  · simp only [update_threads, goOn, updateCurrent_nextThread, ne_eq, ht, not_false_eq_true,
      Function.update_of_ne]
    exact proj_updateCurrent Thread.account rfl t

theorem unaccounted_timerInterrupt (hmlfqs : k.mlfqs = true) (h : k.timerInterrupt = some sw) :
    Unaccounted k.ticked sw.state := by
  unfold timerInterrupt at h
  obtain ⟨k₂, hk₂, h⟩ := Option.bind_eq_some_iff.mp h
  rw [if_pos hmlfqs] at hk₂
  have hwoken : Unaccounted k.ticked k₂ := unaccounted_wakeThreads hk₂
  obtain rfl := Option.some.inj h
  split
  · exact hwoken.trans (unaccounted_threadYield k₂)
  · exact hwoken

/-- The accounts after an event: a tick, a `thread_set_nice` or the creation of a
thread changes them, and nothing else does. -/
def accounted (k : Kernel) (e : Event) : Kernel :=
  match k.action e with
  | some (.threadSetNice nice) => k.niceSet nice
  | some (.threadCreate priority) => k.initThread priority
  | some _ => k
  | none => if e = .timerInterrupt then k.ticked else k

/-- **What an event does to the accounts.** -/
theorem handle_accounts (hmlfqs : k.mlfqs = true) (hsw : k.handle e = some sw) :
    Unaccounted (k.accounted e) sw.state := by
  unfold accounted
  rcases handle_eq_some hsw with ⟨a, ha, -, hsw⟩ | ⟨rfl, htimer⟩ | ⟨n, k', rfl, hk', rfl⟩
  · rw [ha]
    set k₁ := k.goOn (k.threads k.current).pending.tail
    have hgo : Unaccounted k k₁ := .updateCurrent k fun _ => rfl
    have hmlfqs₁ : k₁.mlfqs = true := hmlfqs
    cases a with
    | lockAcquire l => exact hgo.trans (unaccounted_lockAcquire hmlfqs₁ hsw)
    | lockWait l => exact hgo.trans (Option.some.inj hsw ▸ unaccounted_lockWait hmlfqs₁ l)
    | lockTryAcquire l => exact hgo.trans (unaccounted_lockTryAcquire hsw)
    | lockRelease l => exact hgo.trans (unaccounted_lockRelease hmlfqs₁ hsw)
    | semaDown n => exact hgo.trans (Option.some.inj hsw ▸ unaccounted_semaDown hmlfqs₁ n)
    | semaTryDown n => exact hgo.trans (Option.some.inj hsw ▸ unaccounted_semaTryDown k₁ n)
    | semaUp n => exact hgo.trans (unaccounted_semaUp hsw)
    | threadCreate priority =>
      obtain ⟨-, rfl⟩ := threadCreate_eq_some hsw
      exact (unaccounted_initThread k _ priority).trans (.updateCurrent _ fun _ => rfl)
    | startThread t => exact hgo.trans (unaccounted_startThread hsw)
    | threadYield => exact hgo.trans (Option.some.inj hsw ▸ unaccounted_threadYield k₁)
    | threadSetPriority priority =>
      refine hgo.trans (Option.some.inj hsw ▸ ?_)
      unfold threadSetPriority
      rw [if_pos hmlfqs₁]
      exact .refl k₁
    | threadSetNice nice =>
      cases hsw
      exact (unaccounted_niceSet k _ nice).trans (unaccounted_checkPriorityOrder _)
    | threadBlock => exact hgo.trans (Option.some.inj hsw ▸ .updateCurrent k₁ fun _ => rfl)
    | unblocked => exact hgo.trans (Option.some.inj hsw ▸ .refl k₁)
    | threadUnblock t =>
      obtain ⟨k', hk', rfl⟩ := Option.map_eq_some_iff.mp hsw
      exact hgo.trans (unaccounted_threadUnblock hk')
    | threadExit => exact hgo.trans (Option.some.inj hsw ▸ unaccounted_threadExit k₁)
    | timerSleep ticks => exact hgo.trans (Option.some.inj hsw ▸ unaccounted_timerSleep k₁ ticks)
    | sleepStart wakeupTick => exact hgo.trans (unaccounted_sleepStart hmlfqs₁ hsw)
    | sleepEnqueue wakeupTick => exact hgo.trans (unaccounted_sleepEnqueue hmlfqs₁ hsw)
  · exact unaccounted_timerInterrupt hmlfqs htimer
  · exact unaccounted_semaWake hk'

theorem mlfqs_accounted (hnodup : k.allList.Nodup) : (k.accounted e).mlfqs = k.mlfqs := by
  unfold accounted
  split
  · exact (onlyThreads_niceSet k _).mlfqs
  · rfl
  · rfl
  · split
    · exact (onlyThreads_ticked hnodup).mlfqs
    · rfl

/-- What is created and how: the priority is in range, and the creator keeps the
processor. -/
theorem handle_threadCreate {priority : ℤ} (ha : k.action e = some (.threadCreate priority))
    (hsw : k.handle e = some sw) :
    (priMin ≤ priority ∧ priority ≤ priMax) ∧ ∃ k', sw = .stay k' := by
  rcases handle_eq_some hsw with ⟨a, ha', -, hsw⟩ | ⟨rfl, -⟩ | ⟨n, k', rfl, -, -⟩
  · obtain rfl : a = .threadCreate priority := Option.some.inj (ha'.symm.trans ha)
    simp only [Action.run, threadCreate] at hsw
    split at hsw
    · rename_i hrange
      cases hsw
      exact ⟨hrange, _, rfl⟩
    · cases hsw
  · cases ha
  · cases ha

/-- A thread that exits is dying when the next one is chosen. -/
theorem handle_threadExit (ha : k.action e = some .threadExit) (hsw : k.handle e = some sw) :
    sw.state.status sw.state.current = .dying := by
  rcases handle_eq_some hsw with ⟨a, ha', -, hsw⟩ | ⟨rfl, -⟩ | ⟨n, k', rfl, -, -⟩
  · obtain rfl : a = .threadExit := Option.some.inj (ha'.symm.trans ha)
    cases hsw
    exact (status_die _ _).trans (if_pos rfl)
  · cases ha
  · cases ha

end Kernel

/-- **The mode is kept along a run.** -/
theorem KernelStep.mlfqs {k k' : Kernel} {e : Event} (h : k.Active) (hmlfqs : k.mlfqs = true)
    (hstep : KernelStep k e k') : k'.mlfqs = true := by
  obtain ⟨sw, hsw, rfl⟩ := Option.map_eq_some_iff.mp hstep.2
  have hstate : sw.state.mlfqs = true :=
    (Kernel.handle_accounts hmlfqs hsw).mlfqs.trans
      ((Kernel.mlfqs_accounted h.all_nodup).trans hmlfqs)
  cases sw <;> exact hstate

theorem KernelStep.ticks_timerInterrupt {k k' : Kernel} (h : k.Active) (hmlfqs : k.mlfqs = true)
    (hstep : KernelStep k .timerInterrupt k') : k'.ticks = k.ticks + 1 := by
  obtain ⟨sw, hsw, rfl⟩ := Option.map_eq_some_iff.mp hstep.2
  have hstate : sw.state.ticks = k.ticks + 1 :=
    (Kernel.handle_accounts hmlfqs hsw).ticks.trans (Kernel.onlyThreads_ticked h.all_nodup).ticks
  cases sw <;> exact hstate

end Pintos
