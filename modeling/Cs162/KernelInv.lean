import Cs162.Synch

/-!
# What every kernel state satisfies

The lists of the scheduler agree with the states of the threads
(`Kernel.Wf`). This holds also at the moment `schedule` is called; between the
pieces of kernel code the current thread is running besides
(`Kernel.Active`). Every function of the kernel keeps it, and so does every
step (`KernelStep.active`).
-/

namespace Pintos

open KernelList

namespace Kernel

variable {k k' : Kernel} {t u : ThreadId} {f : Thread → Thread} {sw : Switch}

/-! ## Code that keeps accounts, donates or wakes threads -/

/-- **A property that does not concern the accounts**: it survives a new priority or
`recent_cpu` of a thread, and another load. -/
structure IgnoresAccounts (P : Kernel → Prop) : Prop where
  record : ∀ k t priority recentCpu, P k →
    P (k.update t fun th => { th with priority := priority, recentCpu := recentCpu })
  load : ∀ k loadAvg, P k → P { k with loadAvg := loadAvg }

section

variable {P : Kernel → Prop}

theorem IgnoresAccounts.calculatePriority (hP : IgnoresAccounts P) (h : P k) (t : ThreadId) :
    P (k.calculatePriority t) := by
  unfold Kernel.calculatePriority
  split
  · exact h
  · exact hP.record k t _ (k.threads t).recentCpu h

theorem IgnoresAccounts.doRecalculate (hP : IgnoresAccounts P) (h : P k) : P k.doRecalculate := by
  unfold Kernel.doRecalculate
  generalize k.allList = list
  induction list generalizing k with
  | nil => exact h
  | cons t list ih =>
    refine ih (hP.calculatePriority ?_ t)
    unfold calculateRecentCpu
    split
    · exact h
    · exact hP.record k t (k.threads t).priority _ h

theorem IgnoresAccounts.tickIncrement (hP : IgnoresAccounts P) (h : P k) : P k.tickIncrement := by
  unfold Kernel.tickIncrement
  split
  · exact h
  · exact hP.record k k.current (k.threads k.current).priority _ h

theorem IgnoresAccounts.mlfqsTick (hP : IgnoresAccounts P) (h : P k) : P k.mlfqsTick := by
  unfold Kernel.mlfqsTick
  dsimp only
  split
  · exact hP.doRecalculate (hP.load _ _ (hP.tickIncrement h))
  · split
    · exact hP.calculatePriority (hP.tickIncrement h) _
    · exact hP.tickIncrement h

/-- A donation changes the priority of a thread. -/
theorem IgnoresAccounts.donate (hP : IgnoresAccounts P) (h : P k) (n : ℕ) (t : ThreadId) :
    P (donate n t k) := by
  induction n generalizing k t with
  | zero => exact h
  | succ n ih =>
    unfold Kernel.donate
    split
    · exact h
    · split
      · exact h
      · split
        · exact h
        · exact ih (hP.record k _ _ (k.threads _).recentCpu h) _

/-- The loop over `threads_to_wakeup` unblocks threads and changes the list. -/
theorem wakeThreads_rule {list : List ThreadId} (h : wakeThreads list k = some k') (hk : P k)
    (hlist : ∀ k list, P k → P { k with threadsToWakeup := list })
    (hunblock : ∀ {k k' t}, P k → k.threadUnblock t = some k' → P k') : P k' := by
  induction list generalizing k with
  | nil => exact Option.some.inj h ▸ hlist k [] hk
  | cons t list ih =>
    unfold wakeThreads at h
    split at h
    · exact Option.some.inj h ▸ hlist k _ hk
    · obtain ⟨k₁, hk₁, h⟩ := Option.bind_eq_some_iff.mp h
      exact ih h (hunblock hk hk₁)

end

/-! ## Cases of the code -/

section

variable {l : LockId} {priority : ℤ}

@[elab_as_elim]
theorem checkPriorityOrder_cases {motive : Switch → Prop} (k : Kernel) (stay : motive (.stay k))
    (yield : motive k.threadYield) : motive k.checkPriorityOrder := by
  unfold checkPriorityOrder
  split
  · exact stay
  · split
    · exact yield
    · exact stay

@[elab_as_elim]
theorem semaTryDown_cases {motive : Kernel → Prop} (k : Kernel) (n : ℕ) (same : motive k)
    (down : motive (k.decrement (.sema n))) : motive (k.semaTryDown n) := by
  unfold semaTryDown
  split
  · exact down
  · exact same

@[elab_as_elim]
theorem timerSleep_cases {motive : Kernel → Prop} (k : Kernel) (ticks : ℤ) (same : motive k)
    (sleep : motive (k.updateCurrent fun t =>
      { t with pending := .sleepStart (int32 k.ticks + ticks) :: t.pending })) :
    motive (k.timerSleep ticks) := by
  unfold timerSleep
  split
  · exact same
  · exact sleep

theorem lockAcquire_eq_some (h : k.lockAcquire l = some sw) :
    k.holder l ≠ some k.current ∧ (k.joinDonors l).lockWait l = sw := by
  unfold lockAcquire at h
  split at h
  · cases h
  · rename_i hheld
    exact ⟨hheld, Option.some.inj h⟩

theorem lockTryAcquire_eq_some (h : k.lockTryAcquire l = some sw) :
    0 < k.value (.ofLock l) ∧ .stay (k.take l) = sw
      ∨ ¬ 0 < k.value (.ofLock l) ∧ .stay k = sw := by
  unfold lockTryAcquire at h
  split at h
  · cases h
  · obtain rfl := Option.some.inj h
    split
    · exact .inl ⟨by assumption, rfl⟩
    · exact .inr ⟨by assumption, rfl⟩

theorem threadCreate_eq_some (h : k.threadCreate priority = some sw) :
    (priMin ≤ priority ∧ priority ≤ priMax)
      ∧ .stay ((k.initThread priority).updateCurrent fun t =>
        { t with pending := .lockAcquire .tidLock :: .lockRelease .tidLock ::
                   .startThread k.nextThread :: t.pending }) = sw := by
  unfold threadCreate at h
  split at h
  · rename_i hrange
    exact ⟨hrange, Option.some.inj h⟩
  · cases h

end

/-- The state of a thread. -/
def status (k : Kernel) (t : ThreadId) : ThreadStatus := (k.threads t).status

/-- **A well-formed kernel.** -/
structure Wf (k : Kernel) : Prop where
  ready_status : ∀ t ∈ k.readyList, k.status t = .ready
  ready_nodup : k.readyList.Nodup
  all_mem : ∀ t, t ∈ k.allList ↔ k.status t ≠ .dying
  all_nodup : k.allList.Nodup
  /-- Numbers not yet given out belong to no live thread. -/
  unused : ∀ t, k.nextThread ≤ t → k.status t = .dying
  idle_alive : k.status k.idleThread ≠ .dying
  holder_lt : ∀ l h, k.holder l = some h → h < k.nextThread

/-- **A kernel between two pieces of code**: it is well formed, and the
current thread is running. -/
structure Active (k : Kernel) : Prop extends k.Wf where
  running : k.status k.current = .running

theorem Wf.lt_of_alive (h : k.Wf) (ht : k.status t ≠ .dying) : t < k.nextThread := by
  by_contra hge
  exact ht (h.unused t (Nat.le_of_not_lt hge))

theorem Active.current_lt (h : k.Active) : k.current < k.nextThread :=
  h.lt_of_alive (by simp [h.running])

theorem Active.current_not_ready (h : k.Active) : k.current ∉ k.readyList := by
  intro hmem
  have := h.ready_status _ hmem
  rw [h.running] at this
  cases this

theorem Wf.not_ready_of_blocked (h : k.Wf) (ht : k.status t = .blocked) : t ∉ k.readyList := by
  intro hmem
  rw [h.ready_status t hmem] at ht
  cases ht

/-! ## Changes that do not concern the scheduler -/

/-- Well-formedness reads the states of the threads, the scheduler's lists and
the holders of the locks. -/
theorem Wf.of_same (h : k.Wf) (hstatus : ∀ t, k'.status t = k.status t)
    (hready : k'.readyList = k.readyList) (hall : k'.allList = k.allList)
    (hnext : k'.nextThread = k.nextThread) (hidle : k'.idleThread = k.idleThread)
    (hholder : ∀ l h, k'.holder l = some h → h < k.nextThread) : k'.Wf where
  ready_status t ht := by rw [hstatus]; exact h.ready_status t (hready ▸ ht)
  ready_nodup := hready ▸ h.ready_nodup
  all_mem t := by rw [hall, hstatus]; exact h.all_mem t
  all_nodup := hall ▸ h.all_nodup
  unused t ht := by rw [hstatus]; exact h.unused t (hnext ▸ ht)
  idle_alive := by rw [hidle, hstatus]; exact h.idle_alive
  holder_lt l t ht := by rw [hnext]; exact hholder l t ht

theorem Active.of_same (h : k.Active) (hstatus : ∀ t, k'.status t = k.status t)
    (hready : k'.readyList = k.readyList) (hall : k'.allList = k.allList)
    (hnext : k'.nextThread = k.nextThread) (hidle : k'.idleThread = k.idleThread)
    (hholder : ∀ l h, k'.holder l = some h → h < k.nextThread)
    (hcurrent : k'.current = k.current) : k'.Active :=
  ⟨h.toWf.of_same hstatus hready hall hnext hidle hholder,
    by rw [hcurrent, hstatus]; exact h.running⟩

theorem status_update (k : Kernel) (t u : ThreadId) (f : Thread → Thread) :
    (k.update t f).status u = if u = t then (f (k.threads t)).status else k.status u := by
  unfold status
  rw [update_threads, Function.update_apply]
  split <;> rfl

theorem status_updateCurrent (k : Kernel) (u : ThreadId) (f : Thread → Thread) :
    (k.updateCurrent f).status u
      = if u = k.current then (f (k.threads k.current)).status else k.status u :=
  status_update k _ u f

/-- A change that keeps the thread's state. -/
theorem status_update_of_keep (k : Kernel) (t u : ThreadId)
    (hf : ∀ th, (f th).status = th.status) : (k.update t f).status u = k.status u := by
  rw [status_update]
  split
  · rename_i h
    rw [hf, h]
    rfl
  · rfl

theorem Active.update (h : k.Active) (t : ThreadId) (hf : ∀ th, (f th).status = th.status) :
    (k.update t f).Active :=
  h.of_same (fun u => status_update_of_keep k t u hf) rfl rfl rfl rfl h.holder_lt rfl

theorem Active.updateCurrent (h : k.Active) (hf : ∀ th, (f th).status = th.status) :
    (k.updateCurrent f).Active :=
  h.update _ hf

/-- What a change to one thread keeps of it, it keeps of all. -/
theorem proj_update {α : Type} (g : Thread → α) (hg : g (f (k.threads t)) = g (k.threads t))
    (u : ThreadId) : g ((k.update t f).threads u) = g (k.threads u) := by
  rw [update_threads, Function.update_apply]
  split
  · rename_i heq
    rw [hg, heq]
  · rfl

theorem proj_updateCurrent {α : Type} (g : Thread → α)
    (hg : g (f (k.threads k.current)) = g (k.threads k.current)) (t : ThreadId) :
    g ((k.updateCurrent f).threads t) = g (k.threads t) :=
  proj_update g hg t

/-! ## The scheduler -/

theorem Wf.schedule (h : k.Wf) : k.schedule.Active := by
  have hchosen : k.status k.nextThreadToRun ≠ .dying := by
    unfold nextThreadToRun
    cases hready : k.readyList with
    | nil => exact h.idle_alive
    | cons t list => simp [h.ready_status t (by simp [hready])]
  have hrest : ∀ t ∈ k.readyList.tail, t ≠ k.nextThreadToRun := by
    intro t ht heq
    unfold nextThreadToRun at heq
    cases hready : k.readyList with
    | nil => simp [hready] at ht
    | cons u list =>
      have hnodup := h.ready_nodup
      rw [hready] at ht heq hnodup
      have heq : t = u := heq
      exact (List.nodup_cons.mp hnodup).1 (heq ▸ ht)
  have hstatus : ∀ t, k.schedule.status t
      = if t = k.nextThreadToRun then .running else k.status t := fun t =>
    status_updateCurrent _ t _
  refine ⟨⟨?_, ?_, ?_, h.all_nodup, ?_, ?_, h.holder_lt⟩, ?_⟩
  · intro t ht
    rw [hstatus, if_neg (hrest t ht)]
    exact h.ready_status t (List.mem_of_mem_tail ht)
  · exact h.ready_nodup.tail
  · intro t
    rw [hstatus]
    split
    · rename_i heq
      exact iff_of_true ((h.all_mem t).mpr (heq ▸ hchosen)) (by simp)
    · exact h.all_mem t
  · intro t ht
    rw [hstatus, if_neg]
    · exact h.unused t ht
    · rintro rfl
      exact hchosen (h.unused _ ht)
  · rw [hstatus]
    split
    · simp
    · exact h.idle_alive
  · exact (hstatus _).trans (if_pos rfl)

theorem status_makeReady (k : Kernel) (t u : ThreadId) :
    (k.makeReady t).status u = if u = t then .ready else k.status u :=
  status_update _ t u _

theorem Wf.makeReady (h : k.Wf) (hready : t ∉ k.readyList) (halive : k.status t ≠ .dying) :
    (k.makeReady t).Wf := by
  refine ⟨?_, ?_, ?_, h.all_nodup, ?_, ?_, h.holder_lt⟩
  · intro u hu
    rw [status_makeReady]
    split
    · rfl
    · rename_i hne
      exact h.ready_status u ((mem_listInsertOrdered.mp hu).resolve_left hne)
  · exact nodup_listInsertOrdered.mpr ⟨hready, h.ready_nodup⟩
  · intro u
    rw [status_makeReady]
    split
    · rename_i heq
      exact iff_of_true ((h.all_mem u).mpr (heq ▸ halive)) (by simp)
    · exact h.all_mem u
  · intro u hu
    rw [status_makeReady, if_neg]
    · exact h.unused u hu
    · rintro rfl
      exact halive (h.unused _ hu)
  · rw [status_makeReady]
    split
    · simp
    · exact h.idle_alive

theorem threadUnblock_eq_some (h : k.threadUnblock t = some k') :
    k.status t = .blocked ∧ k' = k.makeReady t := by
  unfold threadUnblock at h
  split at h
  · rename_i hblocked
    exact ⟨hblocked, (Option.some.inj h).symm⟩
  · cases h

theorem Active.threadUnblock (h : k.Active) (hk : k.threadUnblock t = some k') : k'.Active := by
  obtain ⟨hblocked, rfl⟩ := threadUnblock_eq_some hk
  have hne : k.current ≠ t := by
    intro heq
    have := h.running
    rw [heq, hblocked] at this
    cases this
  refine ⟨h.makeReady (h.not_ready_of_blocked hblocked) (by simp [hblocked]), ?_⟩
  exact (status_makeReady k t _).trans ((if_neg hne).trans h.running)

/-- The current thread leaves the processor without entering a list. -/
theorem Active.leave (h : k.Active) {status : ThreadStatus} (hf : ∀ th, (f th).status = status)
    (halive : status ≠ .dying) : (k.updateCurrent f).Wf := by
  have hstatus : ∀ u, (k.updateCurrent f).status u
      = if u = k.current then status else k.status u := by
    intro u
    rw [status_updateCurrent, hf]
  refine ⟨?_, h.ready_nodup, ?_, h.all_nodup, ?_, ?_, h.holder_lt⟩
  · intro u hu
    rw [hstatus, if_neg]
    · exact h.ready_status u hu
    · rintro rfl
      exact h.current_not_ready hu
  · intro u
    rw [hstatus]
    split
    · rename_i heq
      exact iff_of_true ((h.all_mem u).mpr (by simp [heq, h.running])) halive
    · exact h.all_mem u
  · intro u hu
    rw [hstatus, if_neg]
    · exact h.unused u hu
    · rintro rfl
      exact absurd h.current_lt (Nat.not_lt.mpr hu)
  · rw [hstatus]
    split
    · exact halive
    · exact h.idle_alive

end Kernel

/-- What holds of the state a piece of code ends in. -/
def Switch.Wf : Switch → Prop
  | .stay k => k.Active
  | .schedule k => k.Wf

theorem Switch.Wf.finish {sw : Switch} (h : sw.Wf) : sw.finish.Active := by
  cases sw with
  | stay k => exact h
  | schedule k => exact Kernel.Wf.schedule h

namespace Kernel

variable {k k' : Kernel} {t u : ThreadId} {f : Thread → Thread} {sw : Switch} {s : SemaRef}
  {l : LockId}

theorem Active.threadYield (h : k.Active) : k.threadYield.Wf := by
  unfold Kernel.threadYield
  split
  · exact h.makeReady h.current_not_ready (by simp [h.running])
  · exact h.leave (fun _ => rfl) (by simp)

theorem Active.checkPriorityOrder (h : k.Active) : k.checkPriorityOrder.Wf :=
  checkPriorityOrder_cases k h h.threadYield

theorem Active.threadBlock (h : k.Active) (next : Action) : (k.threadBlock next).Wf :=
  h.leave (fun _ => rfl) (by simp)

theorem active_ignoresAccounts : IgnoresAccounts Active :=
  ⟨fun _ t _ _ h => h.update t fun _ => rfl,
    fun _ _ h => h.of_same (fun _ => rfl) rfl rfl rfl rfl h.holder_lt rfl⟩

theorem Active.threadSetNice (h : k.Active) (nice : ℤ) : (k.threadSetNice nice).Wf := by
  unfold Kernel.threadSetNice
  refine Active.checkPriorityOrder (active_ignoresAccounts.calculatePriority ?_ _)
  exact h.updateCurrent (fun _ => rfl)

theorem Active.startThread (h : k.Active) (hsw : k.startThread t = some sw) : sw.Wf := by
  unfold Kernel.startThread at hsw
  obtain ⟨k', hk', rfl⟩ := Option.map_eq_some_iff.mp hsw
  exact (h.threadUnblock hk').checkPriorityOrder

theorem status_initThread (k : Kernel) (priority : ℤ) (u : ThreadId) :
    (k.initThread priority).status u = if u = k.nextThread then .blocked else k.status u :=
  status_update _ _ u _

/-- A new thread takes a number that was not given out, and is on no list but
`all_list`. -/
theorem Active.initThread (h : k.Active) (priority : ℤ) : (k.initThread priority).Active := by
  have hfresh : ∀ u, k.status u ≠ .dying → u ≠ k.nextThread := by
    rintro u hu rfl
    exact hu (h.unused _ le_rfl)
  have hold : ∀ u, k.status u ≠ .dying → (k.initThread priority).status u = k.status u :=
    fun u hu => (status_initThread k priority u).trans (if_neg (hfresh u hu))
  refine ⟨⟨?_, h.ready_nodup, ?_, ?_, ?_, ?_, ?_⟩, ?_⟩
  · intro u hu
    have hu := h.ready_status u hu
    rw [hold u (by simp [hu]), hu]
  · intro u
    show u ∈ k.allList ++ [k.nextThread] ↔ _
    rw [List.mem_append, List.mem_singleton, h.all_mem, status_initThread]
    split <;> simp_all
  · refine List.nodup_append.mpr ⟨h.all_nodup, List.nodup_singleton _, ?_⟩
    intro u hu v hv
    rw [List.mem_singleton.mp hv]
    exact hfresh u ((h.all_mem u).mp hu)
  · intro u hu
    rw [status_initThread, if_neg (Nat.ne_of_gt hu)]
    exact h.unused u (Nat.le_of_lt hu)
  · show (k.initThread priority).status k.idleThread ≠ _
    rw [hold _ h.idle_alive]
    exact h.idle_alive
  · intro l u hl
    exact Nat.lt_succ_of_lt (h.holder_lt l u hl)
  · show (k.initThread priority).status k.current = _
    rw [hold _ (by simp [h.running]), h.running]

theorem Active.threadCreate (h : k.Active) {priority : ℤ}
    (hsw : k.threadCreate priority = some sw) : sw.Wf := by
  obtain ⟨-, rfl⟩ := threadCreate_eq_some hsw
  exact (h.initThread priority).updateCurrent (fun _ => rfl)

theorem Active.leaveDonors (h : k.Active) (t : ThreadId) : (k.leaveDonors t).Active :=
  h.of_same (fun _ => rfl) rfl rfl rfl rfl h.holder_lt rfl

theorem status_die (k : Kernel) (u : ThreadId) :
    k.die.status u = if u = k.current then .dying else k.status u :=
  status_updateCurrent _ u _

/-- A dying thread has left `all_list`; it is not the idle thread. -/
theorem Active.die (h : k.Active) (hidle : k.current ≠ k.idleThread) : k.die.Wf := by
  refine ⟨?_, h.ready_nodup, ?_, h.all_nodup.erase _, ?_, ?_, h.holder_lt⟩
  · intro u hu
    rw [status_die, if_neg]
    · exact h.ready_status u hu
    · rintro rfl
      exact h.current_not_ready hu
  · intro u
    show u ∈ k.allList.erase k.current ↔ _
    rw [h.all_nodup.mem_erase_iff, h.all_mem, status_die]
    split <;> simp_all
  · intro u hu
    rw [status_die]
    split
    · rfl
    · exact h.unused u hu
  · show k.die.status k.idleThread ≠ _
    rw [status_die, if_neg (Ne.symm hidle)]
    exact h.idle_alive

theorem Active.threadExit (h : k.Active) (hidle : k.current ≠ k.idleThread) : k.threadExit.Wf := by
  unfold Kernel.threadExit
  split
  · exact (h.leaveDonors _).die hidle
  · exact h.die hidle

/-! ## Locks and semaphores -/

theorem Active.donate (h : k.Active) (n : ℕ) (t : ThreadId) : (donate n t k).Active :=
  active_ignoresAccounts.donate h n t

theorem Active.checkToDonate (h : k.Active) (t : ThreadId) : (k.checkToDonate t).Active :=
  h.donate _ t

theorem Active.semaWait (h : k.Active) (s : SemaRef) (next : Action) : (k.semaWait s next).Wf := by
  unfold Kernel.semaWait
  refine Active.threadBlock ?_ next
  have hdonated : (if k.mlfqs then k else k.checkToDonate k.current).Active := by
    split
    · exact h
    · exact h.checkToDonate _
  exact hdonated.of_same (fun _ => rfl) rfl rfl rfl rfl hdonated.holder_lt rfl

theorem Active.semaDown (h : k.Active) (n : ℕ) : (k.semaDown n).Wf := by
  unfold Kernel.semaDown
  split
  · exact h.semaWait _ _
  · exact h.of_same (fun _ => rfl) rfl rfl rfl rfl h.holder_lt rfl

theorem Active.semaTryDown (h : k.Active) (n : ℕ) : (k.semaTryDown n).Active :=
  semaTryDown_cases k n h (h.of_same (fun _ => rfl) rfl rfl rfl rfl h.holder_lt rfl)

theorem Active.semaWake (h : k.Active) (hk : k.semaWake s = some k') : k'.Active := by
  unfold Kernel.semaWake at hk
  obtain ⟨k₁, hk₁, rfl⟩ := Option.map_eq_some_iff.mp hk
  have hactive : k₁.Active := by
    split at hk₁
    · exact Option.some.inj hk₁ ▸ h
    · refine Active.threadUnblock ?_ hk₁
      exact h.of_same (fun _ => rfl) rfl rfl rfl rfl h.holder_lt rfl
  exact hactive.of_same (fun _ => rfl) rfl rfl rfl rfl hactive.holder_lt rfl

theorem Active.semaUp (h : k.Active) (hsw : k.semaUp s = some sw) : sw.Wf := by
  unfold Kernel.semaUp at hsw
  obtain ⟨k', hk', rfl⟩ := Option.map_eq_some_iff.mp hsw
  exact (h.semaWake hk').checkPriorityOrder

theorem Active.take (h : k.Active) (l : LockId) : (k.take l).Active := by
  refine h.of_same (fun _ => rfl) rfl rfl rfl rfl ?_ rfl
  intro m t ht
  have ht : Function.update k.holder l (some k.current) m = some t := ht
  rw [Function.update_apply] at ht
  split at ht
  · exact Option.some.inj ht ▸ h.current_lt
  · exact h.holder_lt m t ht

theorem Active.setWaitLock (h : k.Active) (waitLock : Option LockId) :
    (k.setWaitLock waitLock).Active :=
  h.updateCurrent (fun _ => rfl)

theorem Active.lockWait (h : k.Active) (l : LockId) : (k.lockWait l).Wf := by
  unfold Kernel.lockWait
  split
  · exact h.semaWait _ _
  · exact (h.take l).setWaitLock none

theorem Active.addDonor (h : k.Active) (t : ThreadId) : (k.addDonor t).Active :=
  h.update t (fun _ => rfl)

/-- A thread that is about to wait joins the donors of the holder, if there is
one to donate to. -/
theorem joinDonors_cases (k : Kernel) (l : LockId) : k.joinDonors l = k
    ∨ ∃ h, k.holder l = some h ∧ k.joinDonors l = (k.setWaitLock (some l)).addDonor h := by
  unfold Kernel.joinDonors
  split
  · exact .inl rfl
  · rename_i h hh
    split
    · exact .inl rfl
    · exact .inr ⟨h, hh, rfl⟩

theorem priority_setWaitLock (k : Kernel) (waitLock : Option LockId) (t : ThreadId) :
    (k.setWaitLock waitLock).priority t = k.priority t :=
  proj_updateCurrent Thread.priority rfl t

theorem priority_addDonor (k : Kernel) (u t : ThreadId) :
    (k.addDonor u).priority t = k.priority t :=
  proj_update Thread.priority rfl t

theorem Active.joinDonors (h : k.Active) (l : LockId) : (k.joinDonors l).Active := by
  rcases joinDonors_cases k l with heq | ⟨u, -, heq⟩
  · rwa [heq]
  · rw [heq]
    exact (h.setWaitLock _).addDonor _

theorem Active.lockAcquire (h : k.Active) (hsw : k.lockAcquire l = some sw) : sw.Wf := by
  exact (lockAcquire_eq_some hsw).2 ▸ (h.joinDonors l).lockWait l

theorem Active.lockTryAcquire (h : k.Active) (hsw : k.lockTryAcquire l = some sw) : sw.Wf := by
  obtain ⟨-, rfl⟩ | ⟨-, rfl⟩ := lockTryAcquire_eq_some hsw
  · exact h.take l
  · exact h

theorem Active.checkNeedsDonations (h : k.Active) : k.checkNeedsDonations.Active :=
  h.updateCurrent (fun _ => rfl)

theorem Active.removeDonations (h : k.Active) (l : LockId) : (k.removeDonations l).Active :=
  h.updateCurrent (fun _ => rfl)

theorem Active.dropHolder (h : k.Active) (l : LockId) : (k.dropHolder l).Active := by
  refine h.of_same (fun _ => rfl) rfl rfl rfl rfl ?_ rfl
  intro m t ht
  have ht : Function.update k.holder l none m = some t := ht
  rw [Function.update_apply] at ht
  split at ht
  · cases ht
  · exact h.holder_lt m t ht

theorem Active.lockRelease (h : k.Active) (hsw : k.lockRelease l = some sw) : sw.Wf := by
  unfold Kernel.lockRelease at hsw
  split at hsw
  · refine Active.semaUp ?_ hsw
    split
    · exact h.dropHolder l
    · exact ((h.dropHolder l).removeDonations l).checkNeedsDonations
  · cases hsw

theorem Active.threadSetPriority (h : k.Active) (priority : ℤ) :
    (k.threadSetPriority priority).Wf := by
  unfold Kernel.threadSetPriority
  have hset := Active.checkNeedsDonations (h.updateCurrent
    (f := fun t => { t with origPriority := priority }) (fun _ => rfl))
  split
  · exact h
  · dsimp only
    split
    · exact hset.checkToDonate _
    · split
      · exact hset.checkPriorityOrder
      · exact hset

/-! ## The timer -/

theorem Active.timerSleep (h : k.Active) (ticks : ℤ) : (k.timerSleep ticks).Active :=
  timerSleep_cases k ticks h (h.updateCurrent fun _ => rfl)

theorem Active.sleepStart (h : k.Active) {wakeupTick : ℤ}
    (hsw : k.sleepStart wakeupTick = some sw) : sw.Wf := by
  unfold Kernel.sleepStart at hsw
  refine Active.lockAcquire ?_ hsw
  exact h.updateCurrent (fun _ => rfl)

theorem Active.sleepEnqueue (h : k.Active) {wakeupTick : ℤ}
    (hsw : k.sleepEnqueue wakeupTick = some sw) : sw.Wf := by
  unfold Kernel.sleepEnqueue at hsw
  refine Active.lockRelease ?_ hsw
  have hset := h.updateCurrent
    (f := fun t => { t with wakeupTick := wakeupTick, slept := true }) (fun _ => rfl)
  exact hset.of_same (fun _ => rfl) rfl rfl rfl rfl hset.holder_lt rfl

theorem Active.wakeThreads (h : k.Active) {list : List ThreadId}
    (hk : wakeThreads list k = some k') : k'.Active :=
  wakeThreads_rule hk h
    (fun _ _ h => h.of_same (fun _ => rfl) rfl rfl rfl rfl h.holder_lt rfl) Active.threadUnblock

theorem Active.mlfqsTick (h : k.Active) : k.mlfqsTick.Active :=
  active_ignoresAccounts.mlfqsTick h

theorem Active.timerInterrupt (h : k.Active) (hsw : k.timerInterrupt = some sw) : sw.Wf := by
  unfold Kernel.timerInterrupt at hsw
  obtain ⟨k₁, hk₁, hsw⟩ := Option.bind_eq_some_iff.mp hsw
  have hticked : ({ k with ticks := k.ticks + 1, threadTicks := k.threadTicks + 1 } : Kernel
      ).Active := h.of_same (fun _ => rfl) rfl rfl rfl rfl h.holder_lt rfl
  have hactive : k₁.Active := by
    refine Active.wakeThreads ?_ hk₁
    split
    · exact hticked.mlfqsTick
    · exact hticked
  obtain rfl := Option.some.inj hsw
  split
  · exact hactive.threadYield
  · exact hactive

end Kernel

/-! ## Steps -/

open Kernel

variable {k k' : Kernel} {a : Action} {e : Event} {sw : Switch}

/-- Every piece of kernel code keeps the kernel well formed. -/
theorem Kernel.Active.run (h : k.Active) (hexit : a = .threadExit → k.current ≠ k.idleThread)
    (hsw : a.run k = some sw) : sw.Wf := by
  cases a with
  | lockAcquire l => exact h.lockAcquire hsw
  | lockWait l => exact Option.some.inj hsw ▸ h.lockWait l
  | lockTryAcquire l => exact h.lockTryAcquire hsw
  | lockRelease l => exact h.lockRelease hsw
  | semaDown n => exact Option.some.inj hsw ▸ h.semaDown n
  | semaTryDown n => exact Option.some.inj hsw ▸ h.semaTryDown n
  | semaUp n => exact h.semaUp hsw
  | threadCreate priority => exact h.threadCreate hsw
  | startThread t => exact h.startThread hsw
  | threadYield => exact Option.some.inj hsw ▸ h.threadYield
  | threadSetPriority priority => exact Option.some.inj hsw ▸ h.threadSetPriority priority
  | threadSetNice nice => exact Option.some.inj hsw ▸ h.threadSetNice nice
  | threadBlock => exact Option.some.inj hsw ▸ h.threadBlock _
  | unblocked => exact Option.some.inj hsw ▸ h
  | threadUnblock t =>
    obtain ⟨k₁, hk₁, rfl⟩ := Option.map_eq_some_iff.mp hsw
    exact h.threadUnblock hk₁
  | threadExit => exact Option.some.inj hsw ▸ h.threadExit (hexit rfl)
  | timerSleep ticks => exact Option.some.inj hsw ▸ h.timerSleep ticks
  | sleepStart wakeupTick => exact h.sleepStart hsw
  | sleepEnqueue wakeupTick => exact h.sleepEnqueue hsw

theorem Kernel.goOn_of_pending {rest : List Action}
    (h : (k.threads k.current).pending = rest) : k.goOn rest = k := by
  subst h
  unfold goOn updateCurrent update
  rw [Function.update_eq_self]

/-- **What an event runs**: a piece of code of the running thread, or an
interrupt. -/
theorem Kernel.handle_eq_some (hsw : k.handle e = some sw) : (∃ a, k.action e = some a
      ∧ ((k.threads k.current).pending.head? = some a
        ∨ (k.threads k.current).pending = [] ∧ k.mayCall a = true)
      ∧ a.run (k.goOn (k.threads k.current).pending.tail) = some sw)
    ∨ (e = .timerInterrupt ∧ k.timerInterrupt = some sw)
    ∨ (∃ n k', e = .semaUpInterrupt n ∧ k.semaWake (.sema n) = some k' ∧ sw = .stay k') := by
  cases e with
  | call a =>
    simp only [handle] at hsw
    split at hsw
    · rename_i h
      refine .inl ⟨a, rfl, .inr h, ?_⟩
      rwa [h.1, List.tail_nil, goOn_of_pending h.1]
    · cases hsw
  | resume =>
    simp only [handle] at hsw
    split at hsw
    · cases hsw
    · rename_i a rest h
      exact .inl ⟨a, by simp [action, h], .inl (by rw [h]; rfl), by rwa [h]⟩
  | timerInterrupt =>
    simp only [handle] at hsw
    split at hsw
    · exact .inr (.inl ⟨rfl, hsw⟩)
    · cases hsw
  | semaUpInterrupt n =>
    simp only [handle] at hsw
    split at hsw
    · obtain ⟨k', hk', rfl⟩ := Option.map_eq_some_iff.mp hsw
      exact .inr (.inr ⟨n, k', rfl, hk', rfl⟩)
    · cases hsw

theorem Kernel.Active.goOn (h : k.Active) (rest : List Action) : (k.goOn rest).Active :=
  h.updateCurrent (fun _ => rfl)

theorem Kernel.Active.handle (h : k.Active)
    (hexit : k.action e = some .threadExit → k.current ≠ k.idleThread)
    (hsw : k.handle e = some sw) : sw.Wf := by
  rcases handle_eq_some hsw with ⟨a, ha, -, hsw⟩ | ⟨-, hsw⟩ | ⟨n, k', -, hk', rfl⟩
  · exact (h.goOn _).run (fun heq => hexit (heq ▸ ha)) hsw
  · exact h.timerInterrupt hsw
  · exact h.semaWake hk'

/-- **Every step keeps the kernel well formed.** -/
theorem KernelStep.active (h : k.Active) (hstep : KernelStep k e k') : k'.Active := by
  obtain ⟨hexit, hmap⟩ := hstep
  obtain ⟨sw, hsw, rfl⟩ := Option.map_eq_some_iff.mp hmap
  exact (h.handle (fun ha => (hexit ha).1) hsw).finish

theorem boot_active (mlfqs : Bool) (values : ℕ → ℕ) : (boot mlfqs values).Active := by
  have hstatus : ∀ t, (boot mlfqs values).status t
      = if t = 0 then .running else if t = 1 then .ready else .dying := by
    intro t
    simp only [status, boot]
    split
    · rfl
    · split <;> rfl
  refine ⟨⟨?_, List.nodup_nil, ?_, ?_, ?_, ?_, ?_⟩, ?_⟩
  · intro t ht
    cases ht
  · intro t
    show t ∈ [0, 1] ↔ _
    rw [hstatus]
    split
    · simp_all
    · split <;> simp_all
  · show [0, 1].Nodup
    decide
  · intro t ht
    obtain ⟨n, rfl⟩ : ∃ n, t = n + 2 := Nat.exists_eq_add_of_le' ht
    rw [hstatus, if_neg (by simp), if_neg (by simp)]
  · rw [hstatus]
    simp [boot]
  · intro l t ht
    cases ht
  · rw [hstatus]
    simp [boot]

end Pintos
