import Cs162.DonationReturn
import Cs162.Mlfqs

/-!
# The alarm clock

`timer_sleep` puts the thread on `threads_to_wakeup`, releases the lock of the
list and then blocks. The release may yield, and a thread that is preempted
there is on the list while it is only ready. A timer interrupt that finds it
due takes it off and calls `thread_unblock`, which asserts that it is blocked.
Nothing else goes wrong: a timer interrupt wakes only threads that sleep,
unless a due one has still to call `thread_block`, and none has where every
such release keeps the processor (`timerInterrupt_wakesSleepers`).
-/

namespace Pintos

open KernelList

namespace Kernel

variable {k k' k'' : Kernel} {t c : ThreadId} {f : Thread → Thread} {sw : Switch} {s : SemaRef}
  {l : LockId} {a : Action} {e : Event}

/-- The threads that a timer interrupt removes from `threads_to_wakeup`. -/
def dueSleepers (k : Kernel) : List ThreadId :=
  k.threadsToWakeup.takeWhile fun t => (k.threads t).wakeupTick ≤ (k.ticks + 1 : ℕ)

/-- **A timer interrupt wakes only threads that are blocked**, and no
assertion of its code fails. -/
def WakesSleepers (k : Kernel) : Prop :=
  (∀ t ∈ k.dueSleepers, k.status t = .blocked) ∧ k.timerInterrupt ≠ none

/-- None of the threads that are due has still to call `thread_block`. -/
def DueHaveBlocked (k : Kernel) : Prop :=
  ∀ t ∈ k.dueSleepers, (k.threads t).pending.head? ≠ some .threadBlock

/-! ## The loop over the list -/

/-- The loop comes to its end if those it takes off are blocked. -/
theorem wakeThreads_ne_none {list : List ThreadId} (hnodup : list.Nodup)
    (hblocked : ∀ t ∈ list.takeWhile fun t => (k.threads t).wakeupTick ≤ k.ticks,
      k.status t = .blocked) : wakeThreads list k ≠ none := by
  induction list generalizing k with
  | nil => simp [wakeThreads]
  | cons t list ih =>
    obtain ⟨ht, hnodup⟩ := List.nodup_cons.mp hnodup
    rw [wakeThreads]
    split
    · simp
    · rename_i hdue
      rw [List.takeWhile_cons_of_pos (by simpa using hdue)] at hblocked
      have hunblock : k.threadUnblock t = some (k.makeReady t) :=
        if_pos (hblocked t List.mem_cons_self)
      have htick : ∀ u, ((k.makeReady t).threads u).wakeupTick = (k.threads u).wakeupTick :=
        proj_update Thread.wakeupTick rfl
      rw [hunblock, Option.bind_some]
      refine ih hnodup fun u hu => ?_
      simp only [htick, show (k.makeReady t).ticks = k.ticks from rfl] at hu
      rw [status_makeReady, if_neg]
      · exact hblocked u (List.mem_cons_of_mem t hu)
      · rintro rfl
        exact ht (List.takeWhile_subset _ hu)

/-- Neither the list nor anything the loop reads of the threads changes. -/
structure SameSleepers (k k' : Kernel) : Prop where
  sleepers : k'.threadsToWakeup = k.threadsToWakeup
  ticks : k'.ticks = k.ticks
  status : ∀ t, k'.status t = k.status t
  wakeupTick : ∀ t, (k'.threads t).wakeupTick = (k.threads t).wakeupTick

theorem SameSleepers.refl (k : Kernel) : SameSleepers k k :=
  ⟨rfl, rfl, fun _ => rfl, fun _ => rfl⟩

theorem SameSleepers.trans (h : SameSleepers k k') (h' : SameSleepers k' k'') :
    SameSleepers k k'' where
  sleepers := h'.sleepers.trans h.sleepers
  ticks := h'.ticks.trans h.ticks
  status t := (h'.status t).trans (h.status t)
  wakeupTick t := (h'.wakeupTick t).trans (h.wakeupTick t)

theorem sameSleepers_mlfqsTick (k : Kernel) : SameSleepers k k.mlfqsTick := by
  refine IgnoresAccounts.mlfqsTick (P := SameSleepers k) ⟨fun _ _ _ _ h => h.trans ?_,
    fun _ _ h => h.trans ⟨rfl, rfl, fun _ => rfl, fun _ => rfl⟩⟩ (.refl k)
  exact ⟨rfl, rfl, proj_update Thread.status rfl, proj_update Thread.wakeupTick rfl⟩

theorem timerInterrupt_ne_none (hnodup : k.threadsToWakeup.Nodup)
    (hblocked : ∀ t ∈ k.dueSleepers, k.status t = .blocked) : k.timerInterrupt ≠ none := by
  unfold timerInterrupt
  set k₁ : Kernel := { k with ticks := k.ticks + 1, threadTicks := k.threadTicks + 1 } with hk₁
  have hsame : SameSleepers k₁ (if k₁.mlfqs then k₁.mlfqsTick else k₁) := by
    split
    · exact sameSleepers_mlfqsTick k₁
    · exact .refl k₁
  set k₂ := if k₁.mlfqs then k₁.mlfqsTick else k₁
  have hwake : wakeThreads k₂.threadsToWakeup k₂ ≠ none := by
    refine wakeThreads_ne_none (hsame.sleepers ▸ hnodup) fun t ht => ?_
    simp only [hsame.sleepers, hsame.ticks, hsame.wakeupTick] at ht
    exact (hsame.status t).trans (hblocked t ht)
  obtain ⟨k₃, hk₃⟩ := Option.ne_none_iff_exists'.mp hwake
  show (wakeThreads k₂.threadsToWakeup k₂).bind _ ≠ none
  rw [hk₃]
  simp

/-- **What decides whether a timer interrupt goes well.** -/
theorem Parked.wakesSleepers_iff (h : k.Parked) : k.WakesSleepers ↔ k.DueHaveBlocked := by
  have hmem : ∀ t ∈ k.dueSleepers, t ∈ k.threadsToWakeup :=
    fun t ht => List.takeWhile_subset _ ht
  constructor
  · intro hwakes t ht hhead
    have hblocked : (k.threads t).status = .blocked := hwakes.1 t ht
    rcases h.sleeping t (hmem t ht) with ⟨hawake, -⟩ | ⟨-, hunblocked⟩
    · rcases hawake with hawake | hawake
      · exact absurd (hawake.symm.trans hblocked) (by simp)
      · exact absurd (hawake.symm.trans hblocked) (by simp)
    · rw [hhead] at hunblocked
      cases hunblocked
  · intro hdue
    have hblocked : ∀ t ∈ k.dueSleepers, k.status t = .blocked := fun t ht =>
      ((h.sleeping t (hmem t ht)).resolve_left fun hawake => hdue t ht hawake.2).1
    exact ⟨hblocked, timerInterrupt_ne_none h.sleepers_nodup hblocked⟩

/-! ## Releases that keep the processor -/

/-- The priority a thread has once it has released a lock. -/
def priorityAfterRelease (k : Kernel) (l : LockId) : ℤ :=
  if k.mlfqs then k.priority k.current
  else k.neededPriority { k.threads k.current with
    orderedDonations := (k.threads k.current).orderedDonations.filter fun donor =>
      (k.threads donor).waitLock ≠ some l }

/-- No thread that is ready, or waits for the lock, outranks the one that is
about to release it. -/
def ReleaseKeeps (k : Kernel) (l : LockId) : Prop :=
  ∀ t ∈ k.readyList ++ k.waiters (.ofLock l), k.priority t ≤ k.priorityAfterRelease l

/-- **The condition on a step**: when a sleeper releases the lock of the list,
it keeps the processor. -/
def Undisturbed (k : Kernel) (e : Event) : Prop :=
  match k.action e with
  | some (.sleepEnqueue _) => k.ReleaseKeeps .sharedThreadsListLock
  | _ => True

instance (k : Kernel) (l : LockId) : Decidable (k.ReleaseKeeps l) :=
  inferInstanceAs (Decidable (∀ t ∈ _, _))

instance (k : Kernel) (e : Event) : Decidable (k.Undisturbed e) := by
  unfold Undisturbed
  split <;> infer_instance

/-- The ready list after `sema_up` has one of the waiters besides. -/
theorem mem_readyList_semaWake (h : k.semaWake s = some k') (ht : t ∈ k'.readyList) :
    t ∈ k.readyList ++ k.waiters s := by
  have hperm := perm_listSort k.comparePriority (k.waiters s)
  unfold semaWake at h
  obtain ⟨k₁, hk₁, rfl⟩ := Option.map_eq_some_iff.mp h
  split at hk₁
  · obtain rfl := Option.some.inj hk₁
    exact List.mem_append_left _ ht
  · rename_i u waiters hcons
    obtain ⟨-, rfl⟩ := threadUnblock_eq_some hk₁
    rcases mem_listInsertOrdered.mp ht with rfl | ht
    · rw [hcons] at hperm
      exact List.mem_append_right _ (hperm.subset List.mem_cons_self)
    · exact List.mem_append_left _ ht

theorem current_semaWake (h : k.semaWake s = some k') : k'.current = k.current := by
  unfold semaWake at h
  obtain ⟨k₁, hk₁, rfl⟩ := Option.map_eq_some_iff.mp h
  split at hk₁
  · exact Option.some.inj hk₁ ▸ rfl
  · obtain ⟨-, rfl⟩ := threadUnblock_eq_some hk₁
    rfl

theorem checkPriorityOrder_stay (h : ∀ t ∈ k.readyList, k.priority t ≤ k.priority k.current) :
    k.checkPriorityOrder = .stay k := by
  unfold checkPriorityOrder
  split
  · rfl
  · rename_i max hmax
    rw [if_neg (not_lt.mpr (h max (mem_of_listMax hmax)))]

theorem neededPriority_congr (h : ∀ t, k'.priority t = k.priority t) (th : Thread) :
    k'.neededPriority th = k.neededPriority th := by
  unfold neededPriority
  split
  · rfl
  · rw [h]

theorem ReleaseKeeps.stay (h : k.ReleaseKeeps l) (hsw : k.lockRelease l = some sw) :
    ∃ k', sw = .stay k' ∧ k'.current = k.current := by
  unfold lockRelease at hsw
  split at hsw
  · obtain ⟨k', hk', rfl⟩ := Option.map_eq_some_iff.mp hsw
    set k₁ := if k.mlfqs then k.dropHolder l
      else ((k.dropHolder l).removeDonations l).checkNeedsDonations with hk₁
    have hkeep : k₁.readyList = k.readyList ∧ k₁.waiters = k.waiters ∧ k₁.current = k.current := by
      rw [hk₁]
      split <;> exact ⟨rfl, rfl, rfl⟩
    set k₂ := (k.dropHolder l).removeDonations l with hk₂
    have hremoved : ∀ t, k₂.priority t = k.priority t :=
      proj_updateCurrent (k := k.dropHolder l) Thread.priority rfl
    have hcurrent : k₁.priority k.current = k.priorityAfterRelease l := by
      rw [hk₁]
      unfold priorityAfterRelease
      split
      · rfl
      · have hself : k₂.checkNeedsDonations.priority k.current
            = k₂.neededPriority (k₂.threads k.current) :=
          congrArg Thread.priority (Function.update_self (f := k₂.threads) ..)
        rw [hself, neededPriority_congr hremoved]
        exact congrArg k.neededPriority (Function.update_self (f := k.threads) ..)
    have hother : ∀ t, t ≠ k.current → k₁.priority t = k.priority t := by
      intro t ht
      rw [hk₁]
      split
      · rfl
      · refine Eq.trans ?_ (hremoved t)
        exact congrArg Thread.priority (Function.update_of_ne (f := k₂.threads) ht ..)
    refine ⟨k', checkPriorityOrder_stay fun t ht => ?_, (current_semaWake hk').trans hkeep.2.2⟩
    rw [(calm_semaWake hk').priority, (calm_semaWake hk').priority, current_semaWake hk',
      hkeep.2.2, hcurrent]
    have hmem := mem_readyList_semaWake hk' ht
    rw [hkeep.1, hkeep.2.1] at hmem
    by_cases htc : t = k.current
    · rw [htc, hcurrent]
    · rw [hother t htc]
      exact h t hmem
  · cases hsw

theorem ReleaseKeeps.same (h : k.ReleaseKeeps l) (hsame : SameDonations k k')
    (hcurrent : k'.current = k.current) (hready : k'.readyList = k.readyList)
    (hwaiters : k'.waiters = k.waiters) : k'.ReleaseKeeps l := by
  have hpriority : k'.priorityAfterRelease l = k.priorityAfterRelease l := by
    unfold priorityAfterRelease neededPriority
    simp only [hsame.mlfqs, hcurrent, hsame.priority, hsame.donors, hsame.origPriority,
      hsame.waitLock]
  unfold ReleaseKeeps
  simp only [hready, hwaiters, hsame.priority, hpriority]
  exact h

/-! ## Who is on the list -/

/-- **What a piece of code of a thread leaves alone**: the list, the clock, when threads are
to be woken, and what the other threads have still to run. No other thread becomes blocked. -/
structure SameAlarm (c : ThreadId) (k k' : Kernel) : Prop where
  sleepers : k'.threadsToWakeup = k.threadsToWakeup
  ticks : k'.ticks = k.ticks
  next : k.nextThread ≤ k'.nextThread
  wakeupTick : ∀ t < k.nextThread, (k'.threads t).wakeupTick = (k.threads t).wakeupTick
  pending : ∀ t < k.nextThread, t ≠ c → (k'.threads t).pending = (k.threads t).pending
  /-- A new thread has nothing to run yet. -/
  inherited : ∀ t, t ≠ c → (k'.threads t).pending ⊆ (k.threads t).pending
  blocked : ∀ t < k.nextThread, t ≠ c → k'.status t = .blocked → k.status t = .blocked

theorem SameAlarm.of_threads (hsleepers : k'.threadsToWakeup = k.threadsToWakeup)
    (hticks : k'.ticks = k.ticks) (hnext : k.nextThread ≤ k'.nextThread)
    (hthreads : k'.threads = k.threads) : SameAlarm c k k' := by
  refine ⟨hsleepers, hticks, hnext, fun t _ => ?_, fun t _ _ => ?_, fun t _ => ?_,
    fun t _ _ hblocked => ?_⟩
  · rw [hthreads]
  · rw [hthreads]
  · rw [hthreads]
    exact List.Subset.refl _
  · unfold status at hblocked ⊢
    rwa [hthreads] at hblocked

theorem SameAlarm.refl (k : Kernel) : SameAlarm c k k := .of_threads rfl rfl le_rfl rfl

theorem SameAlarm.trans (h : SameAlarm c k k') (h' : SameAlarm c k' k'') : SameAlarm c k k'' where
  sleepers := h'.sleepers.trans h.sleepers
  ticks := h'.ticks.trans h.ticks
  next := h.next.trans h'.next
  wakeupTick t ht := (h'.wakeupTick t (ht.trans_le h.next)).trans (h.wakeupTick t ht)
  pending t ht hne := (h'.pending t (ht.trans_le h.next) hne).trans (h.pending t ht hne)
  inherited t hne := List.Subset.trans (h'.inherited t hne) (h.inherited t hne)
  blocked t ht hne hblocked :=
    h.blocked t ht hne (h'.blocked t (ht.trans_le h.next) hne hblocked)

/-- A change to one record: what others than the thread whose code it is may see. -/
theorem SameAlarm.of_update {th : Thread} (hsleepers : k'.threadsToWakeup = k.threadsToWakeup)
    (hticks : k'.ticks = k.ticks) (hnext : k.nextThread ≤ k'.nextThread)
    (hthreads : k'.threads = Function.update k.threads t th)
    (htick : th.wakeupTick = (k.threads t).wakeupTick)
    (hpending : t ≠ c → th.pending = (k.threads t).pending)
    (hblocked : t ≠ c → th.status = .blocked → k.status t = .blocked) : SameAlarm c k k' := by
  have hrecord (u : ThreadId) : k'.threads u = if u = t then th else k.threads u := by
    rw [hthreads, Function.update_apply]
  have hsame (u : ThreadId) (hne : u ≠ c) : (k'.threads u).pending = (k.threads u).pending := by
    rw [hrecord]
    split
    · rename_i heq
      rw [heq] at hne ⊢
      exact hpending hne
    · rfl
  refine ⟨hsleepers, hticks, hnext, fun u _ => ?_, fun u _ => hsame u, fun u hne => ?_,
    fun u _ hne hu => ?_⟩
  · rw [hrecord]
    split
    · rename_i heq
      rw [heq, htick]
    · rfl
  · rw [hsame u hne]
    exact List.Subset.refl _
  · unfold status at hu ⊢
    rw [hrecord] at hu
    split at hu
    · rename_i heq
      rw [heq] at hne ⊢
      exact hblocked hne hu
    · exact hu

/-- A thread gets another state, in which it is not blocked. -/
theorem SameAlarm.of_status {status : ThreadStatus}
    (hsleepers : k'.threadsToWakeup = k.threadsToWakeup) (hticks : k'.ticks = k.ticks)
    (hnext : k.nextThread ≤ k'.nextThread)
    (hthreads : k'.threads = Function.update k.threads t { k.threads t with status := status })
    (hstatus : status ≠ .blocked) : SameAlarm c k k' :=
  .of_update hsleepers hticks hnext hthreads rfl (fun _ => rfl)
    fun _ hblocked => absurd hblocked hstatus

/-- A change to the record of the thread whose code it is. -/
theorem SameAlarm.updateCurrent (k : Kernel) (f : Thread → Thread)
    (htick : (f (k.threads k.current)).wakeupTick = (k.threads k.current).wakeupTick) :
    SameAlarm k.current k (k.updateCurrent f) :=
  .of_update rfl rfl le_rfl rfl htick (absurd rfl) (absurd rfl)

theorem sameAlarm_schedule (k : Kernel) : SameAlarm c k k.schedule :=
  .of_status rfl rfl le_rfl rfl ThreadStatus.noConfusion

theorem sameAlarm_makeReady (k : Kernel) (t : ThreadId) : SameAlarm c k (k.makeReady t) :=
  .of_status rfl rfl le_rfl rfl ThreadStatus.noConfusion

theorem sameAlarm_threadUnblock (h : k.threadUnblock t = some k') : SameAlarm c k k' :=
  (threadUnblock_eq_some h).2 ▸ sameAlarm_makeReady k t

theorem sameAlarm_threadYield (k : Kernel) : SameAlarm c k k.threadYield.finish := by
  unfold threadYield
  split
  · exact (sameAlarm_makeReady k _).trans (sameAlarm_schedule _)
  · refine SameAlarm.trans ?_ (sameAlarm_schedule _)
    exact .of_status rfl rfl le_rfl rfl ThreadStatus.noConfusion

theorem sameAlarm_checkPriorityOrder (k : Kernel) : SameAlarm c k k.checkPriorityOrder.finish :=
  checkPriorityOrder_cases k (.refl k) (sameAlarm_threadYield k)

theorem sameAlarm_semaWake (h : k.semaWake s = some k') : SameAlarm c k k' := by
  unfold semaWake at h
  obtain ⟨k₁, hk₁, rfl⟩ := Option.map_eq_some_iff.mp h
  refine SameAlarm.trans ?_ (SameAlarm.of_threads (k := k₁) rfl rfl le_rfl rfl)
  split at hk₁
  · exact Option.some.inj hk₁ ▸ .refl k
  · refine SameAlarm.trans ?_ (sameAlarm_threadUnblock hk₁)
    exact .of_threads rfl rfl le_rfl rfl

theorem sameAlarm_semaUp (h : k.semaUp s = some sw) : SameAlarm c k sw.finish := by
  obtain ⟨k', hk', rfl⟩ := Option.map_eq_some_iff.mp h
  exact (sameAlarm_semaWake hk').trans (sameAlarm_checkPriorityOrder k')

theorem sameAlarm_checkNeedsDonations (k : Kernel) : SameAlarm c k k.checkNeedsDonations := by
  unfold checkNeedsDonations
  exact .of_update rfl rfl le_rfl rfl rfl (fun _ => rfl) fun _ h => h

theorem sameAlarm_lockRelease (h : k.lockRelease l = some sw) : SameAlarm c k sw.finish := by
  unfold lockRelease at h
  split at h
  · refine SameAlarm.trans ?_ (sameAlarm_semaUp h)
    have hdropped : SameAlarm c k (k.dropHolder l) := .of_threads rfl rfl le_rfl rfl
    split
    · exact hdropped
    · refine hdropped.trans (SameAlarm.trans ?_ (sameAlarm_checkNeedsDonations _))
      exact .of_update rfl rfl le_rfl rfl rfl (fun _ => rfl) fun _ h => h
  · cases h

theorem sameAlarm_ignoresAccounts (k : Kernel) : IgnoresAccounts (SameAlarm c k) :=
  ⟨fun _ _ _ _ h => h.trans (.of_update rfl rfl le_rfl rfl rfl (fun _ => rfl) fun _ h => h),
    fun _ _ h => h.trans (.of_threads rfl rfl le_rfl rfl)⟩

theorem sameAlarm_threadSetPriority (k : Kernel) (priority : ℤ) :
    SameAlarm c k (k.threadSetPriority priority).finish := by
  unfold threadSetPriority
  split
  · exact .refl k
  · have hset : SameAlarm c k (k.updateCurrent fun t => { t with origPriority := priority }) :=
      .of_update rfl rfl le_rfl rfl rfl (fun _ => rfl) fun _ h => h
    have hneeded := hset.trans (sameAlarm_checkNeedsDonations _)
    dsimp only
    split
    · exact (sameAlarm_ignoresAccounts k).donate hneeded _ _
    · split
      · exact hneeded.trans (sameAlarm_checkPriorityOrder _)
      · exact hneeded

theorem sameAlarm_threadBlock (k : Kernel) (next : Action) :
    SameAlarm k.current k (k.threadBlock next).finish := by
  refine SameAlarm.trans ?_ (sameAlarm_schedule _)
  exact .updateCurrent k _ rfl

theorem sameAlarm_semaWait {next : Action} (k : Kernel) (s : SemaRef) :
    SameAlarm k.current k (k.semaWait s next).finish := by
  have hblock (k₁ : Kernel) (hcurrent : k₁.current = k.current)
      (hsame : SameAlarm k.current k k₁) : SameAlarm k.current k (k₁.threadBlock next).finish := by
    refine hsame.trans ?_
    rw [← hcurrent]
    exact sameAlarm_threadBlock k₁ next
  unfold semaWait
  split
  · exact hblock _ rfl (.of_threads rfl rfl le_rfl rfl)
  · obtain ⟨hcurrent, -, -⟩ := donate_lists k.nextThread k.current k
    refine hblock _ hcurrent
      (((sameAlarm_ignoresAccounts k).donate (.refl k) k.nextThread k.current).trans ?_)
    exact .of_threads rfl rfl le_rfl rfl

theorem sameAlarm_lockWait (k : Kernel) (l : LockId) :
    SameAlarm k.current k (k.lockWait l).finish := by
  unfold lockWait
  split
  · exact sameAlarm_semaWait k _
  · refine (?_ : SameAlarm k.current k (k.take l)).trans ?_
    · exact .of_threads rfl rfl le_rfl rfl
    · exact .updateCurrent (k.take l) (fun t => { t with waitLock := none }) rfl

theorem sameAlarm_lockAcquire (h : k.lockAcquire l = some sw) :
    SameAlarm k.current k sw.finish := by
  obtain ⟨-, rfl⟩ := lockAcquire_eq_some h
  rcases joinDonors_cases k l with heq | ⟨u, -, heq⟩
  · rw [heq]
    exact sameAlarm_lockWait k l
  · rw [heq]
    have hwait : SameAlarm k.current k (k.setWaitLock (some l)) :=
      SameAlarm.updateCurrent k _ rfl
    refine (hwait.trans ?_).trans
      (sameAlarm_lockWait ((k.setWaitLock (some l)).addDonor u) l)
    exact .of_update rfl rfl le_rfl rfl rfl (fun _ => rfl) fun _ h => h

theorem sameAlarm_initThread (k : Kernel) (priority : ℤ) :
    SameAlarm c k (k.initThread priority) := by
  have hothers (t : ThreadId) (ht : t < k.nextThread) :
      (k.initThread priority).threads t = k.threads t :=
    Function.update_of_ne ht.ne ..
  refine ⟨rfl, rfl, Nat.le_succ _, fun t ht => ?_, fun t ht _ => ?_, fun t _ => ?_,
    fun t ht _ hblocked => ?_⟩
  · rw [hothers t ht]
  · rw [hothers t ht]
  · by_cases ht : t = k.nextThread
    · have hnew : (k.initThread priority).threads t = newThread priority := by
        rw [ht]
        exact Function.update_self ..
      rw [hnew]
      exact List.nil_subset _
    · have hold : (k.initThread priority).threads t = k.threads t := Function.update_of_ne ht ..
      rw [hold]
      exact List.Subset.refl _
  · unfold status at hblocked ⊢
    rwa [hothers t ht] at hblocked

/-- **Only `timer_sleep` puts a thread on the list**, only the timer takes one off, and a
thread runs only its own code. -/
theorem sameAlarm_handle (hsw : k.handle e = some sw) (htimer : e ≠ .timerInterrupt)
    (hne : ∀ wakeupTick, k.action e ≠ some (.sleepEnqueue wakeupTick)) :
    SameAlarm k.current k sw.finish := by
  rcases handle_eq_some hsw with ⟨a, ha, -, hsw⟩ | ⟨heq, -⟩ | ⟨n, k', -, hk', rfl⟩
  · set k₁ := k.goOn (k.threads k.current).pending.tail
    refine (show SameAlarm k.current k k₁ from SameAlarm.updateCurrent k _ rfl).trans ?_
    show SameAlarm k₁.current k₁ sw.finish
    cases a with
    | lockAcquire l => exact sameAlarm_lockAcquire hsw
    | lockWait l => exact Option.some.inj hsw ▸ sameAlarm_lockWait k₁ l
    | lockTryAcquire l =>
      obtain ⟨-, rfl⟩ | ⟨-, rfl⟩ := lockTryAcquire_eq_some hsw
      · exact .of_threads rfl rfl le_rfl rfl
      · exact .refl k₁
    | lockRelease l => exact sameAlarm_lockRelease hsw
    | semaDown n =>
      obtain rfl := Option.some.inj hsw
      unfold semaDown
      split
      · exact sameAlarm_semaWait k₁ _
      · exact .of_threads rfl rfl le_rfl rfl
    | semaTryDown n =>
      exact Option.some.inj hsw ▸ semaTryDown_cases _ n (.refl k₁) (.of_threads rfl rfl le_rfl rfl)
    | semaUp n => exact sameAlarm_semaUp hsw
    | threadCreate priority =>
      obtain ⟨-, rfl⟩ := threadCreate_eq_some hsw
      refine (sameAlarm_initThread k₁ priority).trans ?_
      exact SameAlarm.updateCurrent (k₁.initThread priority) _ rfl
    | startThread t =>
      obtain ⟨k', hk', rfl⟩ := Option.map_eq_some_iff.mp hsw
      exact (sameAlarm_threadUnblock hk').trans (sameAlarm_checkPriorityOrder k')
    | threadYield => exact Option.some.inj hsw ▸ sameAlarm_threadYield k₁
    | threadSetPriority priority =>
      exact Option.some.inj hsw ▸ sameAlarm_threadSetPriority k₁ priority
    | threadSetNice nice =>
      obtain rfl := Option.some.inj hsw
      refine SameAlarm.trans ?_ (sameAlarm_checkPriorityOrder _)
      refine (sameAlarm_ignoresAccounts k₁).calculatePriority ?_ _
      exact SameAlarm.updateCurrent k₁ _ rfl
    | threadBlock => exact Option.some.inj hsw ▸ sameAlarm_threadBlock k₁ _
    | unblocked => exact Option.some.inj hsw ▸ .refl k₁
    | threadUnblock t =>
      obtain ⟨k', hk', rfl⟩ := Option.map_eq_some_iff.mp hsw
      exact sameAlarm_threadUnblock hk'
    | threadExit =>
      obtain rfl := Option.some.inj hsw
      unfold threadExit
      refine SameAlarm.trans ?_ (sameAlarm_schedule _)
      have hdie (k : Kernel) : SameAlarm k₁.current k k.die := by
        unfold die
        exact .of_status rfl rfl le_rfl rfl ThreadStatus.noConfusion
      split
      · refine SameAlarm.trans ?_ (hdie _)
        exact ⟨rfl, rfl, le_rfl, fun _ _ => rfl, fun _ _ _ => rfl,
          fun _ _ => List.Subset.refl _, fun _ _ _ h => h⟩
      · exact hdie k₁
    | timerSleep ticks =>
      exact Option.some.inj hsw ▸
        timerSleep_cases _ ticks (.refl k₁) (SameAlarm.updateCurrent k₁ _ rfl)
    | sleepStart wakeupTick =>
      simp only [Action.run, sleepStart] at hsw
      exact (SameAlarm.updateCurrent k₁ _ rfl).trans (sameAlarm_lockAcquire hsw)
    | sleepEnqueue wakeupTick => exact absurd ha (hne wakeupTick)
  · exact absurd heq htimer
  · exact sameAlarm_semaWake hk'

theorem Parked.sleeper_lt (h : k.Parked) (hwf : k.Wf) (ht : t ∈ k.threadsToWakeup) :
    t < k.nextThread := by
  refine hwf.lt_of_alive fun hdying => ?_
  unfold status at hdying
  rcases h.sleeping t ht with ⟨hawake | hawake, -⟩ | ⟨hblocked, -⟩
  · exact absurd (hawake.symm.trans hdying) (by simp)
  · exact absurd (hawake.symm.trans hdying) (by simp)
  · exact absurd (hblocked.symm.trans hdying) (by simp)

/-! ## The timer interrupt -/

/-- Whether a thread is to be woken at a value of the clock. -/
def due (k : Kernel) (now : ℕ) (t : ThreadId) : Bool := (k.threads t).wakeupTick ≤ now

theorem dueSleepers_eq (k : Kernel) :
    k.dueSleepers = k.threadsToWakeup.takeWhile (k.due (k.ticks + 1)) := rfl

/-- **What the loop over the list does**: those in front that are due are blocked, and are
made ready, and the others stay. -/
structure Woken (k k' : Kernel) (list : List ThreadId) : Prop where
  blocked : ∀ t ∈ list.takeWhile (k.due k.ticks), k.status t = .blocked
  sleepers : k'.threadsToWakeup = list.dropWhile (k.due k.ticks)
  status : ∀ t, k'.status t
    = if t ∈ list.takeWhile (k.due k.ticks) then .ready else k.status t
  ticks : k'.ticks = k.ticks
  wakeupTick : ∀ t, (k'.threads t).wakeupTick = (k.threads t).wakeupTick
  idle : k'.idleThread = k.idleThread

theorem woken_wakeThreads {list : List ThreadId} (hnodup : list.Nodup)
    (h : wakeThreads list k = some k') : Woken k k' list := by
  induction list generalizing k with
  | nil =>
    obtain rfl := Option.some.inj h
    exact ⟨nofun, rfl, fun _ => rfl, rfl, fun _ => rfl, rfl⟩
  | cons t list ih =>
    obtain ⟨ht, hnodup⟩ := List.nodup_cons.mp hnodup
    rw [wakeThreads] at h
    split at h
    · rename_i hlater
      obtain rfl := Option.some.inj h
      have hnot : ¬ k.due k.ticks t = true := by simpa [due] using hlater
      refine ⟨?_, ?_, fun u => ?_, rfl, fun _ => rfl, rfl⟩
      · rw [List.takeWhile_cons_of_neg hnot]
        exact nofun
      · rw [List.dropWhile_cons_of_neg hnot]
      · rw [List.takeWhile_cons_of_neg hnot, if_neg List.not_mem_nil]
        rfl
    · rename_i hdue
      obtain ⟨k₁, hk₁, h⟩ := Option.bind_eq_some_iff.mp h
      obtain ⟨hblocked, rfl⟩ := threadUnblock_eq_some hk₁
      have hpos : k.due k.ticks t = true := by simpa [due] using hdue
      have htick (u : ThreadId) :
          ((k.makeReady t).threads u).wakeupTick = (k.threads u).wakeupTick :=
        proj_update Thread.wakeupTick rfl u
      have hsame : (k.makeReady t).due (k.makeReady t).ticks = k.due k.ticks := by
        funext u
        unfold due
        rw [htick]
        rfl
      obtain ⟨hblocked', hsleepers, hstatus, hticks', hwakeup, hidle⟩ := ih hnodup h
      rw [hsame] at hblocked' hsleepers
      simp only [hsame] at hstatus
      have hmem (u : ThreadId) (hu : u ∈ list.takeWhile (k.due k.ticks)) : u ≠ t := by
        rintro rfl
        exact ht (List.takeWhile_subset _ hu)
      refine ⟨fun u hu => ?_, ?_, fun u => ?_, hticks', fun u => (hwakeup u).trans (htick u), hidle⟩
      · rw [List.takeWhile_cons_of_pos hpos] at hu
        rcases List.mem_cons.mp hu with rfl | hu
        · exact hblocked
        · have hother := hblocked' u hu
          rwa [status_makeReady, if_neg (hmem u hu)] at hother
      · rw [List.dropWhile_cons_of_pos hpos]
        exact hsleepers
      · rw [hstatus, List.takeWhile_cons_of_pos hpos, status_makeReady]
        by_cases hut : u = t
        · subst hut
          simp
        · simp [hut]

/-- **What a timer interrupt does to the list.** -/
structure Alarmed (k k' : Kernel) : Prop where
  sleepers : k'.threadsToWakeup = k.threadsToWakeup.dropWhile (k.due (k.ticks + 1))
  blocked : ∀ t ∈ k.dueSleepers, k.status t = .blocked
  status : ∀ t, t ≠ k.idleThread →
    (k'.status t = .blocked ↔ k.status t = .blocked ∧ t ∉ k.dueSleepers)
  ticks : k'.ticks = k.ticks + 1
  next : k'.nextThread = k.nextThread
  wakeupTick : ∀ t, (k'.threads t).wakeupTick = (k.threads t).wakeupTick
  pending : ∀ t, (k'.threads t).pending = (k.threads t).pending

/-- The thread that is chosen to run was not blocked, unless it is the idle thread. -/
theorem Wf.blocked_schedule (h : k.Wf) (hne : t ≠ k.idleThread) :
    k.schedule.status t = .blocked ↔ k.status t = .blocked := by
  have hstatus : k.schedule.status t = if t = k.nextThreadToRun then .running else k.status t :=
    status_updateCurrent _ t _
  rw [hstatus]
  split
  · rename_i hchosen
    refine iff_of_false nofun fun hblocked => ?_
    unfold nextThreadToRun at hchosen
    cases hready : k.readyList with
    | nil =>
      rw [hready] at hchosen
      exact hne hchosen
    | cons u list =>
      rw [hready] at hchosen
      refine h.not_ready_of_blocked hblocked ?_
      rw [hready, show t = u from hchosen]
      exact List.mem_cons_self
  · exact Iff.rfl

theorem Active.blocked_threadYield (h : k.Active) (hne : t ≠ k.idleThread) :
    k.threadYield.finish.status t = .blocked ↔ k.status t = .blocked := by
  have hwf := h.threadYield
  unfold Kernel.threadYield at hwf ⊢
  split at hwf
  · rw [if_pos ‹_›]
    refine (Wf.blocked_schedule hwf hne).trans ?_
    rw [status_makeReady]
    split
    · rename_i heq
      rw [heq, h.running]
      exact iff_of_false nofun nofun
    · exact Iff.rfl
  · rename_i hidle
    rw [if_neg hidle]
    refine (Wf.blocked_schedule hwf hne).trans ?_
    rw [status_updateCurrent, if_neg fun heq => hne (heq.trans (not_not.mp hidle))]

theorem wakeupTick_threadYield (k : Kernel) (t : ThreadId) :
    (k.threadYield.finish.threads t).wakeupTick = (k.threads t).wakeupTick := by
  have hschedule (k₁ : Kernel) :
      (k₁.schedule.threads t).wakeupTick = (k₁.threads t).wakeupTick := by
    unfold schedule
    rw [proj_updateCurrent Thread.wakeupTick rfl]
  unfold threadYield
  split
  · exact (hschedule _).trans (proj_update Thread.wakeupTick rfl t)
  · exact (hschedule _).trans (proj_updateCurrent Thread.wakeupTick rfl t)

theorem nextThread_mlfqsTick (k : Kernel) : k.mlfqsTick.nextThread = k.nextThread :=
  IgnoresAccounts.mlfqsTick (P := fun k' => k'.nextThread = k.nextThread)
    ⟨fun _ _ _ _ h => h, fun _ _ h => h⟩ rfl

/-- **The parts of a timer interrupt**: the accounts, the loop over the list, and the yield. -/
theorem timerInterrupt_parts (hactive : k.Active) (h : k.timerInterrupt = some sw) :
    ∃ k₁ k₂ : Kernel,
      SameSleepers { k with ticks := k.ticks + 1, threadTicks := k.threadTicks + 1 } k₁
      ∧ k₁.idleThread = k.idleThread ∧ k₁.nextThread = k.nextThread
      ∧ k₁.current = k.current ∧ k₁.readyList = k.readyList
      ∧ wakeThreads k₁.threadsToWakeup k₁ = some k₂ ∧ k₂.Active
      ∧ (sw = k₂.threadYield ∨ sw = .stay k₂) := by
  unfold timerInterrupt at h
  obtain ⟨k₂, hk₂, h⟩ := Option.bind_eq_some_iff.mp h
  set k₁ : Kernel := { k with ticks := k.ticks + 1, threadTicks := k.threadTicks + 1 }
  have hactive₁ : k₁.Active :=
    hactive.of_same (fun _ => rfl) rfl rfl rfl rfl hactive.holder_lt rfl
  have hticked : SameSleepers k₁ (if k₁.mlfqs then k₁.mlfqsTick else k₁)
      ∧ (if k₁.mlfqs then k₁.mlfqsTick else k₁).idleThread = k.idleThread
      ∧ (if k₁.mlfqs then k₁.mlfqsTick else k₁).nextThread = k.nextThread
      ∧ (if k₁.mlfqs then k₁.mlfqsTick else k₁).current = k.current
      ∧ (if k₁.mlfqs then k₁.mlfqsTick else k₁).readyList = k.readyList
      ∧ (if k₁.mlfqs then k₁.mlfqsTick else k₁).Active := by
    split
    · have honly := onlyThreads_ticked hactive.all_nodup
      exact ⟨sameSleepers_mlfqsTick k₁, honly.idle, nextThread_mlfqsTick k₁, honly.current,
        honly.ready, hactive₁.mlfqsTick⟩
    · exact ⟨.refl k₁, rfl, rfl, rfl, rfl, hactive₁⟩
  obtain ⟨hsame, hidle, hnext, hcurrent, hready, hactive'⟩ := hticked
  refine ⟨_, k₂, hsame, hidle, hnext, hcurrent, hready, hk₂, hactive'.wakeThreads hk₂, ?_⟩
  obtain rfl := Option.some.inj h
  split
  · exact .inl rfl
  · exact .inr rfl

theorem alarmed_timerInterrupt (hactive : k.Active) (hnodup : k.threadsToWakeup.Nodup)
    (h : k.timerInterrupt = some sw) : Alarmed k sw.finish := by
  obtain ⟨k₁, k₂, hsame, hidle, hnext, -, -, hk₂, hactive₂, hsw⟩ := timerInterrupt_parts hactive h
  have hwoken := woken_wakeThreads (hsame.sleepers ▸ hnodup) hk₂
  have hdue : k₁.due k₁.ticks = k.due (k.ticks + 1) := by
    funext t
    unfold due
    rw [hsame.wakeupTick, hsame.ticks]
  have hlist : k₁.threadsToWakeup = k.threadsToWakeup := hsame.sleepers
  obtain ⟨hblocked, hsleepers, hstatus, hticks, hwakeup, hidle₂⟩ := hwoken
  simp only [hdue, hlist, ← dueSleepers_eq] at hblocked hsleepers hstatus
  have hrest : SameAlarm k₂.current k₂ sw.finish ∧ sw.finish.nextThread = k₂.nextThread
      ∧ (∀ t, (sw.finish.threads t).wakeupTick = (k₂.threads t).wakeupTick)
      ∧ ∀ t, t ≠ k₂.idleThread → (sw.finish.status t = .blocked ↔ k₂.status t = .blocked) := by
    rcases hsw with rfl | rfl
    · exact ⟨sameAlarm_threadYield k₂, (calm_threadYield k₂).next, wakeupTick_threadYield k₂,
        fun t hne => hactive₂.blocked_threadYield hne⟩
    · exact ⟨.refl k₂, rfl, fun _ => rfl, fun _ _ => Iff.rfl⟩
  refine ⟨hrest.1.sleepers.trans hsleepers, fun t ht => ?_, fun t hne => ?_, ?_, ?_, fun t => ?_,
    fun t => (quiet_timerInterrupt h t).2⟩
  · exact (hsame.status t).symm.trans (hblocked t ht)
  · rw [hrest.2.2.2 t (by rw [hidle₂, hidle]; exact hne), hstatus, hsame.status]
    split
    · rename_i hmem
      exact iff_of_false nofun fun hboth => hboth.2 hmem
    · rename_i hmem
      exact ⟨fun hb => ⟨hb, hmem⟩, And.left⟩
  · exact hrest.1.ticks.trans (hticks.trans hsame.ticks)
  · exact hrest.2.1.trans ((calm_wakeThreads hk₂).next.trans hnext)
  · exact (hrest.2.2.1 t).trans ((hwakeup t).trans (hsame.wakeupTick t))

/-- No thread enters `threads_to_wakeup`, and those on it, but for one, have
still to run what they had. -/
def Rests (c : ThreadId) (k k' : Kernel) : Prop :=
  ∀ t ∈ k'.threadsToWakeup, t ∈ k.threadsToWakeup
    ∧ (t ≠ c → (k'.threads t).pending = (k.threads t).pending)

/-- **Only `timer_sleep` puts a thread on the list**, and a thread runs only
its own code. -/
theorem rests_handle (hparked : k.Parked) (hactive : k.Active) (hsw : k.handle e = some sw)
    (hne : ∀ wakeupTick, k.action e ≠ some (.sleepEnqueue wakeupTick)) :
    Rests k.current k sw.finish := by
  by_cases htimer : e = .timerInterrupt
  · subst htimer
    simp only [handle] at hsw
    split at hsw
    · have halarmed := alarmed_timerInterrupt hactive hparked.sleepers_nodup hsw
      intro t ht
      rw [halarmed.sleepers] at ht
      exact ⟨List.dropWhile_subset _ ht, fun _ => halarmed.pending t⟩
    · cases hsw
  · have hsame := sameAlarm_handle hsw htimer hne
    intro t ht
    rw [hsame.sleepers] at ht
    exact ⟨ht, hsame.pending t (hparked.sleeper_lt hactive.toWf ht)⟩

/-- **All sleepers have blocked**, but for the running thread, which may be
about to. -/
def AtRest (k : Kernel) : Prop :=
  ∀ t ∈ k.threadsToWakeup, (k.threads t).pending.head? = some .threadBlock → t = k.current

/-- A thread that enters the list and keeps the processor is about to
block. -/
theorem AtRest.sleepEnqueue {wakeupTick : ℤ} (h : k.AtRest)
    (hkeeps : k.ReleaseKeeps .sharedThreadsListLock)
    (hsw : (k.goOn (k.threads k.current).pending.tail).sleepEnqueue wakeupTick = some sw) :
    sw.finish.AtRest := by
  simp only [Kernel.sleepEnqueue] at hsw
  set k₀ := k.goOn (k.threads k.current).pending.tail
  set k₁ := k₀.updateCurrent fun t => { t with wakeupTick := wakeupTick, slept := true }
  set list := listInsertOrdered k₁.compareThreadsByWakeupTime k₁.current k₁.threadsToWakeup
  set k₂ : Kernel := { k₁ with threadsToWakeup := list }
  have hgoOn : SameDonations k k₀ := by
    refine SameDonations.update k k.current (f := fun t => { t with pending := _ }) ?_
    exact fun _ => ⟨rfl, rfl, rfl, rfl⟩
  have hslept : SameDonations k₀ k₁ := by
    refine SameDonations.update k₀ k₀.current
      (f := fun t => { t with wakeupTick := wakeupTick, slept := true }) ?_
    exact fun _ => ⟨rfl, rfl, rfl, rfl⟩
  have hsame : SameDonations k k₂ := (hgoOn.trans hslept).trans (.of_threads rfl rfl rfl rfl)
  have hothers : ∀ t, t ≠ k.current → k₂.threads t = k.threads t := by
    intro t ht
    refine Eq.trans (Function.update_of_ne ht ..) ?_
    exact Function.update_of_ne ht ..
  obtain ⟨k', rfl, hcurrent⟩ := (hkeeps.same hsame rfl rfl rfl).stay hsw
  intro t ht hhead
  rw [(sameAlarm_lockRelease (c := k.current) hsw).sleepers] at ht
  rw [(quiet_lockRelease hsw t).2] at hhead
  refine Eq.trans ?_ hcurrent.symm
  rcases mem_listInsertOrdered.mp ht with rfl | hmem
  · rfl
  · by_contra htc
    rw [hothers t htc] at hhead
    exact htc (h t hmem hhead)

/-- A thread that is about to block does nothing else, and interrupts are
off. -/
theorem handle_of_threadBlock (hhead : (k.threads k.current).pending.head? = some .threadBlock)
    (hsw : k.handle e = some sw) :
    sw = (k.goOn (k.threads k.current).pending.tail).threadBlock .unblocked := by
  obtain ⟨rest, hpending⟩ : ∃ rest, (k.threads k.current).pending = .threadBlock :: rest :=
    ⟨_, List.eq_cons_of_mem_head? hhead⟩
  have hoff : k.interruptsOn = false := by
    unfold interruptsOn
    rw [hpending]
  cases e with
  | call a => simp [handle, hpending] at hsw
  | resume =>
    simp only [handle, hpending] at hsw
    rw [hpending]
    exact (Option.some.inj hsw).symm
  | timerInterrupt => simp [handle, hoff] at hsw
  | semaUpInterrupt n => simp [handle, hoff] at hsw

/-- **A step that meets the condition leaves no other thread between the list
and `thread_block`.** -/
theorem AtRest.handle (h : k.AtRest) (hparked : k.Parked) (hactive : k.Active)
    (hundisturbed : k.Undisturbed e) (hsw : k.handle e = some sw) : sw.finish.AtRest := by
  by_cases henqueue : ∃ wakeupTick, k.action e = some (.sleepEnqueue wakeupTick)
  · obtain ⟨wakeupTick, ha⟩ := henqueue
    unfold Undisturbed at hundisturbed
    rw [ha] at hundisturbed
    rcases handle_eq_some hsw with ⟨a, ha', -, hrun⟩ | ⟨rfl, -⟩ | ⟨n, k', rfl, -, -⟩
    · obtain rfl := Option.some.inj (ha.symm.trans ha')
      exact h.sleepEnqueue hundisturbed hrun
    · cases ha
    · cases ha
  · have hrests := rests_handle hparked hactive hsw (not_exists.mp henqueue)
    intro t ht hhead
    obtain ⟨hmem, hpending⟩ := hrests t ht
    by_cases htc : t = k.current
    · have hblock : (k.threads k.current).pending.head? = some .threadBlock := by
        refine And.right ((hparked.sleeping _ (htc ▸ hmem)).resolve_right fun hblocked => ?_)
        exact absurd (hactive.running.symm.trans hblocked.1) (by simp)
      obtain rfl := handle_of_threadBlock hblock hsw
      set k₁ := k.goOn (k.threads k.current).pending.tail
      have hpending : ((k₁.threadBlock .unblocked).finish.threads k.current).pending
          = .unblocked :: (k₁.threads k.current).pending := by
        refine ((calm_schedule _).pending k.current).trans ?_
        exact congrArg Thread.pending (Function.update_self (f := k₁.threads) ..)
      rw [htc, hpending] at hhead
      cases hhead
    · rw [hpending htc] at hhead
      exact absurd (h t hmem hhead) htc

/-- Where interrupts are on, the running thread is not about to block. -/
theorem AtRest.dueHaveBlocked (h : k.AtRest) (hon : k.interruptsOn = true) : k.DueHaveBlocked := by
  intro t ht hhead
  have hcurrent := h t (List.takeWhile_subset _ ht) hhead
  rw [hcurrent] at hhead
  unfold interruptsOn at hon
  split at hon <;> simp_all

end Kernel

/-- A step of the kernel that meets the condition. -/
def UndisturbedStep (k : Kernel) (e : Event) (k' : Kernel) : Prop :=
  KernelStep k e k' ∧ k.Undisturbed e

/-- **The alarm clock wakes threads that sleep**: in every run from the start,
in either mode, in which every sleeper keeps the processor when it releases
the lock of the list, whenever a timer interrupt can arrive, the threads it
takes off `threads_to_wakeup` are blocked and no assertion fails. In any run
at all this is so exactly as long as no thread that is due has still to call
`thread_block`. -/
theorem timerInterrupt_wakesSleepers (mlfqs : Bool) (values : ℕ → ℕ) :
    (∀ events k, Transition.Run UndisturbedStep (boot mlfqs values) events k →
      k.interruptsOn = true → k.WakesSleepers)
    ∧ ∀ events k, Transition.Run KernelStep (boot mlfqs values) events k →
      (k.WakesSleepers ↔ k.DueHaveBlocked) := by
  refine ⟨fun events k hrun hon => ?_, fun events k hrun => ?_⟩
  · have hinv : k.Active ∧ k.Parked ∧ k.AtRest := hrun.invariant
      (I := fun _ k => k.Active ∧ k.Parked ∧ k.AtRest)
      ⟨boot_active mlfqs values, boot_parked mlfqs values,
        fun t ht => absurd ht List.not_mem_nil⟩ (by
        rintro _ k e k' ⟨hactive, hparked, hrest⟩ ⟨hstep, hundisturbed⟩
        refine ⟨hstep.active hactive, hstep.parked hparked hactive, ?_⟩
        obtain ⟨sw, hsw, rfl⟩ := Option.map_eq_some_iff.mp hstep.2
        exact hrest.handle hparked hactive hundisturbed hsw)
    exact hinv.2.1.wakesSleepers_iff.mpr (hinv.2.2.dueHaveBlocked hon)
  · have hinv : k.Active ∧ k.Parked := hrun.invariant (I := fun _ k => k.Active ∧ k.Parked)
      ⟨boot_active mlfqs values, boot_parked mlfqs values⟩
      fun _ k e k' h hstep => ⟨hstep.active h.1, hstep.parked h.2 h.1⟩
    exact hinv.2.wakesSleepers_iff

/-- A thread of higher priority than the main one's sleeps for a tick. -/
def sleepEvents : List Event :=
  createEvents 40 ++ [.call (.timerSleep 1), .resume, .resume, .resume]

/-- The next timer interrupt wakes it. -/
theorem timerInterrupt_wakesSleepers_sleep :
    ∃ k, Transition.Run UndisturbedStep (boot false fun _ => 0) sleepEvents k
      ∧ k.interruptsOn = true ∧ k.dueSleepers = [2] ∧ k.WakesSleepers := by
  have hrun : (sleepEvents.foldlM (fun (k : Kernel) e =>
      if k.Undisturbed e then k.next e else none) (boot false fun _ => 0)).any
      (fun k => k.interruptsOn ∧ k.dueSleepers = [2]) = true := by
    decide +kernel
  obtain ⟨k, hk, hstate⟩ := (Option.any_eq_true _ _).mp hrun
  have hrun : Transition.Run UndisturbedStep (boot false fun _ => 0) sleepEvents k := by
    refine Transition.Run.of_foldlM (fun k e k' h => ?_) hk
    split at h
    · rename_i hundisturbed
      exact ⟨Kernel.kernelStep_of_next h, hundisturbed⟩
    · cases h
  obtain ⟨hon, hdue⟩ := of_decide_eq_true hstate
  exact ⟨k, hrun, hon, hdue, (timerInterrupt_wakesSleepers false _).1 _ k hrun hon⟩

/-- A thread of higher priority sleeps for a tick. The main thread calls
`timer_sleep` as well, but after it has read the tick counter the timer
interrupts and wakes the other; so the main thread is preempted when it
releases the lock of the list. -/
def preemptedSleepEvents : List Event :=
  createEvents 50 ++ [.call (.timerSleep 1), .resume, .resume, .resume,
    .call (.timerSleep 2), .timerInterrupt, .resume, .resume, .resume]

/-- **A wake-up of a thread that is not asleep**: the next timer interrupt
finds the main thread due, which is only ready, and the assertion in
`thread_unblock` fails. -/
theorem timerInterrupt_finds_ready :
    ∃ k, Transition.Run KernelStep (boot false fun _ => 0) preemptedSleepEvents k
      ∧ k.interruptsOn = true ∧ k.dueSleepers = [0] ∧ k.status 0 = .ready
      ∧ k.timerInterrupt = none := by
  have hrun : (preemptedSleepEvents.foldlM Kernel.next (boot false fun _ => 0)).any
      (fun k => k.interruptsOn ∧ k.dueSleepers = [0] ∧ k.status 0 = .ready
        ∧ k.timerInterrupt.isNone) = true := by
    decide +kernel
  obtain ⟨k, hk, hstate⟩ := (Option.any_eq_true _ _).mp hrun
  have hrun : Transition.Run KernelStep (boot false fun _ => 0) preemptedSleepEvents k := by
    refine Transition.Run.of_foldlM (fun k e k' h => ?_) hk
    exact Kernel.kernelStep_of_next h
  obtain ⟨hon, hdue, hready, hnone⟩ := of_decide_eq_true hstate
  exact ⟨k, hrun, hon, hdue, hready, Option.isNone_iff_eq_none.mp hnone⟩

end Pintos
