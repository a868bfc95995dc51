import Cs162.Donation
import Cs162.Run
import Cs162.WaitLock

/-!
# The order of the ready list

The scheduler takes the front of `ready_list`, which is right as long as the
list is in the order of the effective priorities. Threads are inserted in
order, and the running thread, which is on no list, may change its own
priority at will. The order is lost when the priority of a thread on the list
changes: by a donation to a thread that was preempted while it holds a lock,
and, with the advanced scheduler, by the recalculation of all priorities once
a second; neither sorts the list again. Where no step does this, every call of
`schedule` picks a thread of highest priority (`schedule_picksHighest`).
-/

namespace Pintos

open KernelList

namespace Kernel

variable {k k' : Kernel} {t u : ThreadId} {l : LockId} {s : SemaRef} {f : Thread → Thread}
  {sw : Switch} {e : Event} {p : ThreadId → ℤ}

/-- The ready list is in the order of the effective priorities. -/
def Sorted (k : Kernel) : Prop :=
  k.readyList.Pairwise fun t u => k.priority u ≤ k.priority t

/-- **What `schedule` is to do**: no thread on the ready list has a higher
effective priority than the one `next_thread_to_run` returns. -/
def PicksHighest (k : Kernel) : Prop :=
  ∀ t ∈ k.readyList, k.priority t ≤ k.priority k.nextThreadToRun

theorem Sorted.picksHighest (h : k.Sorted) : k.PicksHighest := by
  intro t ht
  unfold Sorted at h
  unfold nextThreadToRun
  cases hready : k.readyList with
  | nil => simp [hready] at ht
  | cons u list =>
    rw [hready] at h ht
    rcases List.mem_cons.mp ht with rfl | ht
    · exact le_rfl
    · exact (List.pairwise_cons.mp h).1 t ht

/-! ## The condition on a step -/

/-- The lock that the code about to run waits for if it is held. -/
def waitsFor (k : Kernel) (e : Event) : Option LockId :=
  match k.action e with
  | some (.lockAcquire l) | some (.lockWait l) => some l
  | some (.sleepStart _) => some .sharedThreadsListLock
  | _ => none

/-- Donating to a lock does not put a thread on the ready list above one in
front of it: who stands in front of a donee is a donee too or has at least the
donor's priority. -/
def DonatesInOrder (k : Kernel) (l : LockId) : Prop :=
  k.readyList.Pairwise fun u t => Donee k (k.priority k.current) l t →
    k.priority k.current ≤ k.priority u ∨ Donee k (k.priority k.current) l u

/-- The priority that the recalculation gives to a thread. -/
def recalculated (k : Kernel) (t : ThreadId) : ℤ :=
  if t = k.idleThread then k.priority t
  else calculatedPriority { k.threads t with
    recentCpu := calculatedRecentCpu k.calculateLoadAvg.loadAvg (k.threads t) }

/-- **The condition under which a step keeps the ready list in order.** -/
def Orderly (k : Kernel) (e : Event) : Prop :=
  (k.mlfqs = false → ∀ l, k.waitsFor e = some l → k.DonatesInOrder l)
    ∧ (k.mlfqs = true → e = .timerInterrupt → (k.ticks + 1) % timerFreq = 0 →
      k.readyList.Pairwise fun t u => k.recalculated u ≤ k.recalculated t)

/-! ## Insertion and removal -/

theorem Sorted.of_same (h : k.Sorted) (hready : k'.readyList = k.readyList)
    (hpriority : ∀ t ∈ k.readyList, k'.priority t = k.priority t) : k'.Sorted := by
  unfold Sorted at h ⊢
  rw [hready]
  refine h.imp_of_mem fun ht hu hle => ?_
  rw [hpriority _ ht, hpriority _ hu]
  exact hle

theorem Sorted.updateCurrent (h : k.Sorted) (hactive : k.Active) : (k.updateCurrent f).Sorted := by
  refine h.of_same rfl fun t ht => ?_
  have hne : t ≠ k.current := by
    rintro rfl
    exact hactive.current_not_ready ht
  exact congrArg Thread.priority (Function.update_of_ne hne ..)

theorem Sorted.schedule (h : k.Sorted) : k.schedule.Sorted := by
  have htail : ({ k with current := k.nextThreadToRun, readyList := k.readyList.tail,
                         threadTicks := 0 } : Kernel).Sorted := List.Pairwise.tail h
  exact htail.of_same rfl fun t _ => (calm_schedule k).priority t

theorem Sorted.makeReady (h : k.Sorted) (t : ThreadId) : (k.makeReady t).Sorted := by
  have hinsert : ({ k with readyList := listInsertOrdered k.comparePriority t k.readyList }
      : Kernel).Sorted := by
    refine pairwise_listInsertOrdered (fun a b c hab hbc => le_trans hbc hab) ?_ ?_ h
    · intro u _ hless
      exact le_of_lt (of_decide_eq_true hless)
    · intro u _ hless
      exact not_lt.mp (of_decide_eq_false hless)
  exact hinsert.of_same rfl fun u _ => (calm_makeReady k t).priority u

end Kernel

/-- The order in the state a piece of code ends in. -/
def Switch.Sorted : Switch → Prop
  | .stay k => k.Sorted
  | .schedule k => k.Sorted

theorem Switch.Sorted.finish {sw : Switch} (h : sw.Sorted) : sw.finish.Sorted := by
  cases sw with
  | stay k => exact h
  | schedule k => exact Kernel.Sorted.schedule h

namespace Kernel

variable {k k' : Kernel} {t u : ThreadId} {l : LockId} {s : SemaRef} {f : Thread → Thread}
  {sw : Switch} {e : Event} {p : ThreadId → ℤ}

theorem Sorted.threadUnblock (h : k.Sorted) (hk : k.threadUnblock t = some k') : k'.Sorted :=
  (threadUnblock_eq_some hk).2 ▸ h.makeReady t

theorem Sorted.threadYield (h : k.Sorted) (hactive : k.Active) : k.threadYield.Sorted := by
  unfold Kernel.threadYield
  split
  · exact h.makeReady _
  · exact h.updateCurrent hactive

theorem Sorted.checkPriorityOrder (h : k.Sorted) (hactive : k.Active) :
    k.checkPriorityOrder.Sorted :=
  checkPriorityOrder_cases k h (h.threadYield hactive)

theorem Sorted.startThread (h : k.Sorted) (hactive : k.Active)
    (hsw : k.startThread t = some sw) : sw.Sorted := by
  unfold Kernel.startThread at hsw
  obtain ⟨k', hk', rfl⟩ := Option.map_eq_some_iff.mp hsw
  exact (h.threadUnblock hk').checkPriorityOrder (hactive.threadUnblock hk')

theorem Sorted.semaWake (h : k.Sorted) (hk : k.semaWake s = some k') : k'.Sorted := by
  unfold Kernel.semaWake at hk
  obtain ⟨k₁, hk₁, rfl⟩ := Option.map_eq_some_iff.mp hk
  have hwoken : k₁.Sorted := by
    split at hk₁
    · exact Option.some.inj hk₁ ▸ h
    · refine Sorted.threadUnblock ?_ hk₁
      exact h
  exact hwoken

theorem Sorted.semaUp (h : k.Sorted) (hactive : k.Active) (hsw : k.semaUp s = some sw) :
    sw.Sorted := by
  unfold Kernel.semaUp at hsw
  obtain ⟨k', hk', rfl⟩ := Option.map_eq_some_iff.mp hsw
  exact (h.semaWake hk').checkPriorityOrder (hactive.semaWake hk')

theorem Sorted.initThread (h : k.Sorted) (hactive : k.Active) (priority : ℤ) :
    (k.initThread priority).Sorted := by
  refine h.of_same rfl fun t ht => ?_
  have hlt : t < k.nextThread := hactive.lt_of_alive (by simp [hactive.ready_status t ht])
  exact congrArg Thread.priority (Function.update_of_ne (Nat.ne_of_lt hlt) ..)

theorem Sorted.threadCreate (h : k.Sorted) (hactive : k.Active) {priority : ℤ}
    (hsw : k.threadCreate priority = some sw) : sw.Sorted := by
  obtain ⟨-, rfl⟩ := threadCreate_eq_some hsw
  exact (h.initThread hactive priority).updateCurrent (hactive.initThread priority)

theorem Sorted.threadExit (h : k.Sorted) : k.threadExit.Sorted := by
  have hdie : ∀ k : Kernel, k.Sorted → k.die.Sorted := by
    intro k h
    exact h.of_same rfl fun t _ => (calm_die k).priority t
  unfold Kernel.threadExit
  show Sorted (die _)
  split
  · exact hdie _ (h.of_same rfl fun _ _ => rfl)
  · exact hdie _ h

theorem Sorted.calculatePriority (h : k.Sorted) (hactive : k.Active) :
    (k.calculatePriority k.current).Sorted := by
  unfold Kernel.calculatePriority
  split
  · exact h
  · exact h.updateCurrent hactive

theorem Sorted.threadSetNice (h : k.Sorted) (hactive : k.Active) (nice : ℤ) :
    (k.threadSetNice nice).Sorted := by
  unfold Kernel.threadSetNice
  refine Sorted.checkPriorityOrder (Sorted.calculatePriority ?_ ?_)
    (active_ignoresAccounts.calculatePriority ?_ _)
  · exact h.updateCurrent hactive
  · exact hactive.updateCurrent (fun _ => rfl)
  · exact hactive.updateCurrent (fun _ => rfl)

/-! ## Donation -/

theorem Donated.le_of_donee (hp : Donated k u p)
    (ht : Donee k (k.priority u) l t) {v : ThreadId} (hv : v = u ∨ p v ≠ k.priority v)
    (hwait : (k.threads v).waitLock = some l) : k.priority u ≤ p t := by
  induction ht generalizing v with
  | holder hholder _ => exact hp.passed_on v _ _ hv hwait hholder
  | next hholder hlow hnext _ ih =>
    refine ih (.inr ?_) hnext
    have hraised := hp.passed_on v _ _ hv hwait hholder
    exact ne_of_gt (lt_of_lt_of_le hlow hraised)

theorem Sorted.donated (h : k.Sorted) (hp : Donated k k.current p)
    (horder : ∀ l, (k.threads k.current).waitLock = some l → k.DonatesInOrder l) :
    (k.setPriorities p).Sorted := by
  cases hwait : (k.threads k.current).waitLock with
  | none =>
    refine h.of_same rfl fun t _ => (hp.raised t).resolve_right ?_
    rintro ⟨-, -, l, hl, -⟩
    rw [hwait] at hl
    cases hl
  | some l =>
    refine (h.and (horder l hwait)).imp fun {u t} hut => ?_
    obtain ⟨hle, hdonee⟩ := hut
    show p t ≤ p u
    rcases hp.raised t with heq | ⟨-, heq, m, hm, ht⟩
    · exact heq ▸ le_trans hle (hp.le u)
    · obtain rfl : l = m := Option.some.inj (hwait.symm.trans hm)
      rw [heq]
      rcases hdonee ht with hge | hu
      · exact le_trans hge (hp.le u)
      · exact hp.le_of_donee hu (.inl rfl) hwait

/-- Donees are found by the holders, the priorities, and the `wait_lock` of
threads below the donor. -/
theorem Donee.congr {d : ℤ} (ht : Donee k d l t) (hholder : k'.holder = k.holder)
    (hpriority : ∀ t, k'.priority t = k.priority t)
    (hwait : ∀ t, k.priority t < d → (k'.threads t).waitLock = (k.threads t).waitLock) :
    Donee k' d l t := by
  induction ht with
  | holder hh hlow => exact .holder (hholder ▸ hh) (hpriority _ ▸ hlow)
  | next hh hlow hnext _ ih =>
    exact .next (hholder ▸ hh) (hpriority _ ▸ hlow) ((hwait _ hlow).trans hnext) ih

/-- The condition on a donation does not depend on the donor's own
`wait_lock`. -/
theorem DonatesInOrder.congr (h : k.DonatesInOrder l) (hready : k'.readyList = k.readyList)
    (hcurrent : k'.current = k.current) (hholder : k'.holder = k.holder)
    (hpriority : ∀ t, k'.priority t = k.priority t)
    (hwait : ∀ t, t ≠ k.current → (k'.threads t).waitLock = (k.threads t).waitLock) :
    k'.DonatesInOrder l := by
  have hlow : ∀ t, k.priority t < k.priority k.current →
      (k'.threads t).waitLock = (k.threads t).waitLock := by
    intro t ht
    refine hwait t ?_
    rintro rfl
    exact lt_irrefl _ ht
  have hiff : ∀ t, Donee k' (k.priority k.current) l t ↔ Donee k (k.priority k.current) l t :=
    fun t => ⟨fun ht => ht.congr hholder.symm (fun t => (hpriority t).symm)
      (fun t ht => (hlow t (hpriority t ▸ ht)).symm), fun ht => ht.congr hholder hpriority hlow⟩
  unfold DonatesInOrder
  rw [hready, hcurrent, hpriority]
  simp only [hiff, hpriority]
  exact h

/-! ## Locks and semaphores -/

theorem Sorted.threadBlock (h : k.Sorted) (hactive : k.Active) (next : Action) :
    (k.threadBlock next).Sorted :=
  h.updateCurrent hactive

theorem Sorted.semaWait {next : Action} (h : k.Sorted) (hactive : k.Active) (s : SemaRef)
    (horder : k.mlfqs = false → ∀ l, (k.threads k.current).waitLock = some l →
      k.DonatesInOrder l) : (k.semaWait s next).Sorted := by
  unfold Kernel.semaWait
  have hdonated : (if k.mlfqs then k else k.checkToDonate k.current).Sorted := by
    split
    · exact h
    · rename_i hmlfqs
      obtain ⟨p, hp, hdonated⟩ := checkToDonate_spec hactive.holder_lt k.current
      rw [hp]
      exact h.donated hdonated (horder (by simpa using hmlfqs))
  have hdonatedActive : (if k.mlfqs then k else k.checkToDonate k.current).Active := by
    split
    · exact hactive
    · exact hactive.checkToDonate _
  refine Sorted.threadBlock ?_ ?_ next
  · exact hdonated
  · exact hdonatedActive.of_same (fun _ => rfl) rfl rfl rfl rfl hdonatedActive.holder_lt rfl

theorem Sorted.lockWait (h : k.Sorted) (hactive : k.Active)
    (horder : k.mlfqs = false → ∀ l, (k.threads k.current).waitLock = some l →
      k.DonatesInOrder l) : (k.lockWait l).Sorted := by
  unfold Kernel.lockWait
  split
  · exact h.semaWait hactive _ horder
  · have htaken : (k.take l).Sorted := h
    exact htaken.updateCurrent (hactive.take l)

theorem Sorted.joinDonors (h : k.Sorted) (hactive : k.Active) (l : LockId) :
    (k.joinDonors l).Sorted := by
  rcases joinDonors_cases k l with heq | ⟨u, -, heq⟩
  · rwa [heq]
  · rw [heq]
    have hset : (k.setWaitLock (some l)).Sorted := h.updateCurrent hactive
    exact hset.of_same rfl fun t _ => priority_addDonor _ u t

theorem DonatesInOrder.joinDonors {m : LockId} (h : k.DonatesInOrder m) (l : LockId) :
    (k.joinDonors l).DonatesInOrder m := by
  rcases joinDonors_cases k l with heq | ⟨u, -, heq⟩
  · rwa [heq]
  · rw [heq]
    refine h.congr rfl rfl rfl (fun t => ?_) (fun t ht => ?_)
    · rw [priority_addDonor, priority_setWaitLock]
    · rw [(quiet_addDonor _ u t).1, setWaitLock, updateCurrent_threads,
        Function.update_of_ne ht]

theorem joinDonors_mlfqs (k : Kernel) (l : LockId) : (k.joinDonors l).mlfqs = k.mlfqs := by
  rcases joinDonors_cases k l with heq | ⟨u, -, heq⟩ <;> rw [heq]
  rfl

theorem Sorted.lockAcquire (h : k.Sorted) (hactive : k.Active)
    (hnone : (k.threads k.current).waitLock = none)
    (horder : k.mlfqs = false → k.DonatesInOrder l) (hsw : k.lockAcquire l = some sw) :
    sw.Sorted := by
  obtain ⟨-, rfl⟩ := lockAcquire_eq_some hsw
  refine (h.joinDonors hactive l).lockWait (hactive.joinDonors l) fun hmlfqs m hm => ?_
  rw [joinDonors_mlfqs] at hmlfqs
  obtain rfl : l = m := by
    rcases joinDonors_waitLock (l := l) hnone with hnone | hwait
    · rw [hnone] at hm
      cases hm
    · exact Option.some.inj (hwait.symm.trans hm)
  exact (horder hmlfqs).joinDonors l

theorem Sorted.lockTryAcquire (h : k.Sorted) (hsw : k.lockTryAcquire l = some sw) : sw.Sorted := by
  obtain ⟨-, rfl⟩ | ⟨-, rfl⟩ := lockTryAcquire_eq_some hsw
  · exact h
  · exact h

theorem Sorted.lockRelease (h : k.Sorted) (hactive : k.Active)
    (hsw : k.lockRelease l = some sw) : sw.Sorted := by
  unfold Kernel.lockRelease at hsw
  split at hsw
  · have hdropped : (k.dropHolder l).Sorted := h
    have hactive := hactive.dropHolder l
    refine Sorted.semaUp ?_ ?_ hsw
    · split
      · exact hdropped
      · have hremoved : ((k.dropHolder l).removeDonations l).Sorted :=
          hdropped.updateCurrent hactive
        exact hremoved.updateCurrent (hactive.removeDonations l)
    · split
      · exact hactive
      · exact (hactive.removeDonations l).checkNeedsDonations
  · cases hsw

/-- Outside `lock_acquire` there is nobody to donate to. -/
theorem checkToDonate_of_none (h : (k.threads t).waitLock = none) : k.checkToDonate t = k := by
  unfold checkToDonate
  cases k.nextThread with
  | zero => rfl
  | succ n =>
    rw [donate]
    split
    · rfl
    · rename_i l hl
      rw [h] at hl
      cases hl

theorem Sorted.threadSetPriority (h : k.Sorted) (hactive : k.Active)
    (hnone : (k.threads k.current).waitLock = none) (priority : ℤ) :
    (k.threadSetPriority priority).Sorted := by
  unfold Kernel.threadSetPriority
  split
  · exact h
  · set k₁ := (k.updateCurrent fun t => { t with origPriority := priority }).checkNeedsDonations
      with hk₁
    have hset : (k.updateCurrent fun t => { t with origPriority := priority }).Sorted :=
      h.updateCurrent hactive
    have hsetActive : (k.updateCurrent fun t => { t with origPriority := priority }).Active :=
      hactive.updateCurrent (fun _ => rfl)
    have hneeded : k₁.Sorted := hset.updateCurrent hsetActive
    have hneededActive : k₁.Active := hsetActive.checkNeedsDonations
    have hnone : (k₁.threads k₁.current).waitLock = none := by
      rw [(quiet_checkNeedsDonations _ _).1]
      exact (proj_updateCurrent Thread.waitLock rfl k.current).trans hnone
    dsimp only
    split
    · rw [checkToDonate_of_none hnone]
      exact hneeded
    · split
      · exact hneeded.checkPriorityOrder hneededActive
      · exact hneeded

/-! ## The timer -/

theorem Sorted.wakeThreads {list : List ThreadId} (h : k.Sorted)
    (hk : wakeThreads list k = some k') : k'.Sorted :=
  wakeThreads_rule hk h (fun _ _ h => h) Sorted.threadUnblock

/-- The recalculation for one thread changes that thread only, and reads
nothing that it changes in others. -/
theorem recalculate_threads (k : Kernel) (t : ThreadId) :
    ((k.calculateRecentCpu t).calculatePriority t).loadAvg = k.loadAvg
      ∧ ((k.calculateRecentCpu t).calculatePriority t).idleThread = k.idleThread
      ∧ ((k.calculateRecentCpu t).calculatePriority t).readyList = k.readyList
      ∧ (∀ u, u ≠ t → ((k.calculateRecentCpu t).calculatePriority t).threads u = k.threads u)
      ∧ ((k.calculateRecentCpu t).calculatePriority t).priority t
        = if t = k.idleThread then k.priority t
          else calculatedPriority { k.threads t with
            recentCpu := calculatedRecentCpu k.loadAvg (k.threads t) } := by
  by_cases ht : t = k.idleThread
  · have hcpu : k.calculateRecentCpu t = k := if_pos ht
    rw [hcpu, show k.calculatePriority t = k from if_pos ht, if_pos ht]
    exact ⟨rfl, rfl, rfl, fun _ _ => rfl, rfl⟩
  · have hcpu : k.calculateRecentCpu t = k.update t fun th =>
        { th with recentCpu := calculatedRecentCpu k.loadAvg th } := if_neg ht
    rw [hcpu, show (k.update t _).calculatePriority t = (k.update t _).update t _ from if_neg ht,
      if_neg ht]
    refine ⟨rfl, rfl, rfl, fun u hu => ?_, ?_⟩
    · rw [update_threads, Function.update_of_ne hu, update_threads, Function.update_of_ne hu]
    · unfold Kernel.priority
      rw [update_threads, Function.update_self, update_threads, Function.update_self]

/-- The loop of `do_recalculate`, over a list without repetitions. -/
theorem foldl_recalculate {list : List ThreadId} (hnodup : list.Nodup) (k : Kernel) :
    let k' := list.foldl (fun k t => (k.calculateRecentCpu t).calculatePriority t) k
    k'.readyList = k.readyList ∧ (∀ t, t ∉ list → k'.priority t = k.priority t)
      ∧ ∀ t ∈ list, k'.priority t = if t = k.idleThread then k.priority t
        else calculatedPriority { k.threads t with
          recentCpu := calculatedRecentCpu k.loadAvg (k.threads t) } := by
  induction list generalizing k with
  | nil => exact ⟨rfl, fun _ _ => rfl, fun _ ht => absurd ht List.not_mem_nil⟩
  | cons u list ih =>
    obtain ⟨hu, hnodup⟩ := List.nodup_cons.mp hnodup
    obtain ⟨hload, hidle, hready, hothers, hself⟩ := recalculate_threads k u
    obtain ⟨hready', hout, hin⟩ := ih hnodup ((k.calculateRecentCpu u).calculatePriority u)
    refine ⟨hready'.trans hready, fun t ht => ?_, fun t ht => ?_⟩
    · obtain ⟨htu, ht⟩ := List.ne_and_not_mem_of_not_mem_cons ht
      exact (hout t ht).trans (congrArg Thread.priority (hothers t htu))
    · rcases List.mem_cons.mp ht with rfl | hmem
      · exact (hout t hu).trans hself
      · have htu : t ≠ u := by
          rintro rfl
          exact hu hmem
        rw [List.foldl_cons, hin t hmem, hidle, hload, Kernel.priority, hothers t htu]
        rfl

/-- The recalculation keeps the order if the new priorities have it. -/
theorem Sorted.recalculated (hactive : k.Active)
    (horder : k.readyList.Pairwise fun t u => k.recalculated u ≤ k.recalculated t) :
    k.tickIncrement.calculateLoadAvg.doRecalculate.Sorted := by
  have hkeep : k.tickIncrement.calculateLoadAvg.loadAvg = k.calculateLoadAvg.loadAvg
      ∧ k.tickIncrement.readyList = k.readyList ∧ k.tickIncrement.allList = k.allList
      ∧ k.tickIncrement.idleThread = k.idleThread
      ∧ ∀ t ∈ k.readyList, k.tickIncrement.threads t = k.threads t := by
    unfold tickIncrement
    split
    · exact ⟨rfl, rfl, rfl, rfl, fun _ _ => rfl⟩
    · refine ⟨rfl, rfl, rfl, rfl, fun t ht => Function.update_of_ne ?_ ..⟩
      rintro rfl
      exact hactive.current_not_ready ht
  obtain ⟨hload, hready, hall, hidle, hthreads⟩ := hkeep
  obtain ⟨hready', -, hin⟩ := foldl_recalculate
    (show k.tickIncrement.calculateLoadAvg.allList.Nodup from hall ▸ hactive.all_nodup)
    k.tickIncrement.calculateLoadAvg
  have hpriority : ∀ t ∈ k.readyList,
      k.tickIncrement.calculateLoadAvg.doRecalculate.priority t = k.recalculated t := by
    intro t ht
    have hmem : t ∈ k.tickIncrement.calculateLoadAvg.allList := by
      show t ∈ k.tickIncrement.allList
      rw [hall, hactive.all_mem, hactive.ready_status t ht]
      simp
    refine (hin t hmem).trans ?_
    rw [hload]
    show (if t = k.tickIncrement.idleThread then (k.tickIncrement.threads t).priority
      else calculatedPriority { k.tickIncrement.threads t with
        recentCpu := calculatedRecentCpu _ (k.tickIncrement.threads t) }) = _
    rw [hidle, hthreads t ht]
    rfl
  unfold Sorted
  rw [show k.tickIncrement.calculateLoadAvg.doRecalculate.readyList = k.readyList from
    hready'.trans hready]
  refine horder.imp_of_mem fun ht hu hle => ?_
  rw [hpriority _ ht, hpriority _ hu]
  exact hle

theorem Sorted.mlfqsTick (h : k.Sorted) (hactive : k.Active) (horder : k.ticks % timerFreq = 0 →
      k.readyList.Pairwise fun t u => k.recalculated u ≤ k.recalculated t) :
    k.mlfqsTick.Sorted := by
  have htick : k.tickIncrement.Sorted := by
    unfold Kernel.tickIncrement
    split
    · exact h
    · exact h.updateCurrent hactive
  have hticks : k.tickIncrement.ticks = k.ticks := by
    unfold Kernel.tickIncrement
    split <;> rfl
  unfold Kernel.mlfqsTick
  dsimp only
  rw [hticks]
  split
  · rename_i hsecond
    exact Sorted.recalculated hactive (horder hsecond)
  · split
    · exact htick.calculatePriority (active_ignoresAccounts.tickIncrement hactive)
    · exact htick

theorem Sorted.timerInterrupt (h : k.Sorted) (hactive : k.Active)
    (horder : k.mlfqs = true → (k.ticks + 1) % timerFreq = 0 →
      k.readyList.Pairwise fun t u => k.recalculated u ≤ k.recalculated t)
    (hsw : k.timerInterrupt = some sw) : sw.Sorted := by
  unfold Kernel.timerInterrupt at hsw
  obtain ⟨k₂, hk₂, hsw⟩ := Option.bind_eq_some_iff.mp hsw
  set k₁ : Kernel := { k with ticks := k.ticks + 1, threadTicks := k.threadTicks + 1 } with hk₁
  have hactive₁ : k₁.Active :=
    hactive.of_same (fun _ => rfl) rfl rfl rfl rfl hactive.holder_lt rfl
  have hsorted₁ : k₁.Sorted := h
  have hmlfqs : (if k₁.mlfqs then k₁.mlfqsTick else k₁).Sorted
      ∧ (if k₁.mlfqs then k₁.mlfqsTick else k₁).Active := by
    split
    · rename_i hmlfqs
      exact ⟨hsorted₁.mlfqsTick hactive₁ (horder hmlfqs), hactive₁.mlfqsTick⟩
    · exact ⟨hsorted₁, hactive₁⟩
  have hsorted₂ := hmlfqs.1.wakeThreads hk₂
  have hactive₂ := hmlfqs.2.wakeThreads hk₂
  obtain rfl := Option.some.inj hsw
  split
  · exact hsorted₂.threadYield hactive₂
  · exact hsorted₂

/-! ## Whole runs -/

theorem DonatesInOrder.updateCurrent (h : k.DonatesInOrder l)
    (hpriority : (f (k.threads k.current)).priority = k.priority k.current) :
    (k.updateCurrent f).DonatesInOrder l := by
  refine h.congr rfl rfl rfl (fun t => ?_) (fun t ht => ?_)
  · exact proj_updateCurrent Thread.priority hpriority t
  · rw [updateCurrent_threads, Function.update_of_ne ht]

/-- **Every piece of kernel code keeps the ready list in order**, if it meets
the condition. -/
theorem Sorted.handle (h : k.Sorted) (hactive : k.Active) (hwaits : k.WaitsInLock)
    (horderly : k.Orderly e) (hsw : k.handle e = some sw) : sw.Sorted := by
  rcases handle_eq_some hsw with ⟨a, ha, hfrom, hsw⟩ | ⟨he, hsw⟩ | ⟨n, k', -, hk', rfl⟩
  · set k₀ := k.goOn (k.threads k.current).pending.tail with hk₀
    have hsorted : k₀.Sorted := h.updateCurrent hactive
    have hactive : k₀.Active := hactive.goOn _
    have hnone : (∀ l, a ≠ .lockWait l) → (k₀.threads k₀.current).waitLock = none :=
      fun hne => (proj_updateCurrent Thread.waitLock rfl k.current).trans
        (hwaits.waitLock_eq_none hfrom hne)
    have horder : ∀ l, k.waitsFor e = some l → k₀.mlfqs = false → k₀.DonatesInOrder l :=
      fun l hl hmlfqs => DonatesInOrder.updateCurrent (horderly.1 hmlfqs l hl) rfl
    unfold waitsFor at horder
    rw [ha] at horder
    cases a with
    | lockAcquire l => exact hsorted.lockAcquire hactive (hnone (by simp)) (horder l rfl) hsw
    | lockWait l =>
      refine Option.some.inj hsw ▸ hsorted.lockWait hactive fun hmlfqs m hm => ?_
      rw [show (k₀.threads k₀.current).waitLock = (k.threads k.current).waitLock from
        proj_updateCurrent Thread.waitLock rfl k.current] at hm
      obtain rfl : l = m := by
        rcases hwaits.waitLock_of_loop hfrom with hnone | hwait
        · rw [hnone] at hm
          cases hm
        · exact Option.some.inj (hwait.symm.trans hm)
      exact horder l rfl hmlfqs
    | lockTryAcquire l => exact hsorted.lockTryAcquire hsw
    | lockRelease l => exact hsorted.lockRelease hactive hsw
    | semaDown n =>
      obtain rfl := Option.some.inj hsw
      unfold semaDown
      split
      · refine hsorted.semaWait hactive _ fun _ l hl => ?_
        rw [hnone (by simp)] at hl
        cases hl
      · exact hsorted
    | semaTryDown n =>
      exact Option.some.inj hsw ▸ semaTryDown_cases _ n hsorted hsorted
    | semaUp n => exact hsorted.semaUp hactive hsw
    | threadCreate priority => exact hsorted.threadCreate hactive hsw
    | startThread t => exact hsorted.startThread hactive hsw
    | threadYield => exact Option.some.inj hsw ▸ hsorted.threadYield hactive
    | threadSetPriority priority =>
      exact Option.some.inj hsw ▸ hsorted.threadSetPriority hactive (hnone (by simp)) priority
    | threadSetNice nice => exact Option.some.inj hsw ▸ hsorted.threadSetNice hactive nice
    | threadBlock => exact Option.some.inj hsw ▸ hsorted.threadBlock hactive _
    | unblocked => exact Option.some.inj hsw ▸ hsorted
    | threadUnblock t =>
      obtain ⟨k', hk', rfl⟩ := Option.map_eq_some_iff.mp hsw
      exact hsorted.threadUnblock hk'
    | threadExit => exact Option.some.inj hsw ▸ hsorted.threadExit
    | timerSleep ticks =>
      exact Option.some.inj hsw ▸ timerSleep_cases _ ticks hsorted (hsorted.updateCurrent hactive)
    | sleepStart wakeupTick =>
      simp only [Action.run, sleepStart] at hsw
      refine Sorted.lockAcquire ?_ ?_ ?_ ?_ hsw
      · exact hsorted.updateCurrent hactive
      · exact hactive.updateCurrent (fun _ => rfl)
      · exact (proj_updateCurrent Thread.waitLock rfl k₀.current).trans (hnone (by simp))
      · intro hmlfqs
        exact DonatesInOrder.updateCurrent (horder _ rfl hmlfqs) rfl
    | sleepEnqueue wakeupTick =>
      simp only [Action.run, sleepEnqueue] at hsw
      have hset := hsorted.updateCurrent (f := fun t =>
        { t with wakeupTick := wakeupTick, slept := true }) hactive
      have hsetActive := hactive.updateCurrent (f := fun t =>
        { t with wakeupTick := wakeupTick, slept := true }) (fun _ => rfl)
      refine Sorted.lockRelease ?_ ?_ hsw
      · exact hset
      · exact hsetActive.of_same (fun _ => rfl) rfl rfl rfl rfl hsetActive.holder_lt rfl
  · exact h.timerInterrupt hactive (fun hmlfqs => horderly.2 hmlfqs he) hsw
  · exact h.semaWake hk'

end Kernel

/-- A step of the kernel that meets the condition. -/
def OrderlyStep (k : Kernel) (e : Event) (k' : Kernel) : Prop :=
  KernelStep k e k' ∧ k.Orderly e

/-- **The scheduler picks a thread of highest priority**: in every run from
the start, in either mode, all of whose steps meet the condition, when the
next piece of code calls `schedule`, no thread on the ready list has a higher
effective priority than the one `next_thread_to_run` returns. -/
theorem schedule_picksHighest {mlfqs : Bool} {values : ℕ → ℕ} {events : List Event}
    {k k₁ : Kernel} {e : Event}
    (hrun : Transition.Run OrderlyStep (boot mlfqs values) events k) (horderly : k.Orderly e)
    (hsw : k.handle e = some (.schedule k₁)) : k₁.PicksHighest := by
  have hinv : k.Active ∧ k.WaitsInLock ∧ k.Sorted := hrun.invariant
    (I := fun _ k => k.Active ∧ k.WaitsInLock ∧ k.Sorted)
    ⟨boot_active mlfqs values, boot_waitsInLock mlfqs values, List.Pairwise.nil⟩ (by
      rintro _ k e k' ⟨hactive, hwaits, hsorted⟩ ⟨hstep, horderly⟩
      obtain ⟨sw, hsw, rfl⟩ := Option.map_eq_some_iff.mp hstep.2
      exact ⟨hstep.active hactive, hwaits.handle hactive.current_lt hsw,
        (hsorted.handle hactive hwaits horderly hsw).finish⟩)
  obtain ⟨hactive, hwaits, hsorted⟩ := hinv
  have hsorted₁ : k₁.Sorted := hsorted.handle hactive hwaits horderly hsw
  exact hsorted₁.picksHighest

/-- The state in which the code of an event calls `schedule`, if it does. -/
def Kernel.atSchedule (k : Kernel) (e : Event) : Option Kernel :=
  match k.handle e with
  | some (.schedule k₁) => some k₁
  | _ => none

theorem Kernel.handle_of_atSchedule {k k₁ : Kernel} {e : Event} (h : k.atSchedule e = some k₁) :
    k.handle e = some (.schedule k₁) := by
  unfold atSchedule at h
  split at h
  · rename_i hsw
    exact Option.some.inj h ▸ hsw
  · cases h

/-- A list of one thread is always in order. -/
theorem Kernel.orderly_of_length_le {k : Kernel} (h : k.readyList.length ≤ 1) (e : Event) :
    k.Orderly e := by
  have hpairwise : ∀ r : ThreadId → ThreadId → Prop, k.readyList.Pairwise r := by
    intro r
    match hready : k.readyList with
    | [] => exact .nil
    | [t] => exact List.pairwise_singleton r t
    | t :: u :: list =>
      rw [hready] at h
      simp at h
  exact ⟨fun _ l _ => hpairwise _, fun _ _ _ => hpairwise _⟩

/-- The main thread takes a lock and creates a thread of lower priority and one of
higher priority, which preempts it. -/
def preemptedEvents : List Event :=
  .call (.lockAcquire (.lock 0)) :: createEvents 20 ++ createEvents 50

/-- The last thread donates its priority to the main thread and blocks on the lock, with
the two others on the ready list. -/
theorem schedule_picksHighest_donation :
    ∃ k k₁, Transition.Run OrderlyStep (boot false fun _ => 0) preemptedEvents k
      ∧ k.handle (.call (.lockAcquire (.lock 0))) = some (.schedule k₁)
      ∧ k₁.readyList = [0, 2] ∧ k₁.priority 2 = 20 ∧ k₁.priority 0 = 50 ∧ k₁.PicksHighest := by
  have hrun : (preemptedEvents.foldlM
      (fun (k : Kernel) e => if k.readyList.length ≤ 1 then k.next e else none)
      (boot false fun _ => 0)).any (fun k => k.readyList = [0, 2] ∧ k.mlfqs = false
        ∧ k.waitsFor (.call (.lockAcquire (.lock 0))) = some (.lock 0)
        ∧ k.holder (.lock 0) = some 0 ∧ k.priority 0 < k.priority k.current
        ∧ (k.atSchedule (.call (.lockAcquire (.lock 0)))).any
          (fun k₁ => k₁.readyList = [0, 2] ∧ k₁.priority 2 = 20 ∧ k₁.priority 0 = 50) = true)
      = true := by
    decide +kernel
  obtain ⟨k, hk, hstate⟩ := (Option.any_eq_true _ _).mp hrun
  have hrun : Transition.Run OrderlyStep (boot false fun _ => 0) preemptedEvents k := by
    refine Transition.Run.of_foldlM (fun k e k' h => ?_) hk
    split at h
    · rename_i hlength
      exact ⟨Kernel.kernelStep_of_next h, Kernel.orderly_of_length_le hlength e⟩
    · cases h
  obtain ⟨hready, hmlfqs, hwaits, hholder, hbelow, hswitch⟩ := of_decide_eq_true hstate
  obtain ⟨k₁, hk₁, hlist⟩ := (Option.any_eq_true _ _).mp hswitch
  obtain ⟨hready₁, hlow, hhigh⟩ := of_decide_eq_true hlist
  -- the main thread, in front, is the donee
  have horderly : k.Orderly (.call (.lockAcquire (.lock 0))) := by
    refine ⟨fun _ l hl => ?_, fun hadvanced => ?_⟩
    · cases hwaits.symm.trans hl
      unfold Kernel.DonatesInOrder
      rw [hready]
      exact .cons (fun _ _ _ => .inr (.holder hholder hbelow)) (List.pairwise_singleton _ _)
    · cases hmlfqs.symm.trans hadvanced
  have hsw := Kernel.handle_of_atSchedule hk₁
  exact ⟨k, k₁, hrun, hsw, hready₁, hlow, hhigh, schedule_picksHighest hrun horderly hsw⟩

/-- The main thread, holding a lock, creates a thread of its own priority and
then one of a higher priority, which preempts it: the main thread is now on
the ready list behind the first. -/
def overtakenEvents : List Event :=
  .call (.lockAcquire (.lock 0)) :: createEvents 31 ++ createEvents 50

/-- **A wrong pick**: the third thread donates its priority to the main thread
and blocks, and `schedule` runs the thread that stands in front. -/
theorem schedule_picks_lower :
    ∃ k k₁, Transition.Run KernelStep (boot false fun _ => 0) overtakenEvents k
      ∧ k.handle (.call (.lockAcquire (.lock 0))) = some (.schedule k₁)
      ∧ k₁.readyList = [2, 0] ∧ k₁.priority 2 = 31 ∧ k₁.priority 0 = 50
      ∧ ¬ k₁.PicksHighest := by
  have hrun : (overtakenEvents.foldlM Kernel.next (boot false fun _ => 0)).any (fun k =>
      (k.atSchedule (.call (.lockAcquire (.lock 0)))).any fun k₁ =>
        k₁.readyList = [2, 0] ∧ k₁.priority 2 = 31 ∧ k₁.priority 0 = 50) = true := by
    decide +kernel
  obtain ⟨k, hk, hstate⟩ := (Option.any_eq_true _ _).mp hrun
  have hrun : Transition.Run KernelStep (boot false fun _ => 0) overtakenEvents k := by
    refine Transition.Run.of_foldlM (fun k e k' h => ?_) hk
    exact Kernel.kernelStep_of_next h
  obtain ⟨k₁, hk₁, hlist⟩ := (Option.any_eq_true _ _).mp hstate
  obtain ⟨hready, hlow, hhigh⟩ := of_decide_eq_true hlist
  refine ⟨k, k₁, hrun, Kernel.handle_of_atSchedule hk₁, hready, hlow, hhigh, fun h => ?_⟩
  have hpick := h 0 (by simp [hready])
  rw [Kernel.nextThreadToRun, hready, List.headD_cons, hlow, hhigh] at hpick
  exact absurd hpick (by decide)

end Pintos
