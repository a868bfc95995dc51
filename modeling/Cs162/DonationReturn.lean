import Cs162.Donation
import Cs162.Mutex

/-!
# Donations are given back

A donated priority is owed to a thread that waits, by its `wait_lock`, for a
lock the raised thread holds (`Kernel.Repaid`). Whoever is woken by a release
but loses the lock again is no longer on any donation list and still keeps its
`wait_lock`, and its next donation goes to the new holder without an entry in
that thread's list. The entries of a list are therefore only some of those to
whom a priority is owed, and what returns a priority is not the list: it is
that `lock_release` computes it anew from `orig_priority`.
-/

namespace Pintos

open KernelList

namespace Kernel

variable {k k' k'' : Kernel} {t d h : ThreadId} {f : Thread → Thread} {sw : Switch} {s : SemaRef}
  {l : LockId} {a : Action} {e : Event}

/-- A thread's `wait_lock` is a lock that another one holds. -/
def DonatesTo (k : Kernel) (d t : ThreadId) : Prop :=
  ∃ l, (k.threads d).waitLock = some l ∧ k.holder l = some t

/-- What is above a thread's own priority was donated by a thread that still
waits for it. -/
def Owed (k : Kernel) (t : ThreadId) : Prop :=
  k.priority t ≤ (k.threads t).origPriority ∨ ∃ d, k.DonatesTo d t ∧ k.priority t ≤ k.priority d

/-- **No priority without a debt.** -/
structure Repaid (k : Kernel) : Prop where
  donating : k.mlfqs = false
  own : ∀ t, (k.threads t).origPriority ≤ k.priority t
  owed : ∀ t, k.Owed t
  donors : ∀ t, ∀ d ∈ (k.threads t).orderedDonations, k.DonatesTo d t
  waiting_lt : ∀ d l, (k.threads d).waitLock = some l → d < k.nextThread

/-- Nothing changes that has to do with donations. -/
structure SameDonations (k k' : Kernel) : Prop where
  mlfqs : k'.mlfqs = k.mlfqs
  holder : k'.holder = k.holder
  next : k'.nextThread = k.nextThread
  priority : ∀ t, k'.priority t = k.priority t
  origPriority : ∀ t, (k'.threads t).origPriority = (k.threads t).origPriority
  waitLock : ∀ t, (k'.threads t).waitLock = (k.threads t).waitLock
  donors : ∀ t, (k'.threads t).orderedDonations = (k.threads t).orderedDonations

theorem SameDonations.of_threads (hmlfqs : k'.mlfqs = k.mlfqs) (hholder : k'.holder = k.holder)
    (hnext : k'.nextThread = k.nextThread) (hthreads : k'.threads = k.threads) :
    SameDonations k k' := by
  refine ⟨hmlfqs, hholder, hnext, fun t => ?_, fun t => ?_, fun t => ?_, fun t => ?_⟩
  · unfold Kernel.priority
    rw [hthreads]
  · rw [hthreads]
  · rw [hthreads]
  · rw [hthreads]

theorem SameDonations.refl (k : Kernel) : SameDonations k k := .of_threads rfl rfl rfl rfl

theorem SameDonations.trans (h : SameDonations k k') (h' : SameDonations k' k'') :
    SameDonations k k'' where
  mlfqs := h'.mlfqs.trans h.mlfqs
  holder := h'.holder.trans h.holder
  next := h'.next.trans h.next
  priority t := (h'.priority t).trans (h.priority t)
  origPriority t := (h'.origPriority t).trans (h.origPriority t)
  waitLock t := (h'.waitLock t).trans (h.waitLock t)
  donors t := (h'.donors t).trans (h.donors t)

theorem SameDonations.update (k : Kernel) (t : ThreadId)
    (hf : ∀ th, (f th).priority = th.priority ∧ (f th).origPriority = th.origPriority
      ∧ (f th).waitLock = th.waitLock ∧ (f th).orderedDonations = th.orderedDonations) :
    SameDonations k (k.update t f) :=
  ⟨rfl, rfl, rfl, proj_update Thread.priority (hf _).1,
    proj_update Thread.origPriority (hf _).2.1, proj_update Thread.waitLock (hf _).2.2.1,
    proj_update Thread.orderedDonations (hf _).2.2.2⟩

theorem SameDonations.donatesTo (h : SameDonations k k') (d t : ThreadId) :
    k'.DonatesTo d t ↔ k.DonatesTo d t := by
  unfold DonatesTo
  rw [h.waitLock, h.holder]

theorem Repaid.same (h : k.Repaid) (hsame : SameDonations k k') : k'.Repaid where
  donating := hsame.mlfqs.trans h.donating
  own t := by
    rw [hsame.origPriority, hsame.priority]
    exact h.own t
  owed t := by
    simp only [Owed, hsame.origPriority, hsame.priority, hsame.donatesTo]
    exact h.owed t
  donors t d hd := by
    rw [hsame.donors] at hd
    rw [hsame.donatesTo]
    exact h.donors t d hd
  waiting_lt d l hl := by
    rw [hsame.waitLock] at hl
    rw [hsame.next]
    exact h.waiting_lt d l hl

/-! ## The scheduler's functions -/

theorem sameDonations_schedule (k : Kernel) : SameDonations k k.schedule := by
  unfold schedule
  refine SameDonations.trans ?_ (SameDonations.update _ _ fun _ => ⟨rfl, rfl, rfl, rfl⟩)
  exact .of_threads rfl rfl rfl rfl

theorem sameDonations_makeReady (k : Kernel) (t : ThreadId) : SameDonations k (k.makeReady t) := by
  unfold makeReady
  refine SameDonations.trans ?_ (SameDonations.update _ _ fun _ => ⟨rfl, rfl, rfl, rfl⟩)
  exact .of_threads rfl rfl rfl rfl

theorem sameDonations_threadUnblock (h : k.threadUnblock t = some k') : SameDonations k k' :=
  (threadUnblock_eq_some h).2 ▸ sameDonations_makeReady k t

theorem sameDonations_threadYield (k : Kernel) : SameDonations k k.threadYield.state := by
  unfold threadYield
  split
  · exact sameDonations_makeReady k _
  · show SameDonations k (k.updateCurrent _)
    exact SameDonations.update k _ fun _ => ⟨rfl, rfl, rfl, rfl⟩

theorem sameDonations_checkPriorityOrder (k : Kernel) :
    SameDonations k k.checkPriorityOrder.state :=
  checkPriorityOrder_cases k (.refl k) (sameDonations_threadYield k)

theorem sameDonations_semaWake (h : k.semaWake s = some k') : SameDonations k k' := by
  unfold semaWake at h
  obtain ⟨k₁, hk₁, rfl⟩ := Option.map_eq_some_iff.mp h
  have hwoken : SameDonations k k₁ := by
    split at hk₁
    · exact Option.some.inj hk₁ ▸ .refl k
    · refine SameDonations.trans ?_ (sameDonations_threadUnblock hk₁)
      exact .of_threads rfl rfl rfl rfl
  exact hwoken.trans (.of_threads rfl rfl rfl rfl)

theorem sameDonations_semaUp (h : k.semaUp s = some sw) : SameDonations k sw.state := by
  obtain ⟨k', hk', rfl⟩ := Option.map_eq_some_iff.mp h
  exact (sameDonations_semaWake hk').trans (sameDonations_checkPriorityOrder k')

theorem sameDonations_wakeThreads {list : List ThreadId} (h : wakeThreads list k = some k') :
    SameDonations k k' :=
  wakeThreads_rule h (.refl k) (fun _ _ h => h.trans (.of_threads rfl rfl rfl rfl))
    fun h hk => h.trans (sameDonations_threadUnblock hk)

/-- Without the advanced scheduler the timer changes no priority. -/
theorem sameDonations_timerInterrupt (hmlfqs : k.mlfqs = false) (h : k.timerInterrupt = some sw) :
    SameDonations k sw.state := by
  unfold timerInterrupt at h
  simp only [hmlfqs, Bool.false_eq_true, if_false] at h
  obtain ⟨k₁, hk₁, h⟩ := Option.bind_eq_some_iff.mp h
  have hticked : SameDonations k k₁ := by
    refine SameDonations.trans ?_ (sameDonations_wakeThreads hk₁)
    exact .of_threads hmlfqs.symm rfl rfl rfl
  obtain rfl := Option.some.inj h
  split
  · exact hticked.trans (sameDonations_threadYield k₁)
  · exact hticked

/-! ## Donating -/

/-- **One donation**: a thread raises the holder of the lock it waits for. -/
theorem Repaid.raise (h : k.Repaid) {curr : ThreadId} (hdonates : k.DonatesTo curr t)
    (hlow : k.priority t < k.priority curr) :
    (k.update t fun th => { th with priority := k.priority curr }).Repaid := by
  rw [update_priority_eq]
  have hne : curr ≠ t := by
    rintro rfl
    exact lt_irrefl _ hlow
  have hle : ∀ u, k.priority u ≤ Function.update k.priority t (k.priority curr) u := by
    intro u
    rw [Function.update_apply]
    split
    · rename_i heq
      exact heq ▸ hlow.le
    · exact le_rfl
  refine ⟨h.donating, fun u => (h.own u).trans (hle u), fun u => ?_, h.donors, h.waiting_lt⟩
  by_cases hu : u = t
  · subst hu
    refine .inr ⟨curr, hdonates, ?_⟩
    rw [priority_setPriorities, priority_setPriorities, Function.update_self,
      Function.update_of_ne hne]
  · unfold Owed
    rw [priority_setPriorities, Function.update_of_ne hu]
    refine (h.owed u).imp id ?_
    rintro ⟨d, hd, hpriority⟩
    exact ⟨d, hd, hpriority.trans (hle d)⟩

theorem Repaid.donate (h : k.Repaid) (n : ℕ) (curr : ThreadId) : (donate n curr k).Repaid := by
  induction n generalizing curr k with
  | zero => exact h
  | succ n ih =>
    rw [Kernel.donate]
    split
    · exact h
    · rename_i l hwait
      split
      · exact h
      · rename_i t hholder
        split
        · exact h
        · rename_i hlow
          exact ih (h.raise ⟨l, hwait, hholder⟩ (not_le.mp hlow)) t

theorem Repaid.semaWait {next : Action} (h : k.Repaid) (s : SemaRef) :
    (k.semaWait s next).state.Repaid := by
  unfold Kernel.semaWait
  rw [h.donating]
  set k₁ := k.checkToDonate k.current
  have hdonated : k₁.Repaid := h.donate _ _
  set k₂ : Kernel := { k₁ with
    waiters := Function.update k₁.waiters s (listInsertOrdered k₁.comparePriority k₁.current
      (k₁.waiters s)) }
  have hqueued : SameDonations k₁ k₂ := .of_threads rfl rfl rfl rfl
  show (k₂.updateCurrent _).Repaid
  refine (hdonated.same hqueued).same ?_
  exact SameDonations.update k₂ _ fun _ => ⟨rfl, rfl, rfl, rfl⟩

/-! ## Locks -/

/-- A thread that takes a free lock no longer waits for one. -/
theorem Repaid.take (h : k.Repaid) (hfree : k.holder l = none)
    (hwait : (k.threads k.current).waitLock = none ∨ (k.threads k.current).waitLock = some l) :
    ((k.take l).setWaitLock none).Repaid := by
  set k' := (k.take l).setWaitLock none with hk'
  have hkeep : ∀ {α : Type} (g : Thread → α), (∀ th, g { th with waitLock := none } = g th) →
      ∀ t, g (k'.threads t) = g (k.threads t) := fun g hg => proj_updateCurrent g (hg _)
  have hwaits : ∀ t, (k'.threads t).waitLock
      = if t = k.current then none else (k.threads t).waitLock := by
    intro t
    show (Function.update k.threads k.current _ t).waitLock = _
    rw [Function.update_apply]
    split <;> rfl
  -- a debt is to a thread that waits for a lock with a holder, so not for this one
  have hdonates : ∀ d t, k.DonatesTo d t → k'.DonatesTo d t := by
    rintro d t ⟨m, hm, ht⟩
    have hml : m ≠ l := by
      rintro rfl
      rw [hfree] at ht
      cases ht
    refine ⟨m, ?_, ?_⟩
    · rw [hwaits, if_neg, hm]
      rintro rfl
      rcases hwait with hnone | hsome
      · rw [hnone] at hm
        cases hm
      · rw [hsome] at hm
        exact hml (Option.some.inj hm).symm
    · show Function.update k.holder l (some k.current) m = some t
      rw [Function.update_of_ne hml, ht]
  refine ⟨h.donating, fun t => ?_, fun t => ?_, fun t d hd => ?_, fun d m hm => ?_⟩
  · rw [hkeep Thread.origPriority fun _ => rfl]
    exact (h.own t).trans_eq (hkeep Thread.priority (fun _ => rfl) t).symm
  · unfold Owed priority
    rw [hkeep Thread.origPriority fun _ => rfl, hkeep Thread.priority fun _ => rfl]
    refine (h.owed t).imp id ?_
    rintro ⟨d, hd, hpriority⟩
    refine ⟨d, hdonates d t hd, ?_⟩
    rw [hkeep Thread.priority fun _ => rfl]
    exact hpriority
  · rw [hkeep Thread.orderedDonations fun _ => rfl] at hd
    exact hdonates d t (h.donors t d hd)
  · rw [hwaits] at hm
    split at hm
    · cases hm
    · exact h.waiting_lt d m hm

theorem Repaid.lockWait (h : k.Repaid) (hlocked : k.Locked)
    (hwait : (k.threads k.current).waitLock = none ∨ (k.threads k.current).waitLock = some l) :
    (k.lockWait l).state.Repaid := by
  unfold Kernel.lockWait
  split
  · exact h.semaWait _
  · rename_i hvalue
    exact h.take (hlocked.holder_of_value hvalue) hwait

/-- A thread that waits for nothing owes and is owed nothing by its
`wait_lock`. -/
theorem DonatesTo.ne_of_waitLock (h : k.DonatesTo d t)
    (hnone : (k.threads k.current).waitLock = none) : d ≠ k.current := by
  rintro rfl
  obtain ⟨l, hl, -⟩ := h
  rw [hnone] at hl
  cases hl

/-- A thread that finds the lock held waits for it, as the holder's donor. -/
theorem Repaid.joinDonors (h : k.Repaid) (hactive : k.Active)
    (hnone : (k.threads k.current).waitLock = none) (hheld : k.holder l ≠ some k.current) :
    (k.joinDonors l).Repaid := by
  unfold Kernel.joinDonors
  split
  · exact h
  · rename_i u hholder
    rw [h.donating]
    have hu : u ≠ k.current := by
      rintro rfl
      exact hheld hholder
    set k₁ := k.setWaitLock (some l) with hk₁
    show (k₁.addDonor u).Repaid
    have hself : k₁.threads k.current = { k.threads k.current with waitLock := some l } :=
      Function.update_self ..
    have hother : ∀ t, t ≠ k.current → k₁.threads t = k.threads t :=
      fun t ht => Function.update_of_ne ht ..
    have hsame : ∀ {α : Type} (g : Thread → α), (∀ th, g { th with waitLock := some l } = g th) →
        ∀ t, g (k₁.threads t) = g (k.threads t) := fun g hg =>
      proj_updateCurrent g (hg _)
    have hdonates : ∀ d t, k.DonatesTo d t → k₁.DonatesTo d t := by
      intro d t hd
      have hne := hd.ne_of_waitLock hnone
      obtain ⟨m, hm, ht⟩ := hd
      exact ⟨m, by rw [hother d hne, hm], ht⟩
    have hwaiting : k₁.Repaid := by
      refine ⟨h.donating, fun t => ?_, fun t => ?_, fun t d hd => ?_, fun d m hm => ?_⟩
      · rw [hsame Thread.origPriority fun _ => rfl, priority_setWaitLock]
        exact h.own t
      · unfold Owed
        rw [hsame Thread.origPriority fun _ => rfl, priority_setWaitLock]
        refine (h.owed t).imp id ?_
        rintro ⟨d, hd, hpriority⟩
        exact ⟨d, hdonates d t hd, by rwa [priority_setWaitLock]⟩
      · rw [hsame Thread.orderedDonations fun _ => rfl] at hd
        exact hdonates d t (h.donors t d hd)
      · by_cases hd : d = k.current
        · exact hd ▸ hactive.current_lt
        · rw [hother d hd] at hm
          exact h.waiting_lt d m hm
    have hkeep : ∀ {α : Type} (g : Thread → α),
        (∀ th donors, g { th with orderedDonations := donors } = g th) →
        ∀ t, g ((k₁.addDonor u).threads t) = g (k₁.threads t) := fun g hg =>
      proj_update g (hg _ _)
    have hiff : ∀ d t, (k₁.addDonor u).DonatesTo d t ↔ k₁.DonatesTo d t := by
      intro d t
      unfold DonatesTo
      rw [hkeep Thread.waitLock fun _ _ => rfl]
      rfl
    refine ⟨hwaiting.donating, fun t => ?_, fun t => ?_, fun t d hd => ?_, fun d m hm => ?_⟩
    · rw [hkeep Thread.origPriority fun _ _ => rfl, priority_addDonor]
      exact hwaiting.own t
    · simp only [Owed, hkeep Thread.origPriority fun _ _ => rfl, priority_addDonor, hiff]
      exact hwaiting.owed t
    · rw [hiff]
      have hd : d ∈ (Function.update k₁.threads u _ t).orderedDonations := hd
      rw [Function.update_apply] at hd
      split at hd
      · rename_i htu
        rcases mem_listInsertOrdered.mp hd with rfl | hd
        · exact ⟨l, congrArg Thread.waitLock hself, htu ▸ hholder⟩
        · exact htu ▸ hwaiting.donors u d hd
      · exact hwaiting.donors t d hd
    · rw [hkeep Thread.waitLock fun _ _ => rfl] at hm
      exact hwaiting.waiting_lt d m hm

theorem Repaid.lockAcquire (h : k.Repaid) (hactive : k.Active) (hlocked : k.Locked)
    (hnone : (k.threads k.current).waitLock = none) (hsw : k.lockAcquire l = some sw) :
    sw.state.Repaid := by
  obtain ⟨hheld, rfl⟩ := lockAcquire_eq_some hsw
  obtain ⟨hholder, hvalue, -⟩ := joinDonors_locks k l
  exact (h.joinDonors hactive hnone hheld).lockWait
    (SameLocks.locked ⟨hholder, fun m => by rw [hvalue]⟩ hlocked) (joinDonors_waitLock hnone)

theorem Repaid.lockTryAcquire (h : k.Repaid) (hlocked : k.Locked)
    (hnone : (k.threads k.current).waitLock = none) (hsw : k.lockTryAcquire l = some sw) :
    sw.state.Repaid := by
  obtain ⟨hvalue, rfl⟩ | ⟨-, rfl⟩ := lockTryAcquire_eq_some hsw
  · have htaken := h.take (hlocked.holder_of_value (Nat.pos_iff_ne_zero.mp hvalue)) (.inl hnone)
    have hsame : (k.take l).setWaitLock none = k.take l := by
      unfold setWaitLock updateCurrent update
      rw [show (k.take l).threads (k.take l).current = k.threads k.current from rfl, ← hnone]
      exact congrArg (fun threads => { k.take l with threads := threads })
        (Function.update_eq_self k.current k.threads)
    rwa [hsame] at htaken
  · exact h

/-! ## Priorities computed anew -/

/-- A thread that waits for nothing may compute its priority anew, from its
own and its first donor's. -/
theorem Repaid.checkNeedsDonations (hdonating : k.mlfqs = false)
    (hothers : ∀ t, t ≠ k.current → (k.threads t).origPriority ≤ k.priority t ∧ k.Owed t)
    (hdonors : ∀ t, ∀ d ∈ (k.threads t).orderedDonations, k.DonatesTo d t)
    (hlt : ∀ d l, (k.threads d).waitLock = some l → d < k.nextThread)
    (hnone : (k.threads k.current).waitLock = none) : k.checkNeedsDonations.Repaid := by
  set k' := k.checkNeedsDonations with hk'
  have hself : k'.priority k.current = k.neededPriority (k.threads k.current) :=
    congrArg Thread.priority (Function.update_self (f := k.threads) ..)
  have hother : ∀ t, t ≠ k.current → k'.priority t = k.priority t :=
    fun t ht => congrArg Thread.priority (Function.update_of_ne (f := k.threads) ht ..)
  have hkeep : ∀ {α : Type} (g : Thread → α), (∀ th p, g { th with priority := p } = g th) →
      ∀ t, g (k'.threads t) = g (k.threads t) := fun g hg => proj_updateCurrent g (hg _ _)
  have hiff : ∀ d t, k'.DonatesTo d t ↔ k.DonatesTo d t := by
    intro d t
    unfold DonatesTo
    rw [hkeep Thread.waitLock fun _ _ => rfl]
    rfl
  refine ⟨hdonating, fun t => ?_, fun t => ?_, fun t d hd => ?_, fun d m hm => ?_⟩
  · rw [hkeep Thread.origPriority fun _ _ => rfl]
    by_cases ht : t = k.current
    · rw [ht, hself]
      unfold neededPriority
      split
      · exact le_rfl
      · split
        · rename_i hgt
          exact le_of_lt hgt
        · exact le_rfl
    · rw [hother t ht]
      exact (hothers t ht).1
  · unfold Owed
    rw [hkeep Thread.origPriority fun _ _ => rfl]
    by_cases ht : t = k.current
    · rw [ht, hself]
      unfold neededPriority
      split
      · exact .inl le_rfl
      · rename_i d donors hcons
        split
        · have hd := hdonors k.current d (by simp [hcons])
          refine .inr ⟨d, (hiff _ _).mpr hd, ?_⟩
          rw [hother d (hd.ne_of_waitLock hnone)]
        · exact .inl le_rfl
    · rw [hother t ht]
      refine (hothers t ht).2.imp id ?_
      rintro ⟨d, hd, hpriority⟩
      refine ⟨d, (hiff d t).mpr hd, ?_⟩
      rwa [hother d (hd.ne_of_waitLock hnone)]
  · rw [hkeep Thread.orderedDonations fun _ _ => rfl] at hd
    exact (hiff d t).mpr (hdonors t d hd)
  · rw [hkeep Thread.waitLock fun _ _ => rfl] at hm
    exact hlt d m hm

/-- A release leaves the donors that wait for other locks of the thread. -/
theorem Repaid.lockRelease (h : k.Repaid) (hnone : (k.threads k.current).waitLock = none)
    (hsw : k.lockRelease l = some sw) : sw.state.Repaid := by
  unfold Kernel.lockRelease at hsw
  split at hsw
  · rename_i hheld
    simp only [h.donating, Bool.false_eq_true, if_false] at hsw
    refine Repaid.same ?_ (sameDonations_semaUp hsw)
    set k₁ := (k.dropHolder l).removeDonations l with hk₁
    have hkeep : ∀ {α : Type} (g : Thread → α),
        (∀ th donors, g { th with orderedDonations := donors } = g th) →
        ∀ t, g (k₁.threads t) = g (k.threads t) := fun g hg => proj_updateCurrent g (hg _ _)
    have hpriority : ∀ t, k₁.priority t = k.priority t := hkeep Thread.priority fun _ _ => rfl
    -- who is owed for another lock is so still
    have hdonates : ∀ d t, k.DonatesTo d t →
        (t = k.current → (k.threads d).waitLock ≠ some l) → k₁.DonatesTo d t := by
      rintro d t ⟨m, hm, ht⟩ hne
      refine ⟨m, (hkeep Thread.waitLock (fun _ _ => rfl) d).trans hm, ?_⟩
      show Function.update k.holder l none m = some t
      rw [Function.update_of_ne, ht]
      rintro rfl
      exact hne (Option.some.inj (ht.symm.trans hheld)) hm
    refine Repaid.checkNeedsDonations h.donating (fun t ht => ⟨?_, ?_⟩) (fun t d hd => ?_)
      (fun d m hm => ?_) ((hkeep Thread.waitLock (fun _ _ => rfl) k.current).trans hnone)
    · rw [hkeep Thread.origPriority fun _ _ => rfl, hpriority]
      exact h.own t
    · unfold Owed
      rw [hkeep Thread.origPriority fun _ _ => rfl, hpriority]
      refine (h.owed t).imp id ?_
      rintro ⟨d, hd, hle⟩
      exact ⟨d, hdonates d t hd fun heq => absurd heq ht, by rwa [hpriority]⟩
    · have hd : d ∈ (Function.update k.threads k.current _ t).orderedDonations := hd
      rw [Function.update_apply] at hd
      split at hd
      · rename_i heq
        obtain ⟨hmem, hother⟩ := List.mem_filter.mp hd
        refine hdonates d t (heq ▸ h.donors k.current d hmem) fun _ => ?_
        exact of_decide_eq_true hother
      · rename_i hne
        exact hdonates d t (h.donors t d hd) fun heq => absurd heq hne
    · rw [hkeep Thread.waitLock fun _ _ => rfl] at hm
      exact h.waiting_lt d m hm
  · cases hsw

/-- `thread_set_priority` forgets no debt. -/
theorem Repaid.threadSetPriority (h : k.Repaid) (hnone : (k.threads k.current).waitLock = none)
    (priority : ℤ) : (k.threadSetPriority priority).state.Repaid := by
  unfold Kernel.threadSetPriority
  rw [if_neg (by simp [h.donating])]
  set k₁ := k.updateCurrent fun t => { t with origPriority := priority } with hk₁
  have hkeep : ∀ {α : Type} (g : Thread → α),
      (∀ th p, g { th with origPriority := p } = g th) →
      ∀ t, g (k₁.threads t) = g (k.threads t) := fun g hg => proj_updateCurrent g (hg _ _)
  have hpriority : ∀ t, k₁.priority t = k.priority t := hkeep Thread.priority fun _ _ => rfl
  have hiff : ∀ d t, k₁.DonatesTo d t ↔ k.DonatesTo d t := by
    intro d t
    unfold DonatesTo
    rw [hkeep Thread.waitLock fun _ _ => rfl]
    rfl
  have hanew : k₁.checkNeedsDonations.Repaid := by
    refine Repaid.checkNeedsDonations h.donating (fun t ht => ?_) (fun t d hd => ?_)
      (fun d m hm => ?_) ((hkeep Thread.waitLock (fun _ _ => rfl) k.current).trans hnone)
    · simp only [Owed, hpriority, hiff]
      rw [show k₁.threads t = k.threads t from Function.update_of_ne ht ..]
      exact ⟨h.own t, h.owed t⟩
    · rw [hkeep Thread.orderedDonations fun _ _ => rfl] at hd
      exact (hiff d t).mpr (h.donors t d hd)
    · rw [hkeep Thread.waitLock fun _ _ => rfl] at hm
      exact h.waiting_lt d m hm
  dsimp only
  split
  · exact hanew.donate _ _
  · split
    · exact hanew.same (sameDonations_checkPriorityOrder _)
    · exact hanew

/-! ## Steps -/

theorem Repaid.initThread (h : k.Repaid) (priority : ℤ) : (k.initThread priority).Repaid := by
  have hself : (k.initThread priority).threads k.nextThread = newThread priority :=
    Function.update_self ..
  have hother : ∀ t, t ≠ k.nextThread → (k.initThread priority).threads t = k.threads t :=
    fun t ht => Function.update_of_ne ht ..
  have hdonor : ∀ d t, k.DonatesTo d t → d ≠ k.nextThread := by
    rintro d t ⟨l, hl, -⟩
    exact Nat.ne_of_lt (h.waiting_lt d l hl)
  have hdonates : ∀ d t, k.DonatesTo d t → (k.initThread priority).DonatesTo d t := by
    intro d t hd
    have hne := hdonor d t hd
    obtain ⟨l, hl, ht⟩ := hd
    exact ⟨l, by rw [hother d hne, hl], ht⟩
  refine ⟨h.donating, fun t => ?_, fun t => ?_, fun t d hd => ?_, fun d l hl => ?_⟩
  · unfold Kernel.priority
    by_cases ht : t = k.nextThread
    · rw [ht, hself]
      exact le_rfl
    · rw [hother t ht]
      exact h.own t
  · unfold Owed Kernel.priority
    by_cases ht : t = k.nextThread
    · rw [ht, hself]
      exact .inl le_rfl
    · rw [hother t ht]
      refine (h.owed t).imp id ?_
      rintro ⟨d, hd, hle⟩
      exact ⟨d, hdonates d t hd, by rwa [hother d (hdonor d t hd)]⟩
  · by_cases ht : t = k.nextThread
    · rw [ht, hself] at hd
      cases hd
    · rw [hother t ht] at hd
      exact hdonates d t (h.donors t d hd)
  · by_cases hd : d = k.nextThread
    · rw [hd, hself] at hl
      cases hl
    · rw [hother d hd] at hl
      exact Nat.lt_succ_of_lt (h.waiting_lt d l hl)

/-- The code of an event is `thread_set_nice`. -/
def setsNice (k : Kernel) (e : Event) : Bool :=
  match k.action e with
  | some (.threadSetNice _) => true
  | _ => false

/-- **Every piece of kernel code gives back what it takes from a lender**;
`thread_set_nice`, which overwrites priorities, belongs to the advanced
scheduler. -/
theorem Repaid.handle (h : k.Repaid) (hactive : k.Active) (hlocked : k.Locked)
    (hwaits : k.WaitsInLock) (hnice : k.setsNice e = false)
    (hsw : k.handle e = some sw) : sw.state.Repaid := by
  rcases handle_eq_some hsw with ⟨a, ha, hfrom, hsw⟩ | ⟨-, hsw⟩ | ⟨n, k', -, hk', rfl⟩
  · set k₁ := k.goOn (k.threads k.current).pending.tail with hk₁
    have hgoOn : SameDonations k k₁ := by
      refine SameDonations.update k k.current (f := fun t => { t with pending := _ }) ?_
      exact fun _ => ⟨rfl, rfl, rfl, rfl⟩
    have hin : k₁.Repaid := h.same hgoOn
    have hinActive : k₁.Active := hactive.goOn _
    have hinLocked : k₁.Locked := hlocked
    have hnone : (∀ l, a ≠ .lockWait l) → (k₁.threads k₁.current).waitLock = none := fun hne =>
      (hgoOn.waitLock k.current).trans (hwaits.waitLock_eq_none hfrom hne)
    have hsame : ∀ {f : Thread → Thread}, (∀ th, (f th).priority = th.priority
        ∧ (f th).origPriority = th.origPriority ∧ (f th).waitLock = th.waitLock
        ∧ (f th).orderedDonations = th.orderedDonations) → (k₁.updateCurrent f).Repaid :=
      fun hf => hin.same (SameDonations.update k₁ _ hf)
    cases a with
    | lockAcquire l => exact hin.lockAcquire hinActive hinLocked (hnone (by simp)) hsw
    | lockWait l =>
      refine Option.some.inj hsw ▸ hin.lockWait hinLocked ?_
      rw [show (k₁.threads k₁.current).waitLock = (k.threads k.current).waitLock from
        hgoOn.waitLock k.current]
      exact hwaits.waitLock_of_loop hfrom
    | lockTryAcquire l => exact hin.lockTryAcquire hinLocked (hnone (by simp)) hsw
    | lockRelease l => exact hin.lockRelease (hnone (by simp)) hsw
    | semaDown n =>
      obtain rfl := Option.some.inj hsw
      unfold semaDown
      split
      · exact hin.semaWait _
      · exact hin.same (.of_threads rfl rfl rfl rfl)
    | semaTryDown n =>
      exact Option.some.inj hsw ▸ semaTryDown_cases _ n hin (hin.same (.of_threads rfl rfl rfl rfl))
    | semaUp n => exact hin.same (sameDonations_semaUp hsw)
    | threadCreate priority =>
      obtain ⟨-, rfl⟩ := threadCreate_eq_some hsw
      show ((k₁.initThread priority).updateCurrent _).Repaid
      refine (hin.initThread priority).same ?_
      exact SameDonations.update _ _ fun _ => ⟨rfl, rfl, rfl, rfl⟩
    | startThread t =>
      obtain ⟨k', hk', rfl⟩ := Option.map_eq_some_iff.mp hsw
      exact hin.same ((sameDonations_threadUnblock hk').trans (sameDonations_checkPriorityOrder k'))
    | threadYield => exact Option.some.inj hsw ▸ hin.same (sameDonations_threadYield k₁)
    | threadSetPriority priority =>
      exact Option.some.inj hsw ▸ hin.threadSetPriority (hnone (by simp)) priority
    | threadSetNice nice => simp [setsNice, ha] at hnice
    | threadBlock =>
      obtain rfl := Option.some.inj hsw
      exact hsame fun _ => ⟨rfl, rfl, rfl, rfl⟩
    | unblocked => exact Option.some.inj hsw ▸ hin
    | threadUnblock t =>
      obtain ⟨k', hk', rfl⟩ := Option.map_eq_some_iff.mp hsw
      exact hin.same (sameDonations_threadUnblock hk')
    | threadExit =>
      obtain rfl := Option.some.inj hsw
      show Repaid (die (if _ then _ else k₁))
      rw [if_neg (by simp [hnone (by simp)])]
      unfold die
      refine Repaid.same ?_ (SameDonations.update _ _ fun _ => ⟨rfl, rfl, rfl, rfl⟩)
      exact hin.same (.of_threads rfl rfl rfl rfl)
    | timerSleep ticks =>
      exact Option.some.inj hsw ▸ timerSleep_cases _ ticks hin (hsame fun _ => ⟨rfl, rfl, rfl, rfl⟩)
    | sleepStart wakeupTick =>
      simp only [Action.run, sleepStart] at hsw
      refine Repaid.lockAcquire ?_ ?_ ?_ ?_ hsw
      · exact hsame fun _ => ⟨rfl, rfl, rfl, rfl⟩
      · exact hinActive.updateCurrent fun _ => rfl
      · exact hinLocked
      · exact (proj_updateCurrent Thread.waitLock rfl k₁.current).trans (hnone (by simp))
    | sleepEnqueue wakeupTick =>
      simp only [Action.run, sleepEnqueue] at hsw
      set k₂ := k₁.updateCurrent fun t => { t with wakeupTick := wakeupTick, slept := true }
      have hslept : k₂.Repaid := hsame fun _ => ⟨rfl, rfl, rfl, rfl⟩
      refine Repaid.lockRelease ?_ ?_ hsw
      · exact hslept.same (.of_threads rfl rfl rfl rfl)
      · have hwait : (k₂.threads k₁.current).waitLock = (k₁.threads k₁.current).waitLock :=
          proj_updateCurrent Thread.waitLock rfl k₁.current
        exact hwait.trans (hnone (by simp))
  · exact h.same (sameDonations_timerInterrupt h.donating hsw)
  · exact h.same (sameDonations_semaWake hk')

end Kernel

theorem Switch.sameDonations_finish (sw : Switch) : Kernel.SameDonations sw.state sw.finish := by
  cases sw with
  | stay k => exact .refl k
  | schedule k => exact Kernel.sameDonations_schedule k

/-- A step of the kernel without the advanced scheduler's `thread_set_nice`. -/
def DonationStep (k : Kernel) (e : Event) (k' : Kernel) : Prop :=
  KernelStep k e k' ∧ k.setsNice e = false

theorem boot_repaid (values : ℕ → ℕ) : (boot false values).Repaid := by
  have hthread : ∀ t, ∃ priority status, (boot false values).threads t
      = { Kernel.newThread priority with status := status } := by
    intro t
    simp only [boot]
    split
    · exact ⟨_, _, rfl⟩
    · split <;> exact ⟨_, _, rfl⟩
  refine ⟨rfl, fun t => ?_, fun t => .inl ?_, fun t d hd => ?_, fun d l hl => ?_⟩
  · obtain ⟨priority, status, heq⟩ := hthread t
    unfold Kernel.priority
    rw [heq]
    exact le_rfl
  · obtain ⟨priority, status, heq⟩ := hthread t
    unfold Kernel.priority
    rw [heq]
    exact le_rfl
  · obtain ⟨priority, status, heq⟩ := hthread t
    rw [heq] at hd
    cases hd
  · obtain ⟨priority, status, heq⟩ := hthread d
    rw [heq] at hl
    cases hl

/-- **Donations are given back**: in every run from the start with donation
on, the effective priority of a thread is at most its own or that of a thread
whose `wait_lock` is a lock it holds, and a thread that holds no lock has
exactly its own and no donors. -/
theorem donations_givenBack {values : ℕ → ℕ} {events : List Event} {k : Kernel}
    (hrun : Transition.Run DonationStep (boot false values) events k) (t : ThreadId) :
    (k.priority t ≤ (k.threads t).origPriority
      ∨ ∃ d l, (k.threads d).waitLock = some l ∧ k.holder l = some t
        ∧ k.priority t ≤ k.priority d)
    ∧ ((∀ l, k.holder l ≠ some t) → k.priority t = (k.threads t).origPriority
      ∧ (k.threads t).orderedDonations = []) := by
  have hinv : k.Active ∧ k.WaitsInLock ∧ k.Locked ∧ k.Repaid := hrun.invariant
    (I := fun _ k => k.Active ∧ k.WaitsInLock ∧ k.Locked ∧ k.Repaid)
    ⟨boot_active false values, boot_waitsInLock false values, boot_locked false values,
      boot_repaid values⟩ (by
      rintro _ k e k' ⟨hactive, hwaits, hlocked, hrepaid⟩ ⟨hstep, hnice⟩
      refine ⟨hstep.active hactive, ?_⟩
      obtain ⟨sw, hsw, rfl⟩ := Option.map_eq_some_iff.mp hstep.2
      exact ⟨hwaits.handle hactive.current_lt hsw,
        sw.finish_locks.locked (hlocked.handle hsw).locked,
        (hrepaid.handle hactive hlocked hwaits hnice hsw).same sw.sameDonations_finish⟩)
  obtain ⟨-, -, -, hrepaid⟩ := hinv
  refine ⟨?_, fun hheld => ⟨?_, ?_⟩⟩
  · refine (hrepaid.owed t).imp id ?_
    rintro ⟨d, ⟨l, hl, ht⟩, hle⟩
    exact ⟨d, l, hl, ht, hle⟩
  · refine le_antisymm ((hrepaid.owed t).resolve_right ?_) (hrepaid.own t)
    rintro ⟨d, ⟨l, -, ht⟩, -⟩
    exact hheld l ht
  · refine List.eq_nil_iff_forall_not_mem.mpr fun d hd => ?_
    obtain ⟨l, -, ht⟩ := hrepaid.donors t d hd
    exact hheld l ht

/-- The main thread takes two locks, and threads of higher priority wait for
one each; then the main thread releases the second. -/
def lentEvents : List Event :=
  [.call (.lockAcquire (.lock 0)), .call (.lockAcquire (.lock 1))]
    ++ createEvents 40 ++ [.call (.lockAcquire (.lock 0))]
    ++ createEvents 50 ++ [.call (.lockAcquire (.lock 1)), .call (.lockRelease (.lock 1))]

/-- The main thread is left with what the first of the two donates. -/
theorem donations_givenBack_lent :
    ∃ k, Transition.Run DonationStep (boot false fun _ => 0) lentEvents k
      ∧ (k.threads 0).origPriority = 31 ∧ k.priority 0 = 40
      ∧ (k.priority 0 ≤ (k.threads 0).origPriority
        ∨ ∃ d l, (k.threads d).waitLock = some l ∧ k.holder l = some 0
          ∧ k.priority 0 ≤ k.priority d) := by
  have hrun : (lentEvents.foldlM (fun (k : Kernel) e =>
      if k.setsNice e then none else k.next e) (boot false fun _ => 0)).any (fun k =>
        (k.threads 0).origPriority = 31 ∧ k.priority 0 = 40) = true := by
    decide +kernel
  obtain ⟨k, hk, hstate⟩ := (Option.any_eq_true _ _).mp hrun
  have hrun : Transition.Run DonationStep (boot false fun _ => 0) lentEvents k := by
    refine Transition.Run.of_foldlM (fun k e k' h => ?_) hk
    split at h
    · cases h
    · rename_i hnice
      exact ⟨Kernel.kernelStep_of_next h, Bool.eq_false_of_not_eq_true hnice⟩
  obtain ⟨hown, hraised⟩ := of_decide_eq_true hstate
  exact ⟨k, hrun, hown, hraised, (donations_givenBack hrun 0).1⟩

end Pintos
