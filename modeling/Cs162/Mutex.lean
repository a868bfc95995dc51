import Cs162.Parking
import Cs162.Run

/-!
# Mutual exclusion

A lock is held exactly when the value of its semaphore is zero
(`Kernel.Locked`), although the holder is set after the value is lowered and
taken back before it is raised: neither pair of assignments is interrupted. A
thread that is woken finds the value raised, but another one may have taken the
lock before it runs, so the invariant is about the two fields alone and not
about who was woken. To say that no two threads are inside a critical section,
the completed acquires are recorded along a run (`Kernel.track`).
-/

namespace Pintos

open KernelList

/-- The state in which a piece of code ends, before `schedule` picks the next
thread. -/
def Switch.state : Switch → Kernel
  | .stay k => k
  | .schedule k => k

namespace Kernel

variable {k k' : Kernel} {t : ThreadId} {f : Thread → Thread} {sw : Switch} {s : SemaRef}
  {l : LockId} {a : Action} {e : Event}

/-- **A lock is free when the value of its semaphore is one, and held when it
is zero.** -/
def Locked (k : Kernel) : Prop := ∀ l, k.value (.ofLock l) = if k.holder l = none then 1 else 0

/-! ## Code that leaves the locks alone -/

/-- No lock changes. -/
def SameLocks (k k' : Kernel) : Prop :=
  k'.holder = k.holder ∧ ∀ l, k'.value (.ofLock l) = k.value (.ofLock l)

theorem SameLocks.refl (k : Kernel) : SameLocks k k := ⟨rfl, fun _ => rfl⟩

theorem SameLocks.trans {k'' : Kernel} (h : SameLocks k k') (h' : SameLocks k' k'') :
    SameLocks k k'' :=
  ⟨h'.1.trans h.1, fun l => (h'.2 l).trans (h.2 l)⟩

theorem SameLocks.locked (h : SameLocks k k') (hlocked : k.Locked) : k'.Locked := by
  intro l
  rw [h.2 l, h.1]
  exact hlocked l

theorem sameLocks_threadUnblock (h : k.threadUnblock t = some k') : SameLocks k k' := by
  obtain ⟨-, rfl⟩ := threadUnblock_eq_some h
  exact .refl k

theorem sameLocks_threadYield (k : Kernel) : SameLocks k k.threadYield.state := by
  unfold threadYield
  split <;> exact .refl k

theorem sameLocks_checkPriorityOrder (k : Kernel) : SameLocks k k.checkPriorityOrder.state :=
  checkPriorityOrder_cases k (.refl k) (sameLocks_threadYield k)

theorem sameLocks_ignoresAccounts (k : Kernel) : IgnoresAccounts (SameLocks k) :=
  ⟨fun _ _ _ _ h => h, fun _ _ h => h⟩

theorem sameLocks_semaWait {next : Action} (k : Kernel) (s : SemaRef) :
    SameLocks k (k.semaWait s next).state := by
  unfold semaWait
  show SameLocks k (if k.mlfqs then k else k.checkToDonate k.current)
  split
  · exact .refl k
  · exact (sameLocks_ignoresAccounts k).donate (.refl k) _ _

theorem sameLocks_decrement (k : Kernel) (n : ℕ) : SameLocks k (k.decrement (.sema n)) := by
  refine ⟨rfl, fun l => ?_⟩
  show Function.update k.value (.sema n) (k.value (.sema n) - 1) (.ofLock l) = _
  rw [Function.update_of_ne (by simp)]

/-- `sema_up` raises one value. -/
theorem semaWake_locks (h : k.semaWake s = some k') :
    k'.holder = k.holder ∧ k'.value = Function.update k.value s (k.value s + 1) := by
  unfold semaWake at h
  obtain ⟨k₁, hk₁, rfl⟩ := Option.map_eq_some_iff.mp h
  split at hk₁
  · obtain rfl := Option.some.inj hk₁
    exact ⟨rfl, rfl⟩
  · obtain ⟨-, rfl⟩ := threadUnblock_eq_some hk₁
    exact ⟨rfl, rfl⟩

theorem sameLocks_semaWake {n : ℕ} (h : k.semaWake (.sema n) = some k') : SameLocks k k' := by
  obtain ⟨hholder, hvalue⟩ := semaWake_locks h
  refine ⟨hholder, fun l => ?_⟩
  rw [hvalue, Function.update_of_ne (by simp)]

theorem sameLocks_wakeThreads {list : List ThreadId} (h : wakeThreads list k = some k') :
    SameLocks k k' :=
  wakeThreads_rule h (.refl k) (fun _ _ h => h) fun h hk => h.trans (sameLocks_threadUnblock hk)

theorem sameLocks_timerInterrupt (h : k.timerInterrupt = some sw) : SameLocks k sw.state := by
  unfold timerInterrupt at h
  obtain ⟨k₂, hk₂, h⟩ := Option.bind_eq_some_iff.mp h
  have hticked : SameLocks k k₂ := by
    refine SameLocks.trans ?_ (sameLocks_wakeThreads hk₂)
    split
    · exact (sameLocks_ignoresAccounts k).mlfqsTick (.refl k)
    · exact .refl k
  obtain rfl := Option.some.inj h
  split
  · exact hticked.trans (sameLocks_threadYield k₂)
  · exact hticked

theorem sameLocks_threadSetPriority (k : Kernel) (priority : ℤ) :
    SameLocks k (k.threadSetPriority priority).state := by
  unfold threadSetPriority
  split
  · exact .refl k
  · set k₁ := (k.updateCurrent fun t => { t with origPriority := priority }).checkNeedsDonations
    have hset : SameLocks k k₁ := .refl k
    dsimp only
    split
    · exact (sameLocks_ignoresAccounts k).donate hset _ _
    · split
      · exact hset.trans (sameLocks_checkPriorityOrder _)
      · exact hset

/-! ## Acquiring and releasing -/

/-- The lock that an event makes the running thread try to take. -/
def wants (k : Kernel) (e : Event) : Option LockId :=
  match k.action e with
  | some (.lockAcquire l) | some (.lockWait l) | some (.lockTryAcquire l) => some l
  | some (.sleepStart _) => some .sharedThreadsListLock
  | _ => none

/-- The lock whose acquire an event completes: the one wanted, if the value of
its semaphore is not zero. -/
def acquires (k : Kernel) (e : Event) : Option LockId :=
  (k.wants e).filter fun l => k.value (.ofLock l) ≠ 0

/-- The lock that an event releases. -/
def releases (k : Kernel) (e : Event) : Option LockId :=
  match k.action e with
  | some (.lockRelease l) => some l
  | some (.sleepEnqueue _) => some .sharedThreadsListLock
  | _ => none

/-- **The threads between a completed acquire and the matching release**, for
each lock, after an event. -/
def track (k : Kernel) (e : Event) (inside : LockId → List ThreadId) : LockId → List ThreadId :=
  match k.acquires e, k.releases e with
  | some l, _ => Function.update inside l (k.current :: inside l)
  | none, some l => Function.update inside l ((inside l).erase k.current)
  | none, none => inside

/-- How the holders change in a piece of code. -/
structure Transfers (k k' : Kernel) (acquired released : Option LockId) : Prop where
  /-- What was acquired was free, and is the running thread's. -/
  acquire : ∀ l, acquired = some l →
    k.holder l = none ∧ k'.holder = Function.update k.holder l (some k.current)
  /-- What was released was the running thread's, and is free. -/
  release : ∀ l, released = some l →
    k.holder l = some k.current ∧ k'.holder = Function.update k.holder l none
  same : acquired = none → released = none → k'.holder = k.holder
  locked : k'.Locked

theorem SameLocks.transfers (h : SameLocks k k') (hlocked : k.Locked) : Transfers k k' none none :=
  ⟨nofun, nofun, fun _ _ => h.1, h.locked hlocked⟩

theorem Locked.holder_of_value (h : k.Locked) (hl : k.value (.ofLock l) ≠ 0) :
    k.holder l = none := by
  by_contra hheld
  exact hl ((h l).trans (if_neg hheld))

theorem Locked.take (h : k.Locked) (hl : k.value (.ofLock l) ≠ 0) :
    Transfers k (k.take l) (some l) none := by
  have hfree := h.holder_of_value hl
  refine ⟨fun m hm => ?_, nofun, nofun, fun m => ?_⟩
  · obtain rfl := Option.some.inj hm
    exact ⟨hfree, rfl⟩
  · show Function.update k.value (.ofLock l) (k.value (.ofLock l) - 1) (.ofLock m)
      = if Function.update k.holder l (some k.current) m = none then 1 else 0
    rw [Function.update_apply, Function.update_apply]
    by_cases hml : m = l
    · rw [if_pos (by rw [hml]), if_pos hml, if_neg (by simp), h l, if_pos hfree]
    · rw [if_neg (by simpa using hml), if_neg hml]
      exact h m

/-- The end of `lock_acquire`: the lock is taken if it is free. -/
theorem Locked.lockWait (h : k.Locked) (l : LockId) :
    Transfers k (k.lockWait l).state ((some l).filter fun l => k.value (.ofLock l) ≠ 0) none := by
  unfold Kernel.lockWait
  split
  · rename_i hvalue
    rw [Option.filter_some, if_neg (by simpa using hvalue)]
    exact (sameLocks_semaWait k _).transfers h
  · rename_i hvalue
    rw [Option.filter_some, if_pos (by simpa using hvalue)]
    exact ⟨(h.take hvalue).acquire, (h.take hvalue).release, (h.take hvalue).same,
      (h.take hvalue).locked⟩

theorem joinDonors_locks (k : Kernel) (l : LockId) :
    (k.joinDonors l).holder = k.holder ∧ (k.joinDonors l).value = k.value
      ∧ (k.joinDonors l).current = k.current := by
  rcases joinDonors_cases k l with heq | ⟨u, -, heq⟩ <;> rw [heq] <;> exact ⟨rfl, rfl, rfl⟩

/-- What `lock_acquire` reads of the locks is as it was before the thread
became a donor. -/
theorem Transfers.of_same {acquired released : Option LockId} {k₁ : Kernel}
    (h : Transfers k₁ k' acquired released) (hholder : k₁.holder = k.holder)
    (hcurrent : k₁.current = k.current) : Transfers k k' acquired released where
  acquire l hl := by
    rw [← hholder, ← hcurrent]
    exact h.acquire l hl
  release l hl := by
    rw [← hholder, ← hcurrent]
    exact h.release l hl
  same ha hr := hholder ▸ h.same ha hr
  locked := h.locked

theorem Locked.lockAcquire (h : k.Locked) (hsw : k.lockAcquire l = some sw) :
    Transfers k sw.state ((some l).filter fun l => k.value (.ofLock l) ≠ 0) none := by
  obtain ⟨-, rfl⟩ := lockAcquire_eq_some hsw
  obtain ⟨hholder, hvalue, hcurrent⟩ := joinDonors_locks k l
  have hjoined : (k.joinDonors l).Locked :=
    SameLocks.locked ⟨hholder, fun m => by rw [hvalue]⟩ h
  have htransfers := hjoined.lockWait l
  rw [hvalue] at htransfers
  exact htransfers.of_same hholder hcurrent

theorem Locked.lockTryAcquire (h : k.Locked) (hsw : k.lockTryAcquire l = some sw) :
    Transfers k sw.state ((some l).filter fun l => k.value (.ofLock l) ≠ 0) none := by
  obtain ⟨hvalue, rfl⟩ | ⟨hvalue, rfl⟩ := lockTryAcquire_eq_some hsw
  · rw [Option.filter_some, if_pos (by simpa [Nat.pos_iff_ne_zero] using hvalue)]
    exact h.take (Nat.pos_iff_ne_zero.mp hvalue)
  · rw [Option.filter_some, if_neg (by simpa using hvalue)]
    exact (SameLocks.refl k).transfers h

theorem Locked.lockRelease (h : k.Locked) (hsw : k.lockRelease l = some sw) :
    Transfers k sw.state none (some l) := by
  unfold Kernel.lockRelease at hsw
  split at hsw
  · rename_i hheld
    obtain ⟨k', hk', rfl⟩ := Option.map_eq_some_iff.mp hsw
    obtain ⟨hholder, hvalue⟩ := semaWake_locks hk'
    have hdropped : k'.holder = Function.update k.holder l none
        ∧ k'.value = Function.update k.value (.ofLock l) (k.value (.ofLock l) + 1) := by
      rw [hholder, hvalue]
      split <;> exact ⟨rfl, rfl⟩
    have hlocked : k'.Locked := by
      intro m
      rw [hdropped.1, hdropped.2, Function.update_apply, Function.update_apply]
      by_cases hml : m = l
      · rw [if_pos (by rw [hml]), if_pos hml, if_pos rfl, h l, if_neg (by simp [hheld])]
      · rw [if_neg (by simpa using hml), if_neg hml]
        exact h m
    have hsame := sameLocks_checkPriorityOrder k'
    refine ⟨nofun, fun m hm => ?_, nofun,
      hsame.locked hlocked⟩
    obtain rfl := Option.some.inj hm
    exact ⟨hheld, hsame.1.trans hdropped.1⟩
  · cases hsw

/-- **What an event does to the locks.** -/
theorem Locked.handle (h : k.Locked) (hsw : k.handle e = some sw) :
    Transfers k sw.state (k.acquires e) (k.releases e) := by
  unfold acquires releases wants
  rcases handle_eq_some hsw with ⟨a, ha, -, hsw⟩ | ⟨rfl, htimer⟩ | ⟨n, k', rfl, hk', rfl⟩
  · rw [ha]
    set k₁ := k.goOn (k.threads k.current).pending.tail
    have hin : k₁.Locked := SameLocks.locked ⟨rfl, fun _ => rfl⟩ h
    have hsame : SameLocks k₁ sw.state → Transfers k sw.state none none := fun hsame =>
      (hsame.transfers hin).of_same rfl rfl
    cases a with
    | lockAcquire l => exact (hin.lockAcquire hsw).of_same rfl rfl
    | lockWait l => exact Option.some.inj hsw ▸ (hin.lockWait l).of_same rfl rfl
    | lockTryAcquire l => exact (hin.lockTryAcquire hsw).of_same rfl rfl
    | lockRelease l => exact (hin.lockRelease hsw).of_same rfl rfl
    | semaDown n =>
      refine hsame (Option.some.inj hsw ▸ ?_)
      unfold semaDown
      split
      · exact sameLocks_semaWait k₁ _
      · exact sameLocks_decrement k₁ n
    | semaTryDown n =>
      exact hsame (Option.some.inj hsw ▸
        semaTryDown_cases _ n (.refl k₁) (sameLocks_decrement k₁ n))
    | semaUp n =>
      obtain ⟨k', hk', rfl⟩ := Option.map_eq_some_iff.mp hsw
      exact hsame ((sameLocks_semaWake hk').trans (sameLocks_checkPriorityOrder k'))
    | threadCreate priority =>
      exact hsame ((threadCreate_eq_some hsw).2 ▸ .refl k₁)
    | startThread t =>
      obtain ⟨k', hk', rfl⟩ := Option.map_eq_some_iff.mp hsw
      exact hsame ((sameLocks_threadUnblock hk').trans (sameLocks_checkPriorityOrder k'))
    | threadYield => exact hsame (Option.some.inj hsw ▸ sameLocks_threadYield k₁)
    | threadSetPriority priority =>
      exact hsame (Option.some.inj hsw ▸ sameLocks_threadSetPriority k₁ priority)
    | threadSetNice nice =>
      refine hsame (Option.some.inj hsw ▸ SameLocks.trans ?_ (sameLocks_checkPriorityOrder _))
      refine (sameLocks_ignoresAccounts k₁).calculatePriority ?_ _
      exact .refl k₁
    | threadBlock | unblocked => exact hsame (Option.some.inj hsw ▸ .refl k₁)
    | threadUnblock t =>
      obtain ⟨k', hk', rfl⟩ := Option.map_eq_some_iff.mp hsw
      exact hsame (sameLocks_threadUnblock hk')
    | threadExit =>
      refine hsame (Option.some.inj hsw ▸ ?_)
      show SameLocks k₁ (die _)
      split <;> exact .refl k₁
    | timerSleep ticks =>
      exact hsame (Option.some.inj hsw ▸ timerSleep_cases _ ticks (.refl k₁) (.refl k₁))
    | sleepStart wakeupTick =>
      have htransfers := Locked.lockAcquire (k := k₁.updateCurrent _) hin hsw
      exact htransfers.of_same rfl rfl
    | sleepEnqueue wakeupTick =>
      refine Transfers.of_same (Locked.lockRelease ?_ hsw) rfl rfl
      exact hin
  · exact (sameLocks_timerInterrupt htimer).transfers h
  · exact (sameLocks_semaWake hk').transfers h

/-! ## The waiters that a release leaves -/

/-- `check_priority_order` leaves the waiters alone. -/
theorem waiters_checkPriorityOrder (k : Kernel) :
    k.checkPriorityOrder.state.waiters = k.waiters := by
  unfold checkPriorityOrder
  split
  · rfl
  · split
    · unfold threadYield
      split <;> rfl
    · rfl

/-- One waiter is woken, and the others stay on the list. -/
theorem perm_waiters_semaWake (h : k.semaWake s = some k') (hwaiters : k.waiters s ≠ []) :
    ∃ t ∈ k.waiters s, (t :: k'.waiters s).Perm (k.waiters s) := by
  have hperm := perm_listSort k.comparePriority (k.waiters s)
  unfold semaWake at h
  obtain ⟨k₁, hk₁, rfl⟩ := Option.map_eq_some_iff.mp h
  split at hk₁
  · rename_i hnil
    rw [hnil] at hperm
    exact absurd hperm.symm.eq_nil hwaiters
  · rename_i t waiters hcons
    obtain ⟨-, rfl⟩ := threadUnblock_eq_some hk₁
    rw [hcons] at hperm
    refine ⟨t, hperm.subset List.mem_cons_self, ?_⟩
    show (t :: Function.update k.waiters s waiters s).Perm (k.waiters s)
    rwa [Function.update_self]

theorem perm_waiters_lockRelease (hsw : k.lockRelease l = some sw)
    (hwaiters : k.waiters (.ofLock l) ≠ []) : ∃ t ∈ k.waiters (.ofLock l),
      (t :: sw.state.waiters (.ofLock l)).Perm (k.waiters (.ofLock l)) := by
  unfold lockRelease at hsw
  split at hsw
  · obtain ⟨k', hk', rfl⟩ := Option.map_eq_some_iff.mp hsw
    rw [waiters_checkPriorityOrder]
    split at hk'
    · exact perm_waiters_semaWake (k := k.dropHolder l) hk' hwaiters
    · exact perm_waiters_semaWake
        (k := ((k.dropHolder l).removeDonations l).checkNeedsDonations) hk' hwaiters
  · cases hsw

theorem perm_waiters_of_releases (hsw : k.handle e = some sw) (hl : k.releases e = some l)
    (hwaiters : k.waiters (.ofLock l) ≠ []) : ∃ t ∈ k.waiters (.ofLock l),
      (t :: sw.state.waiters (.ofLock l)).Perm (k.waiters (.ofLock l)) := by
  unfold releases at hl
  rcases handle_eq_some hsw with ⟨a, ha, -, hsw⟩ | ⟨rfl, -⟩ | ⟨n, k', rfl, -, -⟩
  · rw [ha] at hl
    set k₁ := k.goOn (k.threads k.current).pending.tail
    cases a <;> cases hl
    case lockRelease.refl => exact perm_waiters_lockRelease (k := k₁) hsw hwaiters
    case sleepEnqueue.refl wakeupTick =>
      exact perm_waiters_lockRelease (k := { k₁.updateCurrent _ with threadsToWakeup := _ }) hsw
        hwaiters
  · cases hl
  · cases hl

/-! ## Runs -/

/-- What mutual exclusion says of a state, given the threads that are between
a completed acquire and the matching release. -/
structure Excludes (k : Kernel) (inside : LockId → List ThreadId) (l : LockId) : Prop where
  held_iff : k.holder l ≠ none ↔ k.value (.ofLock l) = 0
  value_le : k.value (.ofLock l) ≤ 1
  at_most_one : (inside l).length ≤ 1
  inside_iff : ∀ t, t ∈ inside l ↔ k.holder l = some t

theorem Locked.excludes {inside : LockId → List ThreadId} (h : k.Locked)
    (hinside : ∀ l, inside l = (k.holder l).toList) (l : LockId) : k.Excludes inside l := by
  refine ⟨?_, ?_, ?_, fun t => ?_⟩
  · rw [h l]
    split <;> simp_all
  · rw [h l]
    split <;> simp
  · rw [hinside l]
    exact Option.length_toList_le
  · rw [hinside l, Option.mem_toList]

theorem Transfers.track {inside : LockId → List ThreadId}
    (h : Transfers k k' (k.acquires e) (k.releases e))
    (hinside : ∀ l, inside l = (k.holder l).toList) (l : LockId) :
    k.track e inside l = (k'.holder l).toList := by
  unfold Kernel.track
  cases hacq : k.acquires e with
  | some m =>
    obtain ⟨hfree, hholder⟩ := h.acquire m hacq
    rw [hholder]
    show Function.update inside m (k.current :: inside m) l = _
    rw [Function.update_apply, Function.update_apply, hinside m, hfree]
    split
    · rfl
    · exact hinside l
  | none =>
    cases hrel : k.releases e with
    | some m =>
      obtain ⟨hheld, hholder⟩ := h.release m hrel
      rw [hholder]
      show Function.update inside m ((inside m).erase k.current) l = _
      rw [Function.update_apply, Function.update_apply, hinside m, hheld]
      split
      · simp
      · exact hinside l
    | none =>
      rw [h.same hacq hrel]
      exact hinside l

end Kernel

/-- A step of the kernel, with the record of who is inside which critical
section. -/
def SectionStep (c : Kernel × (LockId → List ThreadId)) (e : Event)
    (c' : Kernel × (LockId → List ThreadId)) : Prop :=
  KernelStep c.1 e c'.1 ∧ c'.2 = c.1.track e c.2

theorem Switch.finish_locks (sw : Switch) : Kernel.SameLocks sw.state sw.finish := by
  cases sw <;> exact .refl _

theorem boot_locked (mlfqs : Bool) (values : ℕ → ℕ) : (boot mlfqs values).Locked :=
  fun _ => rfl

/-- **Locks exclude**: in every run from the start, in either mode, in the
state between two events and at the end of every piece of code, where
`schedule` may be called, a lock has a holder exactly when its value is zero,
the value is at most one, and at most one thread is between a completed
acquire and the matching release. A release with waiters wakes one of them and
leaves every other on the list exactly once. -/
theorem lock_mutualExclusion {mlfqs : Bool} {values : ℕ → ℕ} {events : List Event} {k : Kernel}
    {inside : LockId → List ThreadId}
    (hrun : Transition.Run SectionStep (boot mlfqs values, fun _ => []) events (k, inside)) :
    (∀ l, k.Excludes inside l) ∧
      ∀ e sw, k.handle e = some sw →
        (∀ l, sw.state.Excludes (k.track e inside) l) ∧
          ∀ l, k.releases e = some l → k.waiters (.ofLock l) ≠ [] →
            ∃ t ∈ k.waiters (.ofLock l), t ∉ sw.state.waiters (.ofLock l) ∧
              ∀ u ∈ k.waiters (.ofLock l), u ≠ t →
                (sw.state.waiters (.ofLock l)).count u = 1 := by
  have hinv := hrun.invariant
    (I := fun _ c => c.1.Active ∧ c.1.Parked ∧ c.1.Locked ∧ ∀ l, c.2 l = (c.1.holder l).toList)
    ⟨boot_active mlfqs values, boot_parked mlfqs values, boot_locked mlfqs values, fun _ => rfl⟩
    (by
      rintro _ ⟨k, inside⟩ e ⟨k', inside'⟩ ⟨hactive, hparked, hlocked, hinside⟩ ⟨hstep, hk'⟩
      refine ⟨hstep.active hactive, hstep.parked hparked hactive, ?_, ?_⟩
      · obtain ⟨sw, hsw, rfl⟩ := Option.map_eq_some_iff.mp hstep.2
        exact sw.finish_locks.locked (hlocked.handle hsw).locked
      · obtain ⟨sw, hsw, rfl⟩ := Option.map_eq_some_iff.mp hstep.2
        intro l
        rw [hk', sw.finish_locks.1]
        exact (hlocked.handle hsw).track hinside l)
  obtain ⟨-, hparked, hlocked, hinside⟩ := hinv
  refine ⟨hlocked.excludes hinside, fun e sw hsw => ⟨?_, fun l hl hwaiters => ?_⟩⟩
  · have htransfers := hlocked.handle hsw
    exact htransfers.locked.excludes (htransfers.track hinside)
  · obtain ⟨t, ht, hperm⟩ := Kernel.perm_waiters_of_releases hsw hl hwaiters
    have hnodup : (k.waiters (.ofLock l)).Nodup := hparked.waiters_nodup _
    obtain ⟨hnot, hrest⟩ := List.nodup_cons.mp (hperm.nodup_iff.mpr hnodup)
    refine ⟨t, ht, hnot, fun u hu hne => List.count_eq_one_of_mem hrest ?_⟩
    exact (List.mem_cons.mp (hperm.symm.subset hu)).resolve_left hne

/-- The main thread takes a lock, and two threads of higher priority, made one
after the other, wait for it. -/
def queuedEvents : List Event :=
  .call (.lockAcquire (.lock 0)) :: createEvents 40 ++ .call (.lockAcquire (.lock 0)) ::
    createEvents 50 ++ [.call (.lockAcquire (.lock 0))]

/-- The main thread is alone inside, and when it releases the lock one of the
two stays on the list. -/
theorem lock_mutualExclusion_queued :
    ∃ k inside sw, Transition.Run SectionStep (boot false fun _ => 0, fun _ => []) queuedEvents
        (k, inside)
      ∧ inside (.lock 0) = [0] ∧ k.waiters (.ofLock (.lock 0)) = [3, 2]
      ∧ k.handle (.call (.lockRelease (.lock 0))) = some sw
      ∧ k.Excludes inside (.lock 0)
      ∧ ∃ t ∈ k.waiters (.ofLock (.lock 0)), t ∉ sw.state.waiters (.ofLock (.lock 0)) ∧
          ∀ u ∈ k.waiters (.ofLock (.lock 0)), u ≠ t →
            (sw.state.waiters (.ofLock (.lock 0))).count u = 1 := by
  have hrun : (queuedEvents.foldlM (fun (c : Kernel × (LockId → List ThreadId)) e =>
      (c.1.next e).map fun k => (k, c.1.track e c.2)) (boot false fun _ => 0, fun _ => [])).any
      (fun c => c.2 (.lock 0) = [0] ∧ c.1.waiters (.ofLock (.lock 0)) = [3, 2]
        ∧ (c.1.handle (.call (.lockRelease (.lock 0)))).isSome) = true := by
    decide +kernel
  obtain ⟨⟨k, inside⟩, hk, hstate⟩ := (Option.any_eq_true _ _).mp hrun
  have hrun : Transition.Run SectionStep (boot false fun _ => 0, fun _ => []) queuedEvents
      (k, inside) := by
    refine Transition.Run.of_foldlM (fun c e c' h => ?_) hk
    obtain ⟨k', hk', rfl⟩ := Option.map_eq_some_iff.mp h
    exact ⟨Kernel.kernelStep_of_next hk', rfl⟩
  obtain ⟨hinside, hwaiters, hsome⟩ := of_decide_eq_true hstate
  obtain ⟨sw, hsw⟩ := Option.isSome_iff_exists.mp hsome
  have hexclusion := lock_mutualExclusion hrun
  exact ⟨k, inside, sw, hrun, hinside, hwaiters, hsw, hexclusion.1 _,
    (hexclusion.2 _ sw hsw).2 _ rfl (by rw [hwaiters]; simp)⟩

end Pintos
