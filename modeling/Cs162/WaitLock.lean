import Cs162.KernelCalm

/-!
# When a thread's `wait_lock` is set

Outside the loop in which `lock_acquire` waits, `wait_lock` is null
(`Thread.Waits`), so that `check_to_donate`, which other functions call as
well, does nothing there. Most functions of the kernel touch neither
`wait_lock` nor the code a thread has still to run (`Kernel.Quiet`).
-/

namespace Pintos

/-- `wait_lock` is null, or the lock for which the thread is inside the
loop. -/
def Thread.Waits (t : Thread) : Prop :=
  t.waitLock = none ∨ ∃ l rest, t.pending = .lockWait l :: rest ∧ t.waitLock = some l

namespace Kernel

variable {k k' k'' : Kernel} {t : ThreadId} {l : LockId} {s : SemaRef} {f : Thread → Thread}
  {sw : Switch} {a : Action} {e : Event}

/-- `wait_lock` is set only inside `lock_acquire`. -/
def WaitsInLock (k : Kernel) : Prop := ∀ t, (k.threads t).Waits

/-- No thread's `wait_lock` or pending code changes. -/
def Quiet (k k' : Kernel) : Prop :=
  ∀ t, (k'.threads t).waitLock = (k.threads t).waitLock
    ∧ (k'.threads t).pending = (k.threads t).pending

theorem Quiet.refl (k : Kernel) : Quiet k k := fun _ => ⟨rfl, rfl⟩

theorem Quiet.trans (h : Quiet k k') (h' : Quiet k' k'') : Quiet k k'' :=
  fun t => ⟨(h' t).1.trans (h t).1, (h' t).2.trans (h t).2⟩

theorem Quiet.of_threads (h : k'.threads = k.threads) : Quiet k k' :=
  fun t => by rw [h]; exact ⟨rfl, rfl⟩

theorem Quiet.update (k : Kernel) (t : ThreadId) (hwait : ∀ th, (f th).waitLock = th.waitLock)
    (hpending : ∀ th, (f th).pending = th.pending) : Quiet k (k.update t f) := by
  intro u
  rw [update_threads, Function.update_apply]
  split
  · rename_i heq
    rw [heq]
    exact ⟨hwait _, hpending _⟩
  · exact ⟨rfl, rfl⟩

theorem Calm.quiet (h : Calm k k') : Quiet k k' := fun t => ⟨h.waitLock t, h.pending t⟩

theorem WaitsInLock.quiet (h : k.WaitsInLock) (hquiet : Quiet k k') : k'.WaitsInLock := by
  intro t
  unfold Thread.Waits
  rw [(hquiet t).1, (hquiet t).2]
  exact h t

/-! ## Quiet functions that change priorities or locks -/

theorem quiet_ignoresAccounts (k : Kernel) : IgnoresAccounts (Quiet k) :=
  ⟨fun k' t _ _ h => h.trans (Quiet.update k' t (fun _ => rfl) fun _ => rfl), fun _ _ h => h⟩

theorem quiet_timerInterrupt (h : k.timerInterrupt = some sw) : Quiet k sw.finish := by
  unfold timerInterrupt at h
  obtain ⟨k₁, hk₁, h⟩ := Option.bind_eq_some_iff.mp h
  have hticked : Quiet k k₁ := by
    refine Quiet.trans ?_ (calm_wakeThreads hk₁).quiet
    split
    · exact (quiet_ignoresAccounts k).mlfqsTick (Quiet.of_threads rfl)
    · exact Quiet.of_threads rfl
  obtain rfl := Option.some.inj h
  split
  · exact hticked.trans (calm_threadYield k₁).quiet
  · exact hticked

theorem quiet_threadSetNice (k : Kernel) (nice : ℤ) : Quiet k (k.threadSetNice nice).finish := by
  unfold threadSetNice
  refine Quiet.trans ?_ (calm_checkPriorityOrder _).quiet
  refine (quiet_ignoresAccounts k).calculatePriority ?_ _
  exact Quiet.update _ _ (fun _ => rfl) (fun _ => rfl)

theorem quiet_checkToDonate (k : Kernel) (t : ThreadId) : Quiet k (k.checkToDonate t) :=
  (quiet_ignoresAccounts k).donate (Quiet.refl k) _ t

theorem quiet_addDonor (k : Kernel) (t : ThreadId) : Quiet k (k.addDonor t) := by
  unfold addDonor
  exact Quiet.update _ _ (fun _ => rfl) (fun _ => rfl)

theorem quiet_checkNeedsDonations (k : Kernel) : Quiet k k.checkNeedsDonations := by
  unfold checkNeedsDonations
  exact Quiet.update _ _ (fun _ => rfl) (fun _ => rfl)

theorem quiet_lockRelease (h : k.lockRelease l = some sw) : Quiet k sw.finish := by
  unfold lockRelease at h
  split at h
  · refine Quiet.trans ?_ (calm_semaUp h).quiet
    have hdrop : Quiet k (k.dropHolder l) := Quiet.of_threads rfl
    split
    · exact hdrop
    · refine Quiet.trans (hdrop.trans ?_) (quiet_checkNeedsDonations _)
      unfold removeDonations
      exact Quiet.update _ _ (fun _ => rfl) (fun _ => rfl)
  · cases h

theorem quiet_sleepEnqueue {wakeupTick : ℤ} (h : k.sleepEnqueue wakeupTick = some sw) :
    Quiet k sw.finish := by
  unfold sleepEnqueue at h
  refine Quiet.trans ?_ (quiet_lockRelease h)
  have hset : Quiet k (k.updateCurrent fun t =>
      { t with wakeupTick := wakeupTick, slept := true }) :=
    Quiet.update _ _ (fun _ => rfl) (fun _ => rfl)
  exact hset

theorem quiet_threadSetPriority (k : Kernel) (priority : ℤ) :
    Quiet k (k.threadSetPriority priority).finish := by
  unfold threadSetPriority
  split
  · exact Quiet.refl k
  · have hset : Quiet k (k.updateCurrent fun t => { t with origPriority := priority }) :=
      Quiet.update _ _ (fun _ => rfl) (fun _ => rfl)
    refine (hset.trans (quiet_checkNeedsDonations _)).trans ?_
    dsimp only
    split
    · exact quiet_checkToDonate _ _
    · split
      · exact (calm_checkPriorityOrder _).quiet
      · exact Quiet.refl _

/-! ## Steps -/

/-- A change to the running thread, after which its `wait_lock` is null or it
is inside the loop. -/
theorem WaitsInLock.updateCurrent (h : ∀ t, t ≠ k.current → (k.threads t).Waits)
    (hcurrent : (f (k.threads k.current)).Waits) : (k.updateCurrent f).WaitsInLock := by
  intro t
  rw [updateCurrent_threads, Function.update_apply]
  split
  · exact hcurrent
  · rename_i hne
    exact h t hne

theorem donate_current (n : ℕ) (t : ThreadId) (k : Kernel) : (donate n t k).current = k.current :=
  IgnoresAccounts.donate (P := fun k' => k'.current = k.current)
    ⟨fun _ _ _ _ h => h, fun _ _ h => h⟩ rfl n t

/-- A thread blocks inside a loop. -/
theorem waitsInLock_semaWait {next : Action} (h : ∀ t, t ≠ k.current → (k.threads t).Waits)
    (hnext : (k.threads k.current).waitLock = none
      ∨ ∃ l, next = .lockWait l ∧ (k.threads k.current).waitLock = some l) :
    (k.semaWait s next).finish.WaitsInLock := by
  have hdonated : ∀ k₁ : Kernel, Quiet k k₁ → k₁.current = k.current →
      (k₁.threadBlock next).finish.WaitsInLock := by
    intro k₁ hquiet hcurrent
    refine WaitsInLock.quiet ?_ (calm_schedule _).quiet
    refine WaitsInLock.updateCurrent (fun t ht => ?_) ?_
    · unfold Thread.Waits
      rw [(hquiet t).1, (hquiet t).2]
      exact h t (hcurrent ▸ ht)
    · rcases hnext with hnone | ⟨l, rfl, hwait⟩
      · exact .inl (by rw [hcurrent, (hquiet _).1, hnone])
      · exact .inr ⟨l, _, rfl, by rw [hcurrent, (hquiet _).1, hwait]⟩
  unfold semaWait
  split
  · exact hdonated _ (Quiet.of_threads rfl) rfl
  · refine hdonated _ ((quiet_checkToDonate k k.current).trans ?_) (donate_current _ _ k)
    exact Quiet.of_threads rfl

/-- The end of `lock_acquire`: the thread blocks inside the loop, or has the
lock. -/
theorem waitsInLock_lockWait (h : ∀ t, t ≠ k.current → (k.threads t).Waits)
    (hwait : (k.threads k.current).waitLock = none
      ∨ (k.threads k.current).waitLock = some l) : (k.lockWait l).finish.WaitsInLock := by
  unfold lockWait
  split
  · exact waitsInLock_semaWait h (hwait.imp id fun hwait => ⟨l, rfl, hwait⟩)
  · unfold setWaitLock
    refine WaitsInLock.updateCurrent h ?_
    exact .inl rfl

/-- A change to `wait_lock` or to the pending code of the running thread. -/
theorem waits_of_ne (h : ∀ t, t ≠ k.current → (k.threads t).Waits) (ht : t ≠ k.current) :
    ((k.updateCurrent f).threads t).Waits := by
  rw [updateCurrent_threads, Function.update_of_ne ht]
  exact h t ht

/-- Before it waits, a thread that finds the lock held has set its
`wait_lock`. -/
theorem joinDonors_waitLock (hnone : (k.threads k.current).waitLock = none) :
    ((k.joinDonors l).threads (k.joinDonors l).current).waitLock = none
      ∨ ((k.joinDonors l).threads (k.joinDonors l).current).waitLock = some l := by
  unfold joinDonors
  split
  · exact .inl hnone
  · split
    · exact .inl hnone
    · rw [(quiet_addDonor _ _ _).1]
      refine .inr ?_
      show ((k.setWaitLock (some l)).threads k.current).waitLock = some l
      rw [setWaitLock, updateCurrent_threads, Function.update_self]

theorem waitsInLock_lockAcquire (h : ∀ t, t ≠ k.current → (k.threads t).Waits)
    (hnone : (k.threads k.current).waitLock = none)
    (hsw : k.lockAcquire l = some sw) : sw.finish.WaitsInLock := by
  obtain ⟨-, rfl⟩ := lockAcquire_eq_some hsw
  refine waitsInLock_lockWait ?_ (joinDonors_waitLock hnone)
  unfold joinDonors
  split
  · exact h
  · split
    · exact h
    · intro t ht
      unfold Thread.Waits
      rw [(quiet_addDonor _ _ t).1, (quiet_addDonor _ _ t).2]
      exact waits_of_ne h ht

theorem waitsInLock_threadCreate {priority : ℤ} (h : k.WaitsInLock)
    (hcurrent : k.current < k.nextThread) (hnone : (k.threads k.current).waitLock = none)
    (hsw : k.threadCreate priority = some sw) : sw.finish.WaitsInLock := by
  obtain ⟨-, rfl⟩ := threadCreate_eq_some hsw
  have hkeep : (k.initThread priority).threads k.current = k.threads k.current :=
    Function.update_of_ne (Nat.ne_of_lt hcurrent) ..
  refine WaitsInLock.updateCurrent (fun t _ => ?_) (.inl ?_)
  · by_cases ht : t = k.nextThread
    · refine .inl ?_
      rw [ht, show (k.initThread priority).threads k.nextThread = newThread priority from
        Function.update_self ..]
      rfl
    · rw [show (k.initThread priority).threads t = k.threads t from
        Function.update_of_ne ht ..]
      exact h t
  · show ((k.initThread priority).threads k.current).waitLock = none
    rw [hkeep, hnone]

/-- In code that is not the loop's own, `wait_lock` is null. -/
theorem WaitsInLock.waitLock_eq_none (h : k.WaitsInLock)
    (hfrom : (k.threads k.current).pending.head? = some a
      ∨ (k.threads k.current).pending = [] ∧ k.mayCall a = true)
    (hne : ∀ l, a ≠ .lockWait l) : (k.threads k.current).waitLock = none := by
  refine (h k.current).resolve_right ?_
  rintro ⟨l, rest, hpending, -⟩
  rcases hfrom with hhead | ⟨hnil, -⟩
  · rw [hpending] at hhead
    exact hne l (Option.some.inj hhead).symm
  · rw [hpending] at hnil
    cases hnil

/-- In the loop for a lock it is the lock, if it is set. -/
theorem WaitsInLock.waitLock_of_loop (h : k.WaitsInLock)
    (hfrom : (k.threads k.current).pending.head? = some (.lockWait l)
      ∨ (k.threads k.current).pending = [] ∧ k.mayCall (.lockWait l) = true) :
    (k.threads k.current).waitLock = none
      ∨ (k.threads k.current).waitLock = some l := by
  refine (h k.current).imp id ?_
  rintro ⟨m, rest, hpending, hwait⟩
  have hhead := hfrom.resolve_right (by simp [mayCall])
  rw [hpending] at hhead
  cases hhead
  exact hwait

/-- **`wait_lock` stays null outside `lock_acquire`.** -/
theorem WaitsInLock.handle (h : k.WaitsInLock) (hcurrent : k.current < k.nextThread)
    (hsw : k.handle e = some sw) : sw.finish.WaitsInLock := by
  rcases handle_eq_some hsw with ⟨a, ha, hfrom, hsw⟩ | ⟨-, hsw⟩ | ⟨n, k', -, hk', rfl⟩
  · set k₀ := k.goOn (k.threads k.current).pending.tail with hk₀
    have hothers : ∀ t, t ≠ k₀.current → (k₀.threads t).Waits :=
      fun t ht => waits_of_ne (fun t _ => h t) ht
    have hnone : (∀ l, a ≠ .lockWait l) → (k₀.threads k₀.current).waitLock = none :=
      fun hne =>
        (proj_updateCurrent Thread.waitLock rfl k.current).trans (h.waitLock_eq_none hfrom hne)
    have hall : (∀ l, a ≠ .lockWait l) → k₀.WaitsInLock := by
      intro hne t
      by_cases ht : t = k₀.current
      · exact .inl (ht ▸ hnone hne)
      · exact hothers t ht
    cases a with
    | lockAcquire l => exact waitsInLock_lockAcquire hothers (hnone (by simp)) hsw
    | lockWait l =>
      refine Option.some.inj hsw ▸ waitsInLock_lockWait hothers ?_
      rw [show (k₀.threads k₀.current).waitLock = (k.threads k.current).waitLock from
        proj_updateCurrent Thread.waitLock rfl k.current]
      exact h.waitLock_of_loop hfrom
    | lockTryAcquire l =>
      obtain ⟨-, rfl⟩ | ⟨-, rfl⟩ := lockTryAcquire_eq_some hsw
      · exact (hall (by simp)).quiet (Quiet.of_threads rfl)
      · exact hall (by simp)
    | lockRelease l => exact (hall (by simp)).quiet (quiet_lockRelease hsw)
    | semaDown n =>
      obtain rfl := Option.some.inj hsw
      unfold semaDown
      split
      · exact waitsInLock_semaWait hothers (.inl (hnone (by simp)))
      · exact (hall (by simp)).quiet (calm_decrement _ n).quiet
    | semaTryDown n =>
      exact Option.some.inj hsw ▸ (hall (by simp)).quiet (calm_semaTryDown _ n).quiet
    | semaUp n => exact (hall (by simp)).quiet (calm_semaUp hsw).quiet
    | threadCreate priority =>
      exact waitsInLock_threadCreate (hall (by simp)) hcurrent (hnone (by simp)) hsw
    | startThread t => exact (hall (by simp)).quiet (calm_startThread hsw).quiet
    | threadYield => exact Option.some.inj hsw ▸ (hall (by simp)).quiet (calm_threadYield _).quiet
    | threadSetPriority priority =>
      exact Option.some.inj hsw ▸ (hall (by simp)).quiet (quiet_threadSetPriority _ priority)
    | threadSetNice nice =>
      exact Option.some.inj hsw ▸ (hall (by simp)).quiet (quiet_threadSetNice _ nice)
    | threadBlock =>
      obtain rfl := Option.some.inj hsw
      refine WaitsInLock.quiet ?_ (calm_schedule _).quiet
      exact WaitsInLock.updateCurrent hothers (.inl (hnone (by simp)))
    | unblocked => exact Option.some.inj hsw ▸ hall (by simp)
    | threadUnblock t =>
      obtain ⟨k', hk', rfl⟩ := Option.map_eq_some_iff.mp hsw
      exact (hall (by simp)).quiet (calm_threadUnblock hk').quiet
    | threadExit => exact Option.some.inj hsw ▸ (hall (by simp)).quiet (calm_threadExit _).quiet
    | timerSleep ticks =>
      exact Option.some.inj hsw ▸
        timerSleep_cases _ ticks (hall (by simp))
          (WaitsInLock.updateCurrent hothers (.inl (hnone (by simp))))
    | sleepStart wakeupTick =>
      simp only [Action.run, sleepStart] at hsw
      refine waitsInLock_lockAcquire (fun t ht => waits_of_ne hothers ht) ?_ hsw
      exact (proj_updateCurrent Thread.waitLock rfl k₀.current).trans (hnone (by simp))
    | sleepEnqueue wakeupTick => exact (hall (by simp)).quiet (quiet_sleepEnqueue hsw)
  · exact h.quiet (quiet_timerInterrupt hsw)
  · exact h.quiet (calm_semaWake hk').quiet

end Kernel

theorem boot_waitsInLock (mlfqs : Bool) (values : ℕ → ℕ) : (boot mlfqs values).WaitsInLock := by
  intro t
  refine .inl ?_
  simp only [boot]
  split
  · rfl
  · split <;> rfl

end Pintos
