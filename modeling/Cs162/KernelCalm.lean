import Cs162.KernelInv

/-!
# Changes that are the scheduler's business alone

Much of what the kernel does moves threads between the states of being ready,
running and dying, and between the lists that go with them. Such a change
leaves the locks with their holders, and every thread with its priority, with
the lock it waits for and with the code it has still to run (`Kernel.Calm`).
-/

namespace Pintos

namespace Kernel

variable {k k' k'' : Kernel} {t : ThreadId} {sw : Switch} {s : SemaRef}

/-- **A calm change**: no lock changes hands, no thread gets another priority
or another thing to wait for, and none becomes blocked. -/
structure Calm (k k' : Kernel) : Prop where
  mlfqs : k'.mlfqs = k.mlfqs
  holder : k'.holder = k.holder
  /-- A free lock stays free. -/
  value : ∀ l, k.value (.ofLock l) ≠ 0 → k'.value (.ofLock l) ≠ 0
  next : k'.nextThread = k.nextThread
  priority : ∀ t, k'.priority t = k.priority t
  waitLock : ∀ t, (k'.threads t).waitLock = (k.threads t).waitLock
  pending : ∀ t, (k'.threads t).pending = (k.threads t).pending
  blocked : ∀ t, (k'.threads t).status = .blocked → (k.threads t).status = .blocked

theorem Calm.refl (k : Kernel) : Calm k k :=
  ⟨rfl, rfl, fun _ h => h, rfl, fun _ => rfl, fun _ => rfl, fun _ => rfl, fun _ h => h⟩

theorem Calm.trans (h : Calm k k') (h' : Calm k' k'') : Calm k k'' where
  mlfqs := h'.mlfqs.trans h.mlfqs
  holder := h'.holder.trans h.holder
  value l hl := h'.value l (h.value l hl)
  next := h'.next.trans h.next
  priority t := (h'.priority t).trans (h.priority t)
  waitLock t := (h'.waitLock t).trans (h.waitLock t)
  pending t := (h'.pending t).trans (h.pending t)
  blocked t ht := h.blocked t (h'.blocked t ht)

/-- A change to the scheduler's data, or to a semaphore that is not a lock's or
is not lowered. -/
theorem Calm.of_threads (hmlfqs : k'.mlfqs = k.mlfqs) (hholder : k'.holder = k.holder)
    (hvalue : ∀ l, k.value (.ofLock l) ≠ 0 → k'.value (.ofLock l) ≠ 0)
    (hnext : k'.nextThread = k.nextThread) (hthreads : k'.threads = k.threads) : Calm k k' where
  mlfqs := hmlfqs
  holder := hholder
  value := hvalue
  next := hnext
  priority t := by unfold Kernel.priority; rw [hthreads]
  waitLock t := by rw [hthreads]
  pending t := by rw [hthreads]
  blocked t h := by rwa [hthreads] at h

/-- A thread gets another state, in which it is not blocked. -/
theorem Calm.setStatus (k : Kernel) (t : ThreadId) {status : ThreadStatus}
    (hstatus : status ≠ .blocked) : Calm k (k.update t fun th => { th with status := status }) := by
  have hthread : ∀ u, (k.update t fun th => { th with status := status }).threads u
      = if u = t then { k.threads u with status := status } else k.threads u := by
    intro u
    rw [update_threads, Function.update_apply]
    split
    · rename_i heq
      rw [heq]
    · rfl
  refine ⟨rfl, rfl, fun _ h => h, rfl, fun u => ?_, fun u => ?_, fun u => ?_, fun u hu => ?_⟩
  · unfold Kernel.priority
    rw [hthread]
    split <;> rfl
  · rw [hthread]
    split <;> rfl
  · rw [hthread]
    split <;> rfl
  · rw [hthread] at hu
    split at hu
    · exact absurd hu hstatus
    · exact hu

theorem calm_schedule (k : Kernel) : Calm k k.schedule := by
  unfold schedule
  refine Calm.trans ?_ (Calm.setStatus _ _ ThreadStatus.noConfusion)
  exact Calm.of_threads rfl rfl (fun _ h => h) rfl rfl

theorem calm_makeReady (k : Kernel) (t : ThreadId) : Calm k (k.makeReady t) := by
  unfold makeReady
  refine Calm.trans ?_ (Calm.setStatus _ _ ThreadStatus.noConfusion)
  exact Calm.of_threads rfl rfl (fun _ h => h) rfl rfl

theorem calm_threadUnblock (h : k.threadUnblock t = some k') : Calm k k' :=
  (threadUnblock_eq_some h).2 ▸ calm_makeReady k t

theorem calm_threadYield (k : Kernel) : Calm k k.threadYield.finish := by
  unfold threadYield
  split
  · exact (calm_makeReady k _).trans (calm_schedule _)
  · exact Calm.trans (Calm.setStatus _ _ ThreadStatus.noConfusion) (calm_schedule _)

theorem calm_checkPriorityOrder (k : Kernel) : Calm k k.checkPriorityOrder.finish :=
  checkPriorityOrder_cases k (Calm.refl k) (calm_threadYield k)

theorem calm_startThread (h : k.startThread t = some sw) : Calm k sw.finish := by
  unfold startThread at h
  obtain ⟨k', hk', rfl⟩ := Option.map_eq_some_iff.mp h
  exact (calm_threadUnblock hk').trans (calm_checkPriorityOrder k')

theorem calm_semaWake (h : k.semaWake s = some k') : Calm k k' := by
  unfold semaWake at h
  obtain ⟨k₁, hk₁, rfl⟩ := Option.map_eq_some_iff.mp h
  have hwoken : Calm k k₁ := by
    split at hk₁
    · exact Option.some.inj hk₁ ▸ Calm.refl k
    · refine Calm.trans ?_ (calm_threadUnblock hk₁)
      exact Calm.of_threads rfl rfl (fun _ h => h) rfl rfl
  refine hwoken.trans (Calm.of_threads rfl rfl (fun l hl => ?_) rfl rfl)
  show Function.update k₁.value s (k₁.value s + 1) (.ofLock l) ≠ 0
  rw [Function.update_apply]
  split
  · exact Nat.succ_ne_zero _
  · exact hl

theorem calm_semaUp (h : k.semaUp s = some sw) : Calm k sw.finish := by
  unfold semaUp at h
  obtain ⟨k', hk', rfl⟩ := Option.map_eq_some_iff.mp h
  exact (calm_semaWake hk').trans (calm_checkPriorityOrder k')

theorem calm_decrement (k : Kernel) (n : ℕ) : Calm k (k.decrement (.sema n)) :=
  Calm.of_threads rfl rfl (fun l hl => by simpa [decrement] using hl) rfl rfl

theorem calm_semaTryDown (k : Kernel) (n : ℕ) : Calm k (k.semaTryDown n) :=
  semaTryDown_cases k n (Calm.refl k) (calm_decrement k n)

theorem calm_leaveDonors (k : Kernel) (t : ThreadId) : Calm k (k.leaveDonors t) :=
  ⟨rfl, rfl, fun _ h => h, rfl, fun _ => rfl, fun _ => rfl, fun _ => rfl, fun _ h => h⟩

theorem calm_die (k : Kernel) : Calm k k.die := by
  unfold die
  refine Calm.trans ?_ (Calm.setStatus _ _ ThreadStatus.noConfusion)
  exact Calm.of_threads rfl rfl (fun _ h => h) rfl rfl

theorem calm_threadExit (k : Kernel) : Calm k k.threadExit.finish := by
  unfold threadExit
  refine Calm.trans ?_ (calm_schedule _)
  split
  · exact (calm_leaveDonors k _).trans (calm_die _)
  · exact calm_die k

theorem calm_wakeThreads {list : List ThreadId} (h : wakeThreads list k = some k') : Calm k k' :=
  wakeThreads_rule h (Calm.refl k)
    (fun _ _ h => h.trans (Calm.of_threads rfl rfl (fun _ h => h) rfl rfl))
    fun h hk => h.trans (calm_threadUnblock hk)

end Kernel

end Pintos
