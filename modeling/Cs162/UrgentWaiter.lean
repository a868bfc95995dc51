import Cs162.ListSort
import Cs162.Parking
import Cs162.Run

/-!
# Which waiter a semaphore wakes

`sema_down` puts a thread on the list of the semaphore by the priority it has
at that moment. Priorities change while threads wait: a waiter that holds a
lock is given the priority of a thread that wants the lock, and loses it
again. So the order of the list says nothing by the time of `sema_up`, which
sorts the list anew before it takes the first one off. What it takes is a
thread of the highest priority among the waiters
(`semaUp_wakesHighest`), however the list stood before.
-/

namespace Pintos

open KernelList
open Transition (Run)

namespace Kernel

variable {k k' : Kernel} {s : SemaRef} {t : ThreadId}

/-- **A waiter of the highest priority is woken**: it leaves the list and is
made ready, and the semaphore is raised; every other waiter stays. -/
structure WakesHighest (k k' : Kernel) (s : SemaRef) (t : ThreadId) : Prop where
  waiting : t ∈ k.waiters s
  highest : ∀ u ∈ k.waiters s, k.priority u ≤ k.priority t
  others_wait : (k'.waiters s).Perm ((k.waiters s).erase t)
  once : (k'.waiters s).Nodup ∧ t ∉ k'.waiters s
  elsewhere : ∀ s', s' ≠ s → k'.waiters s' = k.waiters s'
  ready : k'.status t = .ready ∧ t ∈ k'.readyList
  others_status : ∀ u, u ≠ t → k'.status u = k.status u
  value : k'.value = Function.update k.value s (k.value s + 1)

/-- `compare_priority` orders threads by their priorities. -/
theorem strictWeak_comparePriority (k : Kernel) : StrictWeak k.comparePriority :=
  strictWeak_key k.priority

/-- **The first of the sorted waiters** has the highest priority. -/
theorem highest_of_listSort {list rest : List ThreadId}
    (hsort : listSort k.comparePriority list = t :: rest) :
    ∀ u ∈ list, k.priority u ≤ k.priority t := by
  have hperm := perm_listSort k.comparePriority list
  have hsorted := (k.strictWeak_comparePriority.run_listSortQuery list).2
  rw [hsort] at hperm hsorted
  intro u hu
  rcases List.mem_cons.mp (hperm.mem_iff.mpr hu) with rfl | hrest
  · exact le_rfl
  · have hnot : k.comparePriority u t = false := (List.pairwise_cons.mp hsorted).1 u hrest
    exact not_lt.mp (of_decide_eq_false hnot)

/-- A semaphore that nobody waits for is only raised. -/
theorem semaWake_of_nil (hnil : k.waiters s = []) :
    k.semaWake s = some { k with value := Function.update k.value s (k.value s + 1) } := by
  unfold semaWake
  rw [hnil]
  rfl

/-- **`sema_up` wakes a waiter of the highest priority**, where the waiters are
blocked and nobody waits twice. -/
theorem semaWake_of_ne_nil (hne : k.waiters s ≠ []) (hnodup : (k.waiters s).Nodup)
    (hblocked : ∀ t ∈ k.waiters s, k.status t = .blocked) :
    ∃ t k', k.semaWake s = some k' ∧ WakesHighest k k' s t := by
  have hperm := perm_listSort k.comparePriority (k.waiters s)
  match hsort : listSort k.comparePriority (k.waiters s) with
  | [] =>
    rw [hsort] at hperm
    exact absurd hperm.symm.eq_nil hne
  | t :: rest =>
    rw [hsort] at hperm
    have hmem : t ∈ k.waiters s := hperm.subset List.mem_cons_self
    obtain ⟨hnot, hrest⟩ := List.nodup_cons.mp (hperm.nodup_iff.mpr hnodup)
    set k₁ : Kernel := { k with waiters := Function.update k.waiters s rest }
    have hstatus (u : ThreadId) :
        (k₁.makeReady t).status u = if u = t then .ready else k.status u :=
      status_makeReady k₁ t u
    have hwaiters : (k₁.makeReady t).waiters s = rest := Function.update_self ..
    refine ⟨t, { k₁.makeReady t with value := Function.update k.value s (k.value s + 1) }, ?_, ?_⟩
    · have hunblock : k₁.threadUnblock t = some (k₁.makeReady t) := if_pos (hblocked t hmem)
      unfold semaWake
      rw [hsort]
      exact congrArg (Option.map _) hunblock
    · exact {
        waiting := hmem
        highest := highest_of_listSort hsort
        others_wait := hwaiters ▸ (List.cons_perm_iff_perm_erase.mp hperm).2
        once := hwaiters ▸ ⟨hrest, hnot⟩
        elsewhere := fun s' hs' => Function.update_of_ne hs' ..
        ready := ⟨(hstatus t).trans (if_pos rfl), mem_listInsertOrdered.mpr (.inl rfl)⟩
        others_status := fun u hu => (hstatus u).trans (if_neg hu)
        value := rfl }

end Kernel

/-- **`sema_up` wakes the most urgent waiter.** Take any state that the kernel
reaches, and let priorities, and whatever else `sema_up` does not look at,
have changed since. A semaphore without waiters is raised. Otherwise the sort
of the list ends with none of its assertions failing, one thread, whose
priority is the highest among the waiters, leaves the list and is made ready,
every other waiter stays on the list once, and the semaphore is raised. -/
theorem semaUp_wakesHighest {mlfqs : Bool} {values : ℕ → ℕ} {events : List Event} {k k₁ : Kernel}
    (hrun : Run KernelStep (boot mlfqs values) events k) (hwaiters : k₁.waiters = k.waiters)
    (hstatus : ∀ t, k₁.status t = k.status t) (s : SemaRef) :
    (k₁.waiters s = [] →
      k₁.semaWake s = some { k₁ with value := Function.update k₁.value s (k₁.value s + 1) })
    ∧ (k₁.waiters s ≠ [] →
      (listSortQuery (k₁.waiters s)).run k₁.comparePriority
        = some (listSort k₁.comparePriority (k₁.waiters s))
      ∧ ∃ t k', k₁.semaWake s = some k' ∧ k₁.WakesHighest k' s t
        ∧ k₁.semaUp s = some k'.checkPriorityOrder) := by
  have hinv : k.Active ∧ k.Parked := hrun.invariant (I := fun _ k => k.Active ∧ k.Parked)
    ⟨boot_active mlfqs values, boot_parked mlfqs values⟩
    fun _ k e k' h hstep => ⟨hstep.active h.1, hstep.parked h.2 h.1⟩
  refine ⟨Kernel.semaWake_of_nil, fun hne => ?_⟩
  refine ⟨(k₁.strictWeak_comparePriority.run_listSortQuery _).1, ?_⟩
  obtain ⟨t, k', hk', hwakes⟩ := Kernel.semaWake_of_ne_nil hne
    (hwaiters ▸ hinv.2.waiters_nodup s)
    fun t ht => (hstatus t).trans (hinv.2.waiting s t (hwaiters ▸ ht)).1
  exact ⟨t, k', hk', hwakes, congrArg (Option.map _) hk'⟩

/-- Thread 2 waits for a semaphore; then thread 3, of lower priority, which holds a lock;
then thread 4, of the highest priority, waits for that lock. -/
def donatedWaitEvents : List Event :=
  createEvents 40 ++ .call (.semaDown 0) ::
    (createEvents 35 ++ .call (.lockAcquire (.lock 0)) :: .call (.semaDown 0) ::
      (createEvents 50 ++ [.call (.lockAcquire (.lock 0))]))

/-- Thread 3 is behind thread 2 on the list, and is woken. -/
theorem semaUp_wakesHighest_donated :
    ∃ k k', Run KernelStep (boot false fun _ => 0) donatedWaitEvents k
      ∧ k.waiters (.sema 0) = [2, 3] ∧ k.priority 2 = 40 ∧ k.priority 3 = 50
      ∧ k.semaWake (.sema 0) = some k' ∧ k.WakesHighest k' (.sema 0) 3
      ∧ k.semaUp (.sema 0) = some k'.checkPriorityOrder := by
  have hrun : (donatedWaitEvents.foldlM Kernel.next (boot false fun _ => 0)).any
      (fun k => k.waiters (.sema 0) = [2, 3] ∧ k.priority 2 = 40 ∧ k.priority 3 = 50) = true := by
    decide +kernel
  obtain ⟨k, hk, hstate⟩ := (Option.any_eq_true _ _).mp hrun
  obtain ⟨hwaiters, htwo, hthree⟩ := of_decide_eq_true hstate
  have hrun : Run KernelStep (boot false fun _ => 0) donatedWaitEvents k := by
    refine Run.of_foldlM (fun k e k' h => ?_) hk
    exact Kernel.kernelStep_of_next h
  have hne : k.waiters (.sema 0) ≠ [] := by
    rw [hwaiters]
    exact List.cons_ne_nil _ _
  obtain ⟨-, t, k', hk', hwakes, hup⟩ :=
    (semaUp_wakesHighest hrun rfl (fun _ => rfl) (.sema 0)).2 hne
  have hthird : t = 3 := by
    have hmem := hwakes.waiting
    have hhighest := hwakes.highest 3
    rw [hwaiters] at hmem hhighest
    rcases List.mem_pair.mp hmem with rfl | rfl
    · rw [htwo, hthree] at hhighest
      exact absurd (hhighest (by decide)) (by decide)
    · rfl
  exact ⟨k, k', hrun, hwaiters, htwo, hthree, hk', hthird ▸ hwakes, hup⟩

end Pintos
