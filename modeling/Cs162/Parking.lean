import Cs162.Run
import Cs162.WaitLock

/-!
# Where threads that do not run are parked

A blocked thread waits on the list of one semaphore, sleeps on
`threads_to_wakeup`, has blocked itself, or has not been started yet, and what
it has still to run says which (`Kernel.Parked`). So whoever unblocks a thread
takes it from the one list it is on (`threads_inOnePlace`). `thread_unblock`
asserts that the thread is blocked; the only ones on a list for which this may
fail are sleepers that have not reached their `thread_block` yet.
-/

namespace Pintos

open KernelList
open Transition (Run)

/-- The code that a thread on the list of a semaphore goes on with. -/
def SemaRef.loop : SemaRef → Action
  | .sema n => .semaDown n
  | .ofLock l => .lockWait l

theorem SemaRef.loop_inj {s s' : SemaRef} (h : s.loop = s'.loop) : s = s' := by
  cases s <;> cases s' <;> simp_all [loop]

/-- What follows a piece of code in what a thread has still to run: a thread
that enters `threads_to_wakeup` then blocks, and no thread is started twice.
A thread is unblocked by a call, not by the rest of one. -/
def Action.Follows : Action → List Action → Prop
  | .sleepEnqueue _, rest => rest.head? = some .threadBlock
  | .startThread u, rest => .startThread u ∉ rest
  | .threadUnblock _, _ => False
  | _, _ => True

namespace Thread

/-- What the thread has still to run is in order. -/
def InOrder : List Action → Prop
  | [] => True
  | a :: rest => a.Follows rest ∧ InOrder rest

/-- A thread on `threads_to_wakeup` is about to block, or has. -/
def Dozes (t : Thread) : Prop :=
  (t.status = .running ∨ t.status = .ready) ∧ t.pending.head? = some .threadBlock
    ∨ t.status = .blocked ∧ t.pending.head? = some .unblocked

theorem InOrder.tail {pending : List Action} (h : InOrder pending) : InOrder pending.tail := by
  cases pending with
  | nil => exact h
  | cons a rest => exact h.2

theorem InOrder.follows {pending : List Action} {a : Action} (h : InOrder pending)
    (ha : pending.head? = some a) : a.Follows pending.tail := by
  cases pending with
  | nil => cases ha
  | cons b rest => exact Option.some.inj ha ▸ h.1

end Thread

namespace Kernel

variable {k k' : Kernel} {t u : ThreadId} {f : Thread → Thread} {sw : Switch} {s : SemaRef}
  {l : LockId} {a next : Action} {e : Event}

/-- **Threads are parked where they say.** -/
structure Parked (k : Kernel) : Prop where
  waiters_nodup : ∀ s, (k.waiters s).Nodup
  waiting : ∀ s, ∀ t ∈ k.waiters s,
    k.status t = .blocked ∧ (k.threads t).pending.head? = some s.loop
  sleepers_nodup : k.threadsToWakeup.Nodup
  sleeping : ∀ t ∈ k.threadsToWakeup, (k.threads t).Dozes
  /-- A thread that is to be started has not run yet. -/
  starting : ∀ t u, .startThread u ∈ (k.threads t).pending →
    k.status u = .blocked ∧ (k.threads u).pending = []
  starts_once : ∀ t t' u, .startThread u ∈ (k.threads t).pending →
    .startThread u ∈ (k.threads t').pending → t = t'
  in_order : ∀ t, Thread.InOrder (k.threads t).pending
  /-- The idle thread does nothing but block. -/
  idle : ∀ a ∈ (k.threads k.idleThread).pending, a = .unblocked
  idle_awake : k.idleThread ∉ k.threadsToWakeup
  idle_started : ∀ t, .startThread k.idleThread ∉ (k.threads t).pending

/-- A thread that nobody is to start yet, and that has not run. -/
structure Unstarted (k k' : Kernel) (u : ThreadId) : Prop where
  fresh : ∀ v, .startThread u ∉ (k.threads v).pending
  blocked : k'.status u = .blocked
  pending : (k'.threads u).pending = []
  not_idle : u ≠ k.idleThread

theorem Parked.change (h : k.Parked) (t : ThreadId) (hwaiters : k'.waiters = k.waiters)
    (hsleepers : k'.threadsToWakeup = k.threadsToWakeup) (hidle : k'.idleThread = k.idleThread)
    (hothers : ∀ u, u ≠ t → k'.status u = k.status u
      ∧ (k'.threads u).pending = (k.threads u).pending) (hwait : ∀ s, t ∈ k.waiters s →
      k'.status t = .blocked ∧ (k'.threads t).pending.head? = some s.loop)
    (hsleep : t ∈ k.threadsToWakeup → (k'.threads t).Dozes)
    (hstart : ∀ v, .startThread t ∈ (k.threads v).pending →
      k'.status t = .blocked ∧ (k'.threads t).pending = [])
    (hin : Thread.InOrder (k'.threads t).pending)
    (hstarts : ∀ u, .startThread u ∈ (k'.threads t).pending →
      .startThread u ∈ (k.threads t).pending ∨ Unstarted k k' u)
    (hidleThread : t = k.idleThread → ∀ a ∈ (k'.threads t).pending, a = .unblocked) :
    k'.Parked := by
  have hmem : ∀ v u, .startThread u ∈ (k'.threads v).pending →
      .startThread u ∈ (k.threads v).pending ∨ v = t ∧ Unstarted k k' u := by
    intro v u hu
    by_cases hv : v = t
    · exact (hstarts u (hv ▸ hu)).imp (fun h => hv ▸ h) fun h => ⟨hv, h⟩
    · rw [(hothers v hv).2] at hu
      exact .inl hu
  refine ⟨?_, ?_, ?_, ?_, ?_, ?_, ?_, ?_, ?_, ?_⟩
  · rw [hwaiters]
    exact h.waiters_nodup
  · rw [hwaiters]
    intro s u hu
    by_cases hut : u = t
    · rw [hut] at hu ⊢
      exact hwait s hu
    · rw [(hothers u hut).1, (hothers u hut).2]
      exact h.waiting s u hu
  · rw [hsleepers]
    exact h.sleepers_nodup
  · rw [hsleepers]
    intro u hu
    by_cases hut : u = t
    · rw [hut] at hu ⊢
      exact hsleep hu
    · unfold Thread.Dozes
      rw [show (k'.threads u).status = (k.threads u).status from (hothers u hut).1,
        (hothers u hut).2]
      exact h.sleeping u hu
  · intro v u hu
    rcases hmem v u hu with hold | ⟨-, hnew⟩
    · by_cases hut : u = t
      · rw [hut] at hold ⊢
        exact hstart v hold
      · rw [(hothers u hut).1, (hothers u hut).2]
        exact h.starting v u hold
    · exact ⟨hnew.blocked, hnew.pending⟩
  · intro v v' u hu hu'
    rcases hmem v u hu with hold | ⟨rfl, hnew⟩
    · rcases hmem v' u hu' with hold' | ⟨-, hnew'⟩
      · exact h.starts_once v v' u hold hold'
      · exact absurd hold (hnew'.fresh v)
    · rcases hmem v' u hu' with hold' | ⟨rfl, -⟩
      · exact absurd hold' (hnew.fresh v')
      · rfl
  · intro u
    by_cases hut : u = t
    · exact hut ▸ hin
    · rw [(hothers u hut).2]
      exact h.in_order u
  · rw [hidle]
    by_cases ht : k.idleThread = t
    · rw [ht]
      exact hidleThread ht.symm
    · rw [(hothers _ ht).2]
      exact h.idle
  · rw [hidle, hsleepers]
    exact h.idle_awake
  · rw [hidle]
    intro v hv
    rcases hmem v _ hv with hold | ⟨-, hnew⟩
    · exact h.idle_started v hold
    · exact hnew.not_idle rfl

/-- A change that touches no list, no state and no pending code. -/
theorem Parked.of_same (h : k.Parked) (hwaiters : k'.waiters = k.waiters)
    (hsleepers : k'.threadsToWakeup = k.threadsToWakeup) (hidle : k'.idleThread = k.idleThread)
    (hstatus : ∀ t, k'.status t = k.status t) (hquiet : Quiet k k') : k'.Parked :=
  h.change k.idleThread hwaiters hsleepers hidle (fun u _ => ⟨hstatus u, (hquiet u).2⟩)
    (fun s ht => by rw [hstatus, (hquiet _).2]; exact h.waiting s _ ht)
    (fun ht => absurd ht h.idle_awake) (fun v hv => absurd hv (h.idle_started v))
    (by rw [(hquiet _).2]; exact h.in_order _) (fun u hu => .inl (by rwa [(hquiet _).2] at hu))
    (fun _ => by rw [(hquiet _).2]; exact h.idle)

/-- A thread that is not parked on a list, and has been started. -/
structure Loose (k : Kernel) (t : ThreadId) : Prop where
  not_waiting : ∀ s, t ∉ k.waiters s
  not_starting : ∀ v, .startThread t ∉ (k.threads v).pending

theorem Parked.loose_of_status (h : k.Parked) (ht : k.status t ≠ .blocked) : k.Loose t where
  not_waiting s hs := ht (h.waiting s t hs).1
  not_starting v hv := ht (h.starting v t hv).1

theorem Parked.loose_current (h : k.Parked) (hactive : k.Active) : k.Loose k.current :=
  h.loose_of_status (by simp [hactive.running])

/-- A thread that has blocked itself. -/
theorem Parked.loose_of_unblocked (h : k.Parked)
    (ht : (k.threads t).pending.head? = some .unblocked) : k.Loose t where
  not_waiting s hs := by
    have hhead := (h.waiting s t hs).2
    rw [ht] at hhead
    cases s <;> simp [SemaRef.loop] at hhead
  not_starting v hv := by
    rw [(h.starting v t hv).2] at ht
    cases ht

/-- A loose thread that does not sleep may change its state. -/
theorem Parked.setStatus (h : k.Parked) (t : ThreadId) (status : ThreadStatus)
    (hloose : k.Loose t) (hsleep : t ∈ k.threadsToWakeup →
      (status = .running ∨ status = .ready)
        ∧ (k.threads t).pending.head? = some .threadBlock) :
    (k.update t fun th => { th with status := status }).Parked := by
  have hself : (k.update t fun th => { th with status := status }).threads t
      = { k.threads t with status := status } := by
    rw [update_threads, Function.update_self]
  refine h.change t rfl rfl rfl (fun u hu => ?_) (fun s ht => absurd ht (hloose.not_waiting s))
    (fun ht => ?_) (fun v hv => absurd hv (hloose.not_starting v)) ?_ (fun u hu => ?_)
    (fun ht => ?_)
  · rw [status_update, if_neg hu, update_threads, Function.update_of_ne hu]
    exact ⟨rfl, rfl⟩
  · rw [hself]
    exact .inl (hsleep ht)
  · rw [hself]
    exact h.in_order t
  · rw [hself] at hu
    exact .inl hu
  · rw [hself, ht]
    exact h.idle

theorem Parked.schedule (h : k.Parked) (hwf : k.Wf) : k.schedule.Parked := by
  have hnext : ({ k with current := k.nextThreadToRun, readyList := k.readyList.tail,
                         threadTicks := 0 } : Kernel).Parked :=
    h.of_same rfl rfl rfl (fun _ => rfl) (Quiet.of_threads rfl)
  refine hnext.setStatus _ _ ?_ ?_
  · show Loose _ k.nextThreadToRun
    unfold nextThreadToRun
    cases hready : k.readyList with
    | nil =>
      refine ⟨fun s hs => ?_, fun v hv => h.idle_started v hv⟩
      have hhead := (h.waiting s _ hs).2
      have hidle := h.idle s.loop (List.mem_of_mem_head? hhead)
      cases s <;> simp [SemaRef.loop] at hidle
    | cons t list =>
      have hstatus := hwf.ready_status t (by simp [hready])
      have hloose := h.loose_of_status (t := t) (by simp [hstatus])
      exact ⟨hloose.not_waiting, hloose.not_starting⟩
  · show k.nextThreadToRun ∈ k.threadsToWakeup →
      _ ∧ (k.threads k.nextThreadToRun).pending.head? = some .threadBlock
    intro hmem
    refine ⟨.inl rfl, ?_⟩
    unfold nextThreadToRun at hmem ⊢
    cases hready : k.readyList with
    | nil =>
      rw [hready] at hmem
      exact absurd hmem h.idle_awake
    | cons t list =>
      rw [hready] at hmem
      refine And.right ((h.sleeping t hmem).resolve_right fun hblocked => ?_)
      have hstatus : k.status t = .ready := hwf.ready_status t (by simp [hready])
      rw [show k.status t = .blocked from hblocked.1] at hstatus
      cases hstatus

/-- A loose thread that does not sleep may become ready. -/
theorem Parked.makeReady (h : k.Parked) (hloose : k.Loose t)
    (hsleep : t ∈ k.threadsToWakeup → (k.threads t).pending.head? = some .threadBlock) :
    (k.makeReady t).Parked := by
  have hinsert : ({ k with readyList := listInsertOrdered k.comparePriority t k.readyList }
      : Kernel).Parked := h.of_same rfl rfl rfl (fun _ => rfl) (Quiet.of_threads rfl)
  exact hinsert.setStatus t _ ⟨hloose.not_waiting, hloose.not_starting⟩
    fun hmem => ⟨.inr rfl, hsleep hmem⟩

end Kernel

/-- What holds of the state a piece of code ends in. -/
def Switch.Parked : Switch → Prop
  | .stay k => k.Parked
  | .schedule k => k.Parked

theorem Switch.Parked.finish {sw : Switch} (h : sw.Parked) (hwf : sw.Wf) : sw.finish.Parked := by
  cases sw with
  | stay k => exact h
  | schedule k => exact Kernel.Parked.schedule h hwf

namespace Kernel

variable {k k' : Kernel} {t u : ThreadId} {f : Thread → Thread} {sw : Switch} {s : SemaRef}
  {l : LockId} {a next : Action} {e : Event}

/-! ## Threads that stay as they are -/

/-- A change to a thread that keeps its state and pending code. -/
theorem Parked.update (h : k.Parked) (t : ThreadId) (hstatus : ∀ th, (f th).status = th.status)
    (hwait : ∀ th, (f th).waitLock = th.waitLock) (hpending : ∀ th, (f th).pending = th.pending) :
    (k.update t f).Parked :=
  h.of_same rfl rfl rfl (fun u => status_update_of_keep k t u hstatus)
    (Quiet.update k t hwait hpending)

/-- The running thread is not asleep, unless it is about to block. -/
theorem Parked.threadYield (h : k.Parked) (hactive : k.Active) : k.threadYield.Parked := by
  have hloose := h.loose_current hactive
  have hsleep : k.current ∈ k.threadsToWakeup →
      (k.threads k.current).pending.head? = some .threadBlock := by
    intro hmem
    refine And.right ((h.sleeping _ hmem).resolve_right fun hblocked => ?_)
    have hrunning : k.status k.current = .running := hactive.running
    rw [show k.status k.current = .blocked from hblocked.1] at hrunning
    cases hrunning
  unfold Kernel.threadYield
  split
  · exact h.makeReady hloose hsleep
  · exact h.setStatus _ _ hloose fun hmem => ⟨.inr rfl, hsleep hmem⟩

theorem Parked.checkPriorityOrder (h : k.Parked) (hactive : k.Active) :
    k.checkPriorityOrder.Parked :=
  checkPriorityOrder_cases k h (h.threadYield hactive)

theorem parked_ignoresAccounts : IgnoresAccounts Parked :=
  ⟨fun _ t _ _ h => h.update t (fun _ => rfl) (fun _ => rfl) fun _ => rfl,
    fun _ _ h => h.of_same rfl rfl rfl (fun _ => rfl) (Quiet.of_threads rfl)⟩

theorem Parked.threadSetNice (h : k.Parked) (hactive : k.Active) (nice : ℤ) :
    (k.threadSetNice nice).Parked := by
  unfold Kernel.threadSetNice
  refine Parked.checkPriorityOrder (parked_ignoresAccounts.calculatePriority ?_ _)
    (active_ignoresAccounts.calculatePriority ?_ _)
  · exact h.update _ (fun _ => rfl) (fun _ => rfl) (fun _ => rfl)
  · exact hactive.updateCurrent (fun _ => rfl)

theorem Parked.donate (h : k.Parked) (n : ℕ) (t : ThreadId) : (donate n t k).Parked :=
  parked_ignoresAccounts.donate h n t

theorem Parked.checkNeedsDonations (h : k.Parked) : k.checkNeedsDonations.Parked := by
  unfold Kernel.checkNeedsDonations
  exact h.update _ (fun _ => rfl) (fun _ => rfl) (fun _ => rfl)

theorem Parked.threadSetPriority (h : k.Parked) (hactive : k.Active) (priority : ℤ) :
    (k.threadSetPriority priority).Parked := by
  unfold Kernel.threadSetPriority
  split
  · exact h
  · have hset : (k.updateCurrent fun t => { t with origPriority := priority }).Parked :=
      h.update _ (fun _ => rfl) (fun _ => rfl) (fun _ => rfl)
    have hsetActive : (k.updateCurrent fun t => { t with origPriority := priority }).Active :=
      hactive.updateCurrent (fun _ => rfl)
    dsimp only
    split
    · exact hset.checkNeedsDonations.donate _ _
    · split
      · exact hset.checkNeedsDonations.checkPriorityOrder hsetActive.checkNeedsDonations
      · exact hset.checkNeedsDonations

theorem Parked.take (h : k.Parked) (l : LockId) : (k.take l).Parked :=
  h.of_same rfl rfl rfl (fun _ => rfl) (Quiet.of_threads rfl)

/-- `wait_lock` does not matter here. -/
theorem Parked.setWaitLock (h : k.Parked) (waitLock : Option LockId) :
    (k.setWaitLock waitLock).Parked := by
  have hpending : ∀ t, ((k.setWaitLock waitLock).threads t).pending = (k.threads t).pending :=
    fun t => proj_updateCurrent Thread.pending rfl t
  have hstatus : ∀ t, (k.setWaitLock waitLock).status t = k.status t :=
    fun t => proj_updateCurrent Thread.status rfl t
  refine h.change k.idleThread rfl rfl rfl (fun u _ => ⟨hstatus u, hpending u⟩) (fun s ht => ?_)
    (fun ht => absurd ht h.idle_awake) (fun v hv => absurd hv (h.idle_started v)) ?_
    (fun u hu => .inl (hpending _ ▸ hu)) (fun _ => ?_)
  · rw [hstatus, hpending]
    exact h.waiting s _ ht
  · rw [hpending]
    exact h.in_order _
  · rw [hpending]
    exact h.idle

theorem Parked.joinDonors (h : k.Parked) (l : LockId) : (k.joinDonors l).Parked := by
  rcases joinDonors_cases k l with heq | ⟨u, -, heq⟩
  · rwa [heq]
  · rw [heq]
    unfold addDonor
    exact (h.setWaitLock _).update _ (fun _ => rfl) (fun _ => rfl) (fun _ => rfl)

/-! ## Blocking and waking -/

theorem donate_lists (n : ℕ) (t : ThreadId) (k : Kernel) : (Kernel.donate n t k).current = k.current
      ∧ (Kernel.donate n t k).threadsToWakeup = k.threadsToWakeup
      ∧ (Kernel.donate n t k).idleThread = k.idleThread :=
  IgnoresAccounts.donate (P := fun k' => k'.current = k.current
      ∧ k'.threadsToWakeup = k.threadsToWakeup ∧ k'.idleThread = k.idleThread)
    ⟨fun _ _ _ _ h => h, fun _ _ h => h⟩ ⟨rfl, rfl, rfl⟩ n t

/-- The code a blocked thread goes on with. -/
def Resumes (next : Action) : Prop :=
  next = .unblocked ∨ ∃ s : SemaRef, next = s.loop

theorem Resumes.follows (h : Resumes next) (rest : List Action) : next.Follows rest := by
  rcases h with rfl | ⟨s, rfl⟩
  · trivial
  · cases s <;> trivial

theorem Resumes.not_start (h : Resumes next) (u : ThreadId) : next ≠ .startThread u := by
  rcases h with rfl | ⟨s, rfl⟩
  · simp
  · cases s <;> simp [SemaRef.loop]

/-- The running thread, which nothing else refers to, changes. -/
theorem Parked.updateCurrent (h : k.Parked) (hactive : k.Active) {f : Thread → Thread}
    (hsleep : k.current ∈ k.threadsToWakeup → (f (k.threads k.current)).Dozes)
    (hin : Thread.InOrder (f (k.threads k.current)).pending)
    (hstarts : ∀ u, .startThread u ∈ (f (k.threads k.current)).pending →
      .startThread u ∈ (k.threads k.current).pending ∨ Unstarted k (k.updateCurrent f) u)
    (hidle : k.current = k.idleThread →
      ∀ a ∈ (f (k.threads k.current)).pending, a = .unblocked) : (k.updateCurrent f).Parked := by
  have hloose := h.loose_current hactive
  have hself : (k.updateCurrent f).threads k.current = f (k.threads k.current) := by
    rw [updateCurrent_threads, Function.update_self]
  rw [← hself] at hsleep hin hstarts hidle
  refine h.change k.current rfl rfl rfl (fun u hu => ?_)
    (fun s ht => absurd ht (hloose.not_waiting s)) hsleep
    (fun v hv => absurd hv (hloose.not_starting v)) hin hstarts hidle
  rw [status_updateCurrent, if_neg hu, updateCurrent_threads, Function.update_of_ne hu]
  exact ⟨rfl, rfl⟩

theorem Parked.threadBlock (h : k.Parked) (hactive : k.Active) (hnext : Resumes next)
    (hsleep : k.current ∈ k.threadsToWakeup → next = .unblocked)
    (hidle : k.current = k.idleThread → next = .unblocked) : (k.threadBlock next).Parked := by
  refine h.updateCurrent hactive (fun ht => .inr ⟨rfl, congrArg some (hsleep ht)⟩)
    ⟨hnext.follows _, h.in_order _⟩ (fun u hu => ?_) (fun ht a ha => ?_)
  · exact .inl ((List.mem_cons.mp hu).resolve_left fun heq => hnext.not_start u heq.symm)
  · rcases List.mem_cons.mp ha with rfl | ha
    · exact hidle ht
    · exact h.idle a (ht ▸ ha)

/-- A blocked thread enters the list of the semaphore it waits for. -/
theorem Parked.addWaiter (h : k.Parked) (hother : ∀ s', t ∉ k.waiters s')
    (hblocked : k.status t = .blocked) (hhead : (k.threads t).pending.head? = some s.loop)
    {waiters : List ThreadId} (hwaiters : waiters.Perm (t :: k.waiters s)) :
    ({ k with waiters := Function.update k.waiters s waiters } : Kernel).Parked := by
  refine ⟨?_, ?_, h.sleepers_nodup, h.sleeping, h.starting, h.starts_once, h.in_order, h.idle,
    h.idle_awake, h.idle_started⟩
  · intro s'
    show (Function.update k.waiters s waiters s').Nodup
    rw [Function.update_apply]
    split
    · exact hwaiters.nodup_iff.mpr (List.nodup_cons.mpr ⟨hother s, h.waiters_nodup s⟩)
    · exact h.waiters_nodup s'
  · intro s' u hu
    have hu : u ∈ Function.update k.waiters s waiters s' := hu
    rw [Function.update_apply] at hu
    split at hu
    · rename_i heq
      rw [heq]
      rcases List.mem_cons.mp (hwaiters.mem_iff.mp hu) with rfl | hu
      · exact ⟨hblocked, hhead⟩
      · exact h.waiting s u hu
    · exact h.waiting s' u hu

theorem Parked.semaWait (h : k.Parked) (hactive : k.Active) (s : SemaRef)
    (hsleep : k.current ∉ k.threadsToWakeup) (hidle : k.current ≠ k.idleThread) :
    (k.semaWait s s.loop).Parked := by
  have hdonated : (if k.mlfqs then k else k.checkToDonate k.current).Parked := by
    split
    · exact h
    · exact h.donate _ _
  have hdonatedActive : (if k.mlfqs then k else k.checkToDonate k.current).Active := by
    split
    · exact hactive
    · exact hactive.checkToDonate _
  have hkeep : (if k.mlfqs then k else k.checkToDonate k.current).current = k.current
      ∧ (if k.mlfqs then k else k.checkToDonate k.current).threadsToWakeup = k.threadsToWakeup
      ∧ (if k.mlfqs then k else k.checkToDonate k.current).idleThread = k.idleThread := by
    split
    · exact ⟨rfl, rfl, rfl⟩
    · exact donate_lists _ _ k
  unfold Kernel.semaWait
  dsimp only
  generalize hk₁ : (if k.mlfqs then k else k.checkToDonate k.current) = k₁ at *
  obtain ⟨hcurrent, hsleepers, hidleThread⟩ := hkeep
  -- The thread is blocked first and then put on the list; the two changes commute.
  have hblock : (k₁.threadBlock s.loop).Parked :=
    hdonated.threadBlock hdonatedActive (.inr ⟨s, rfl⟩)
      (fun hmem => absurd (hcurrent ▸ hsleepers ▸ hmem) hsleep)
      (fun heq => absurd (hcurrent.symm.trans (heq.trans hidleThread)) hidle)
  have hloose := hdonated.loose_current hdonatedActive
  refine Parked.addWaiter (t := k₁.current) (s := s) hblock hloose.not_waiting ?_ ?_
    perm_listInsertOrdered
  · exact (status_updateCurrent ..).trans (if_pos rfl)
  · rw [updateCurrent_threads, Function.update_self]
    rfl

/-- A thread that waits for a semaphore does not sleep. -/
theorem Parked.not_sleeping (h : k.Parked) (ht : t ∈ k.waiters s) : t ∉ k.threadsToWakeup := by
  intro hmem
  have hhead := (h.waiting s t ht).2
  rcases h.sleeping t hmem with ⟨-, hblock⟩ | ⟨-, hblock⟩
  all_goals
    rw [hhead] at hblock
    cases s <;> simp [SemaRef.loop] at hblock

/-- A thread that waits for one semaphore does not wait for another. -/
theorem Parked.waiting_unique (h : k.Parked) {s' : SemaRef} (ht : t ∈ k.waiters s)
    (ht' : t ∈ k.waiters s') : s = s' := by
  have hhead := (h.waiting s t ht).2
  rw [(h.waiting s' t ht').2] at hhead
  exact SemaRef.loop_inj (Option.some.inj hhead).symm

theorem Parked.popWaiter (h : k.Parked) {waiters : List ThreadId}
    (hwaiters : (t :: waiters).Perm (k.waiters s)) :
    ({ k with waiters := Function.update k.waiters s waiters } : Kernel).Parked
      ∧ ({ k with waiters := Function.update k.waiters s waiters } : Kernel).Loose t := by
  have hnodup : (t :: waiters).Nodup := hwaiters.nodup_iff.mpr (h.waiters_nodup s)
  have hmem : t ∈ k.waiters s := hwaiters.mem_iff.mp List.mem_cons_self
  refine ⟨⟨?_, ?_, h.sleepers_nodup, h.sleeping, h.starting, h.starts_once, h.in_order, h.idle,
    h.idle_awake, h.idle_started⟩, ?_, ?_⟩
  · intro s'
    show (Function.update k.waiters s waiters s').Nodup
    rw [Function.update_apply]
    split
    · exact (List.nodup_cons.mp hnodup).2
    · exact h.waiters_nodup s'
  · intro s' u hu
    have hu : u ∈ Function.update k.waiters s waiters s' := hu
    rw [Function.update_apply] at hu
    split at hu
    · rename_i heq
      rw [heq]
      exact h.waiting s u (hwaiters.mem_iff.mp (List.mem_cons_of_mem t hu))
    · exact h.waiting s' u hu
  · intro s' hs'
    have hs' : t ∈ Function.update k.waiters s waiters s' := hs'
    rw [Function.update_apply] at hs'
    split at hs'
    · exact (List.nodup_cons.mp hnodup).1 hs'
    · rename_i hne
      exact hne (h.waiting_unique hs' hmem)
  · intro v hv
    have hhead := (h.waiting s t hmem).2
    rw [(h.starting v t hv).2] at hhead
    cases hhead

theorem Parked.semaWake (h : k.Parked) (hk : k.semaWake s = some k') : k'.Parked := by
  unfold Kernel.semaWake at hk
  obtain ⟨k₁, hk₁, rfl⟩ := Option.map_eq_some_iff.mp hk
  have hwoken : k₁.Parked := by
    split at hk₁
    · exact Option.some.inj hk₁ ▸ h
    · rename_i t waiters hsort
      have hperm := perm_listSort k.comparePriority (k.waiters s)
      rw [hsort] at hperm
      obtain ⟨hpop, hloose⟩ := h.popWaiter hperm
      obtain ⟨-, rfl⟩ := threadUnblock_eq_some hk₁
      have hsleep := h.not_sleeping (hperm.mem_iff.mp List.mem_cons_self)
      exact hpop.makeReady hloose fun hmem => absurd hmem hsleep
  exact hwoken.of_same rfl rfl rfl (fun _ => rfl) (Quiet.of_threads rfl)

theorem Parked.semaUp (h : k.Parked) (hactive : k.Active) (hsw : k.semaUp s = some sw) :
    sw.Parked := by
  unfold Kernel.semaUp at hsw
  obtain ⟨k', hk', rfl⟩ := Option.map_eq_some_iff.mp hsw
  exact (h.semaWake hk').checkPriorityOrder (hactive.semaWake hk')

/-! ## Locks -/

theorem Parked.lockWait (h : k.Parked) (hactive : k.Active)
    (hsleep : k.current ∉ k.threadsToWakeup) (hidle : k.current ≠ k.idleThread) :
    (k.lockWait l).Parked := by
  unfold Kernel.lockWait
  split
  · exact h.semaWait hactive (.ofLock l) hsleep hidle
  · exact (h.take l).setWaitLock none

theorem joinDonors_lists (k : Kernel) (l : LockId) : (k.joinDonors l).current = k.current
      ∧ (k.joinDonors l).threadsToWakeup = k.threadsToWakeup
      ∧ (k.joinDonors l).idleThread = k.idleThread := by
  rcases joinDonors_cases k l with heq | ⟨u, -, heq⟩ <;> rw [heq] <;> exact ⟨rfl, rfl, rfl⟩

theorem Parked.lockAcquire (h : k.Parked) (hactive : k.Active)
    (hsleep : k.current ∉ k.threadsToWakeup) (hidle : k.current ≠ k.idleThread)
    (hsw : k.lockAcquire l = some sw) : sw.Parked := by
  obtain ⟨-, rfl⟩ := lockAcquire_eq_some hsw
  obtain ⟨hcurrent, hsleepers, hidleThread⟩ := joinDonors_lists k l
  refine (h.joinDonors l).lockWait (hactive.joinDonors l) ?_ ?_
  · rwa [hcurrent, hsleepers]
  · rwa [hcurrent, hidleThread]

theorem Parked.lockTryAcquire (h : k.Parked) (hsw : k.lockTryAcquire l = some sw) : sw.Parked := by
  obtain ⟨-, rfl⟩ | ⟨-, rfl⟩ := lockTryAcquire_eq_some hsw
  · exact h.take l
  · exact h

theorem Parked.lockRelease (h : k.Parked) (hactive : k.Active)
    (hsw : k.lockRelease l = some sw) : sw.Parked := by
  unfold Kernel.lockRelease at hsw
  split at hsw
  · have hdropped : (k.dropHolder l).Parked :=
      h.of_same rfl rfl rfl (fun _ => rfl) (Quiet.of_threads rfl)
    have hactive := hactive.dropHolder l
    refine Parked.semaUp ?_ ?_ hsw
    · split
      · exact hdropped
      · refine Parked.checkNeedsDonations ?_
        unfold Kernel.removeDonations
        exact hdropped.update _ (fun _ => rfl) (fun _ => rfl) (fun _ => rfl)
    · split
      · exact hactive
      · exact (hactive.removeDonations l).checkNeedsDonations
  · cases hsw

/-! ## Creation, exit, sleep -/

theorem Parked.setPending (h : k.Parked) (hactive : k.Active) {pending : List Action}
    (hsleep : k.current ∈ k.threadsToWakeup → pending.head? = some .threadBlock)
    (hin : Thread.InOrder pending) (hstarts : ∀ u, .startThread u ∈ pending →
      .startThread u ∈ (k.threads k.current).pending
        ∨ Unstarted k (k.updateCurrent fun t => { t with pending := pending }) u)
    (hidle : k.current = k.idleThread → ∀ a ∈ pending, a = .unblocked) :
    (k.updateCurrent fun t => { t with pending := pending }).Parked :=
  h.updateCurrent hactive (fun ht => .inl ⟨.inl hactive.running, hsleep ht⟩) hin hstarts hidle

theorem Parked.timerSleep (h : k.Parked) (hactive : k.Active)
    (hsleep : k.current ∉ k.threadsToWakeup) (hidle : k.current ≠ k.idleThread) (ticks : ℤ) :
    (k.timerSleep ticks).Parked := by
  unfold Kernel.timerSleep
  split
  · exact h
  · refine h.setPending hactive (fun hmem => absurd hmem hsleep) ⟨trivial, h.in_order _⟩ ?_
      (fun heq => absurd heq hidle)
    intro u hu
    exact .inl ((List.mem_cons.mp hu).resolve_left (by simp))

theorem Parked.sleepStart (h : k.Parked) (hactive : k.Active)
    (hsleep : k.current ∉ k.threadsToWakeup) (hidle : k.current ≠ k.idleThread)
    {wakeupTick : ℤ} (hsw : k.sleepStart wakeupTick = some sw) : sw.Parked := by
  unfold Kernel.sleepStart at hsw
  refine Parked.lockAcquire ?_ ?_ ?_ ?_ hsw
  · refine h.setPending hactive (fun hmem => absurd hmem hsleep)
      ⟨rfl, trivial, h.in_order _⟩ ?_ (fun heq => absurd heq hidle)
    intro u hu
    have hu := (List.mem_cons.mp hu).resolve_left (by simp)
    exact .inl ((List.mem_cons.mp hu).resolve_left (by simp))
  · exact hactive.updateCurrent fun _ => rfl
  · exact hsleep
  · exact hidle

/-- A thread that is about to block enters `threads_to_wakeup`. -/
theorem Parked.sleepEnqueue (h : k.Parked) (hactive : k.Active)
    (hsleep : k.current ∉ k.threadsToWakeup) (hidle : k.current ≠ k.idleThread)
    (hblock : (k.threads k.current).pending.head? = some .threadBlock) {wakeupTick : ℤ}
    (hsw : k.sleepEnqueue wakeupTick = some sw) : sw.Parked := by
  unfold Kernel.sleepEnqueue at hsw
  set k₁ := k.updateCurrent fun t => { t with wakeupTick := wakeupTick, slept := true } with hk₁
  have hset : k₁.Parked := h.update _ (fun _ => rfl) (fun _ => rfl) (fun _ => rfl)
  have hsetActive : k₁.Active := hactive.updateCurrent (fun _ => rfl)
  have hpending : (k₁.threads k.current).pending.head? = some .threadBlock :=
    (congrArg List.head? (proj_updateCurrent Thread.pending rfl k.current)).trans hblock
  refine Parked.lockRelease ?_ ?_ hsw
  · refine ⟨hset.waiters_nodup, hset.waiting, ?_, ?_, hset.starting, hset.starts_once,
      hset.in_order, hset.idle, ?_, hset.idle_started⟩
    · exact nodup_listInsertOrdered.mpr ⟨hsleep, h.sleepers_nodup⟩
    · intro t ht
      rcases mem_listInsertOrdered.mp ht with rfl | ht
      · exact .inl ⟨.inl hsetActive.running, hpending⟩
      · exact hset.sleeping t ht
    · intro hmem
      rcases mem_listInsertOrdered.mp hmem with heq | hmem
      · exact hidle heq.symm
      · exact h.idle_awake hmem
  · exact hsetActive.of_same (fun _ => rfl) rfl rfl rfl rfl hsetActive.holder_lt rfl

/-- The number of a new thread is on no list. -/
theorem Parked.not_used (h : k.Parked) (hwf : k.Wf) :
    k.Loose k.nextThread ∧ k.nextThread ∉ k.threadsToWakeup := by
  have hdying : k.status k.nextThread = .dying := hwf.unused _ le_rfl
  refine ⟨h.loose_of_status (by simp [hdying]), fun hmem => ?_⟩
  unfold status at hdying
  rcases h.sleeping _ hmem with ⟨hawake, -⟩ | ⟨hblocked, -⟩
  · rcases hawake with hawake | hawake
    · rw [hawake] at hdying
      cases hdying
    · rw [hawake] at hdying
      cases hdying
  · rw [hblocked] at hdying
    cases hdying

theorem Parked.initThread (h : k.Parked) (hwf : k.Wf) (priority : ℤ) :
    (k.initThread priority).Parked := by
  obtain ⟨hloose, hsleep⟩ := h.not_used hwf
  have hself : (k.initThread priority).threads k.nextThread = newThread priority :=
    Function.update_self ..
  have hidle : k.nextThread ≠ k.idleThread :=
    (Nat.ne_of_lt (hwf.lt_of_alive hwf.idle_alive)).symm
  refine h.change k.nextThread rfl rfl rfl (fun u hu => ?_)
    (fun s ht => absurd ht (hloose.not_waiting s)) (fun ht => absurd ht hsleep)
    (fun v hv => absurd hv (hloose.not_starting v)) ?_ (fun u hu => .inl ?_)
    (fun ht => absurd ht hidle)
  · rw [status_initThread, if_neg hu]
    exact ⟨rfl, congrArg Thread.pending (Function.update_of_ne hu ..)⟩
  · rw [hself]
    trivial
  · rw [hself] at hu
    cases hu

/-- `thread_create` is to start the new thread. -/
theorem Parked.threadCreate (h : k.Parked) (hactive : k.Active) {priority : ℤ}
    (hsleep : k.current ∉ k.threadsToWakeup) (hidle : k.current ≠ k.idleThread)
    (hsw : k.threadCreate priority = some sw) : sw.Parked := by
  obtain ⟨-, rfl⟩ := threadCreate_eq_some hsw
  have hnew := h.initThread hactive.toWf priority
  have hnewActive := hactive.initThread priority
  obtain ⟨hloose, -⟩ := h.not_used hactive.toWf
  have hne : k.nextThread ≠ (k.initThread priority).current :=
    (Nat.ne_of_lt hactive.current_lt).symm
  have hkeep : ∀ t, t ≠ k.nextThread → (k.initThread priority).threads t = k.threads t :=
    fun t ht => Function.update_of_ne ht ..
  have hpending : ((k.initThread priority).threads (k.initThread priority).current).pending
      = (k.threads k.current).pending := congrArg Thread.pending (hkeep _ hne.symm)
  refine hnew.setPending hnewActive (fun hmem => absurd hmem hsleep) ?_ (fun u hu => ?_)
    (fun heq => absurd heq hidle)
  · refine ⟨trivial, trivial, ?_, hnew.in_order _⟩
    rw [hpending]
    exact hloose.not_starting _
  · have hu := (List.mem_cons.mp hu).resolve_left (by simp)
    have hu := (List.mem_cons.mp hu).resolve_left (by simp)
    refine (List.mem_cons.mp hu).symm.imp id fun heq => ?_
    cases heq
    refine ⟨fun v hv => ?_, ?_, ?_, ?_⟩
    · by_cases hv' : v = k.nextThread
      · rw [hv', show (k.initThread priority).threads k.nextThread = newThread priority from
          Function.update_self ..] at hv
        cases hv
      · rw [hkeep v hv'] at hv
        exact hloose.not_starting v hv
    · rw [status_updateCurrent, if_neg hne, status_initThread, if_pos rfl]
    · rw [updateCurrent_threads, Function.update_of_ne hne]
      exact congrArg Thread.pending (Function.update_self (f := k.threads) ..)
    · exact (Nat.ne_of_lt (hactive.lt_of_alive hactive.idle_alive)).symm

/-- The new thread is started; nobody else is to start it. -/
theorem Parked.startThread (h : k.Parked) (hactive : k.Active) (hstarting : ∀ v,
      .startThread t ∉ (k.threads v).pending) (hpending : (k.threads t).pending = [])
    (hsw : k.startThread t = some sw) : sw.Parked := by
  unfold Kernel.startThread at hsw
  obtain ⟨k', hk', rfl⟩ := Option.map_eq_some_iff.mp hsw
  obtain ⟨-, rfl⟩ := threadUnblock_eq_some hk'
  refine Parked.checkPriorityOrder (h.makeReady ⟨fun s hs => ?_, hstarting⟩ fun hmem => ?_)
    (hactive.threadUnblock hk')
  · have hhead := (h.waiting s t hs).2
    rw [hpending] at hhead
    cases hhead
  · rcases h.sleeping t hmem with ⟨-, hhead⟩ | ⟨-, hhead⟩
    · exact hhead
    · rw [hpending] at hhead
      cases hhead

theorem Parked.threadExit (h : k.Parked) (hactive : k.Active)
    (hsleep : k.current ∉ k.threadsToWakeup) : k.threadExit.Parked := by
  have hdie : ∀ k : Kernel, k.Parked → k.Active → k.current ∉ k.threadsToWakeup →
      k.die.Parked := by
    intro k h hactive hsleep
    have herase : ({ k with allList := k.allList.erase k.current } : Kernel).Parked :=
      h.of_same rfl rfl rfl (fun _ => rfl) (Quiet.of_threads rfl)
    have hloose := h.loose_current hactive
    exact herase.setStatus k.current .dying ⟨hloose.not_waiting, hloose.not_starting⟩
      fun hmem => absurd hmem hsleep
  unfold Kernel.threadExit
  show Parked (die _)
  split
  · refine hdie _ ?_ (hactive.leaveDonors _) hsleep
    exact h.of_same rfl rfl rfl (fun _ => rfl) (calm_leaveDonors k _).quiet
  · exact hdie _ h hactive hsleep

/-! ## The timer -/

theorem Parked.wakeThreads {list : List ThreadId}
    (h : ({ k with threadsToWakeup := list } : Kernel).Parked)
    (hk : wakeThreads list k = some k') : k'.Parked := by
  induction list generalizing k with
  | nil => exact Option.some.inj hk ▸ h
  | cons t list ih =>
    unfold Kernel.wakeThreads at hk
    split at hk
    · exact Option.some.inj hk ▸ h
    · obtain ⟨k₁, hk₁, hk⟩ := Option.bind_eq_some_iff.mp hk
      obtain ⟨hblocked, rfl⟩ := threadUnblock_eq_some hk₁
      refine ih ?_ hk
      have hunblocked : (k.threads t).pending.head? = some .unblocked := by
        rcases h.sleeping t List.mem_cons_self with ⟨hawake, -⟩ | ⟨-, hhead⟩
        · rcases hawake with hawake | hawake
          · exact absurd (hawake.symm.trans hblocked) (by simp)
          · exact absurd (hawake.symm.trans hblocked) (by simp)
        · exact hhead
      obtain ⟨ht, hnodup⟩ := List.nodup_cons.mp h.sleepers_nodup
      have hrest : ({ k with threadsToWakeup := list } : Kernel).Parked :=
        ⟨h.waiters_nodup, h.waiting, hnodup, fun u hu => h.sleeping u (List.mem_cons_of_mem t hu),
          h.starting, h.starts_once, h.in_order, h.idle,
          fun hmem => h.idle_awake (List.mem_cons_of_mem t hmem), h.idle_started⟩
      exact hrest.makeReady (hrest.loose_of_unblocked hunblocked) fun hmem => absurd hmem ht

theorem Parked.mlfqsTick (h : k.Parked) : k.mlfqsTick.Parked :=
  parked_ignoresAccounts.mlfqsTick h

theorem Parked.timerInterrupt (h : k.Parked) (hactive : k.Active)
    (hsw : k.timerInterrupt = some sw) : sw.Parked := by
  unfold Kernel.timerInterrupt at hsw
  obtain ⟨k₂, hk₂, hsw⟩ := Option.bind_eq_some_iff.mp hsw
  set k₁ : Kernel := { k with ticks := k.ticks + 1, threadTicks := k.threadTicks + 1 } with hk₁
  have hactive₁ : k₁.Active :=
    hactive.of_same (fun _ => rfl) rfl rfl rfl rfl hactive.holder_lt rfl
  have hparked₁ : k₁.Parked := h.of_same rfl rfl rfl (fun _ => rfl) (Quiet.of_threads rfl)
  have hmlfqs : (if k₁.mlfqs then k₁.mlfqsTick else k₁).Parked
      ∧ (if k₁.mlfqs then k₁.mlfqsTick else k₁).Active := by
    split
    · exact ⟨hparked₁.mlfqsTick, hactive₁.mlfqsTick⟩
    · exact ⟨hparked₁, hactive₁⟩
  have hparked₂ : k₂.Parked := Parked.wakeThreads hmlfqs.1 hk₂
  have hactive₂ := hmlfqs.2.wakeThreads hk₂
  obtain rfl := Option.some.inj hsw
  split
  · exact hparked₂.threadYield hactive₂
  · exact hparked₂

/-! ## Steps -/

/-- A thread that runs other code than `thread_block` is not on
`threads_to_wakeup`. -/
theorem Parked.current_awake (h : k.Parked) (hactive : k.Active)
    (hfrom : (k.threads k.current).pending.head? = some a
      ∨ (k.threads k.current).pending = [] ∧ k.mayCall a = true)
    (hne : a ≠ .threadBlock) : k.current ∉ k.threadsToWakeup := by
  intro hmem
  rcases h.sleeping _ hmem with ⟨-, hblock⟩ | ⟨hblocked, -⟩
  · rcases hfrom with hhead | ⟨hnil, -⟩
    · rw [hhead] at hblock
      exact hne (Option.some.inj hblock)
    · rw [hnil] at hblock
      cases hblock
  · exact absurd (hactive.running.symm.trans hblocked) (by simp)

/-- The idle thread runs no other code than `thread_block`. -/
theorem Parked.current_ne_idle (h : k.Parked) (hfrom : (k.threads k.current).pending.head? = some a
      ∨ (k.threads k.current).pending = [] ∧ k.mayCall a = true)
    (hblock : a ≠ .threadBlock) (hunblocked : a ≠ .unblocked) : k.current ≠ k.idleThread := by
  intro heq
  rcases hfrom with hhead | ⟨-, hcall⟩
  · exact hunblocked (h.idle a (heq ▸ List.mem_of_mem_head? hhead))
  · cases a <;> simp_all [mayCall]

theorem Parked.goOn (h : k.Parked) (hactive : k.Active) (hsleep : k.current ∉ k.threadsToWakeup) :
    (k.goOn (k.threads k.current).pending.tail).Parked :=
  h.setPending hactive (fun hmem => absurd hmem hsleep) (h.in_order _).tail
    (fun _ hu => .inl (List.mem_of_mem_tail hu))
    (fun heq a ha => h.idle a (heq ▸ List.mem_of_mem_tail ha))

/-- `thread_block` itself: a thread on `threads_to_wakeup` is now blocked. -/
theorem Parked.threadBlock_goOn (h : k.Parked) (hactive : k.Active) :
    ((k.goOn (k.threads k.current).pending.tail).threadBlock .unblocked).Parked := by
  have hblock : (k.goOn (k.threads k.current).pending.tail).threadBlock .unblocked
      = .schedule (k.updateCurrent fun t =>
        { t with status := .blocked, pending := .unblocked :: t.pending.tail }) := by
    simp [Kernel.threadBlock, Kernel.goOn, Kernel.updateCurrent, Kernel.update]
  rw [hblock]
  refine h.updateCurrent hactive (fun _ => .inr ⟨rfl, rfl⟩) ⟨trivial, (h.in_order _).tail⟩
    (fun u hu => .inl ?_) (fun ht a ha => ?_)
  · exact List.mem_of_mem_tail ((List.mem_cons.mp hu).resolve_left (by simp))
  · rcases List.mem_cons.mp ha with rfl | ha
    · rfl
    · exact h.idle a (ht ▸ List.mem_of_mem_tail ha)

/-- **Every piece of kernel code leaves the threads parked where they say.** -/
theorem Parked.handle (h : k.Parked) (hactive : k.Active) (hsw : k.handle e = some sw) :
    sw.Parked := by
  rcases handle_eq_some hsw with ⟨a, ha, hfrom, hsw⟩ | ⟨-, hsw⟩ | ⟨n, k', -, hk', rfl⟩
  · by_cases hblock : a = .threadBlock
    · subst hblock
      exact Option.some.inj hsw ▸ h.threadBlock_goOn hactive
    have hsleep := h.current_awake hactive hfrom hblock
    have hin := h.goOn hactive hsleep
    have hinActive := hactive.goOn (k.threads k.current).pending.tail
    by_cases hunblocked : a = .unblocked
    · subst hunblocked
      exact Option.some.inj hsw ▸ hin
    have hidle := h.current_ne_idle hfrom hblock hunblocked
    cases a with
    | lockAcquire l => exact hin.lockAcquire hinActive hsleep hidle hsw
    | lockWait l => exact Option.some.inj hsw ▸ hin.lockWait hinActive hsleep hidle
    | lockTryAcquire l => exact hin.lockTryAcquire hsw
    | lockRelease l => exact hin.lockRelease hinActive hsw
    | semaDown n =>
      obtain rfl := Option.some.inj hsw
      unfold semaDown
      split
      · exact hin.semaWait hinActive (.sema n) hsleep hidle
      · exact hin.of_same rfl rfl rfl (fun _ => rfl) (Quiet.of_threads rfl)
    | semaTryDown n =>
      exact Option.some.inj hsw ▸
        semaTryDown_cases _ n hin (hin.of_same rfl rfl rfl (fun _ => rfl) (Quiet.of_threads rfl))
    | semaUp n => exact hin.semaUp hinActive hsw
    | threadCreate priority => exact hin.threadCreate hinActive hsleep hidle hsw
    | startThread t =>
      have hhead := hfrom.resolve_right (by simp [mayCall])
      have hmem := List.mem_of_mem_head? hhead
      obtain ⟨hblocked, hnil⟩ := h.starting _ t hmem
      have hne : t ≠ k.current := by
        rintro rfl
        exact absurd (hactive.running.symm.trans hblocked) (by simp)
      refine hin.startThread hinActive (fun v hv => ?_) ?_ hsw
      · by_cases hv' : v = k.current
        · rw [hv', Kernel.goOn, updateCurrent_threads, Function.update_self] at hv
          exact (h.in_order _).follows hhead hv
        · rw [Kernel.goOn, updateCurrent_threads, Function.update_of_ne hv'] at hv
          exact hv' (h.starts_once v _ t hv hmem)
      · rwa [Kernel.goOn, updateCurrent_threads, Function.update_of_ne hne]
    | threadYield => exact Option.some.inj hsw ▸ hin.threadYield hinActive
    | threadSetPriority priority =>
      exact Option.some.inj hsw ▸ hin.threadSetPriority hinActive priority
    | threadSetNice nice => exact Option.some.inj hsw ▸ hin.threadSetNice hinActive nice
    | threadBlock => exact absurd rfl hblock
    | unblocked => exact absurd rfl hunblocked
    | threadUnblock t =>
      obtain ⟨hnil, hcall⟩ := hfrom.resolve_left fun hhead => (h.in_order _).follows hhead
      obtain ⟨k', hk', rfl⟩ := Option.map_eq_some_iff.mp hsw
      rw [hnil, List.tail_nil, goOn_of_pending hnil] at hk'
      obtain ⟨-, rfl⟩ := threadUnblock_eq_some hk'
      obtain ⟨-, hhead, hawake, -⟩ := of_decide_eq_true hcall
      exact h.makeReady (h.loose_of_unblocked hhead) fun hmem => absurd hmem hawake
    | threadExit => exact Option.some.inj hsw ▸ hin.threadExit hinActive hsleep
    | timerSleep ticks => exact Option.some.inj hsw ▸ hin.timerSleep hinActive hsleep hidle ticks
    | sleepStart wakeupTick => exact hin.sleepStart hinActive hsleep hidle hsw
    | sleepEnqueue wakeupTick =>
      have hhead := hfrom.resolve_right (by simp [mayCall])
      refine hin.sleepEnqueue hinActive hsleep hidle ?_ hsw
      rw [Kernel.goOn, updateCurrent_threads, updateCurrent_current, Function.update_self]
      exact (h.in_order _).follows hhead
  · exact h.timerInterrupt hactive hsw
  · exact h.semaWake hk'

end Kernel

theorem KernelStep.parked {k k' : Kernel} {e : Event} (h : k.Parked) (hactive : k.Active)
    (hstep : KernelStep k e k') : k'.Parked := by
  obtain ⟨hexit, hmap⟩ := hstep
  obtain ⟨sw, hsw, rfl⟩ := Option.map_eq_some_iff.mp hmap
  exact (h.handle hactive hsw).finish (hactive.handle (fun ha => (hexit ha).1) hsw)

theorem boot_parked (mlfqs : Bool) (values : ℕ → ℕ) : (boot mlfqs values).Parked := by
  have hpending : ∀ t, ((boot mlfqs values).threads t).pending = [] := by
    intro t
    simp only [boot]
    split
    · rfl
    · split <;> rfl
  refine ⟨fun s => List.nodup_nil, fun s t ht => absurd ht List.not_mem_nil, List.nodup_nil,
    fun t ht => absurd ht List.not_mem_nil, fun t u hu => ?_, fun t t' u hu => ?_, fun t => ?_,
    fun a ha => ?_, List.not_mem_nil, fun t ht => ?_⟩
  · rw [hpending] at hu
    cases hu
  · rw [hpending] at hu
    cases hu
  · rw [hpending]
    trivial
  · rw [hpending] at ha
    cases ha
  · rw [hpending] at ht
    cases ht

/-- **Every thread is in one place.** In every state the kernel reaches, in either mode: a thread
is on the ready list at most once, and then it is not running; it waits for at most one semaphore,
on whose list it is once, and then it is neither running nor ready, and does not sleep. -/
theorem threads_inOnePlace {mlfqs : Bool} {values : ℕ → ℕ} {events : List Event} {k : Kernel}
    (hrun : Run KernelStep (boot mlfqs values) events k) :
    k.readyList.Nodup ∧ k.current ∉ k.readyList ∧ ∀ s, (k.waiters s).Nodup ∧
      ∀ t ∈ k.waiters s, t ≠ k.current ∧ t ∉ k.readyList ∧ t ∉ k.threadsToWakeup
        ∧ ∀ s', t ∈ k.waiters s' → s' = s := by
  obtain ⟨hactive, hparked⟩ := hrun.invariant (I := fun _ k => k.Active ∧ k.Parked)
    ⟨boot_active mlfqs values, boot_parked mlfqs values⟩
    fun _ _ _ _ h hstep => ⟨hstep.active h.1, hstep.parked h.2 h.1⟩
  have hready {t : ThreadId} (ht : k.status t ≠ .ready) : t ∉ k.readyList :=
    fun hmem => ht (hactive.ready_status t hmem)
  refine ⟨hactive.ready_nodup, hready (by simp [hactive.running]),
    fun s => ⟨hparked.waiters_nodup s, fun t ht => ?_⟩⟩
  have hblocked := (hparked.waiting s t ht).1
  refine ⟨?_, hready (by simp [hblocked]), hparked.not_sleeping ht,
    fun s' ht' => hparked.waiting_unique ht' ht⟩
  rintro rfl
  exact absurd (hblocked.symm.trans hactive.running) (by decide)

/-- The main thread holds a lock that another one waits for, and sleeps. -/
def asleepEvents : List Event :=
  .call (.lockAcquire (.lock 0)) :: createEvents 40 ++ [.call (.lockAcquire (.lock 0)),
    .call (.timerSleep 3), .resume, .resume, .resume]

theorem threads_inOnePlace_asleep :
    ∃ k, Run KernelStep (boot false fun _ => 0) asleepEvents k
      ∧ k.waiters (.ofLock (.lock 0)) = [2] ∧ k.threadsToWakeup = [0] ∧ 2 ∉ k.readyList := by
  have hcomputed : (asleepEvents.foldlM Kernel.next (boot false fun _ => 0)).any
      (fun k => k.waiters (.ofLock (.lock 0)) = [2] ∧ k.threadsToWakeup = [0]) = true := by
    decide +kernel
  obtain ⟨k, hk, hstate⟩ := (Option.any_eq_true _ _).mp hcomputed
  obtain ⟨hwaiters, hsleepers⟩ := of_decide_eq_true hstate
  have hrun : Run KernelStep (boot false fun _ => 0) asleepEvents k := by
    refine Run.of_foldlM (fun k e k' h => ?_) hk
    exact Kernel.kernelStep_of_next h
  obtain ⟨-, -, hplaces⟩ := threads_inOnePlace hrun
  have hplace := (hplaces (.ofLock (.lock 0))).2 2 (by simp [hwaiters])
  exact ⟨k, hrun, hwaiters, hsleepers, hplace.2.1⟩

end Pintos
