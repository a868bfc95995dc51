import Cs162.Thread

/-!
# Locks, semaphores, sleeping, and the steps of the kernel

The functions of `threads/synch.c` and `devices/timer.c` on the kernel's data,
and the machine they make up: a running thread calls a kernel function or goes
on with one, or an interrupt arrives (`Event`). An event whose code runs into
a failing assertion, or that cannot happen in the given state, has no outcome.
-/

namespace Pintos

open KernelList

/-- **What `compare_priority` finds in a donor.** On `donation_list_elem` the
conversion to a thread, made for `elem`, is off by the distance of the two
members, and the `priority` it reads is `wakeup_list_elem.prev`: null as long
as the thread has never slept, and afterwards the address of the head of
`threads_to_wakeup`, which as an `int` is negative like every kernel address. -/
def Thread.donationKey (t : Thread) : ℤ := if t.slept then -1 else 0

namespace Kernel

variable (k : Kernel)

/-- `compare_priority`, on the `donation_list_elem` members of two threads. -/
def compareDonors (a b : ThreadId) : Bool :=
  (k.threads a).donationKey > (k.threads b).donationKey

/-! ## synch.c -/

/-- The loop of `check_to_donate`, with a bound on its iterations. -/
def donate : ℕ → ThreadId → Kernel → Kernel
  | 0, _, k => k
  | n + 1, curr, k =>
    match (k.threads curr).waitLock with
    | none => k
    | some l =>
      match k.holder l with
      | none => k
      | some h =>
        if k.priority h ≥ k.priority curr then k
        else donate n h (k.update h fun t => { t with priority := k.priority curr })

/-- `check_to_donate`. Every iteration but the last raises another thread, so
that there are at most as many as threads. -/
def checkToDonate (curr : ThreadId) : Kernel := donate k.nextThread curr k

/-- The body of the loop of `sema_down`, taken when the value is zero; the
thread goes on with `next`. -/
def semaWait (s : SemaRef) (next : Action) : Switch :=
  let k := (if k.mlfqs then k else k.checkToDonate k.current)
  let waiters := listInsertOrdered k.comparePriority k.current (k.waiters s)
  { k with waiters := Function.update k.waiters s waiters }.threadBlock next

/-- `sema->value--`. -/
def decrement (s : SemaRef) : Kernel :=
  { k with value := Function.update k.value s (k.value s - 1) }

/-- `sema_down`. -/
def semaDown (n : ℕ) : Switch :=
  if k.value (.sema n) = 0 then k.semaWait (.sema n) (.semaDown n)
  else .stay (k.decrement (.sema n))

/-- `sema_try_down`. -/
def semaTryDown (n : ℕ) : Kernel :=
  if k.value (.sema n) > 0 then k.decrement (.sema n) else k

/-- `sema_up` up to the increment: the first of the sorted waiters is made
ready. -/
def semaWake (s : SemaRef) : Option Kernel :=
  let woken := match listSort k.comparePriority (k.waiters s) with
    | [] => some k
    | t :: waiters => { k with waiters := Function.update k.waiters s waiters }.threadUnblock t
  woken.map fun k => { k with value := Function.update k.value s (k.value s + 1) }

/-- `sema_up`, outside interrupts. -/
def semaUp (s : SemaRef) : Option Switch := (k.semaWake s).map checkPriorityOrder

/-- The end of `lock_acquire` and of `lock_try_acquire`: the lock is taken. -/
def take (l : LockId) : Kernel :=
  { k.decrement (.ofLock l) with holder := Function.update k.holder l (some k.current) }

/-- The running thread's `wait_lock` is set. -/
def setWaitLock (waitLock : Option LockId) : Kernel :=
  k.updateCurrent fun t => { t with waitLock := waitLock }

/-- `lock_acquire` from the call of `sema_down` on. -/
def lockWait (l : LockId) : Switch :=
  if k.value (.ofLock l) = 0 then k.semaWait (.ofLock l) (.lockWait l)
  else .stay ((k.take l).setWaitLock none)

/-- The running thread enters the donation list of another. -/
def addDonor (h : ThreadId) : Kernel :=
  k.update h fun t =>
    { t with orderedDonations := listInsertOrdered k.compareDonors k.current t.orderedDonations }

/-- What `lock_acquire` does before it calls `sema_down`: a thread that finds
the lock held becomes a donor of the holder. -/
def joinDonors (l : LockId) : Kernel :=
  match k.holder l with
  | none => k
  | some h => if k.mlfqs then k else (k.setWaitLock (some l)).addDonor h

/-- `lock_acquire`. -/
def lockAcquire (l : LockId) : Option Switch :=
  if k.holder l = some k.current then none else some ((k.joinDonors l).lockWait l)

/-- `lock_try_acquire`. -/
def lockTryAcquire (l : LockId) : Option Switch :=
  if k.holder l = some k.current then none
  else some (.stay (if k.value (.ofLock l) > 0 then k.take l else k))

/-- `remove_donations`: those waiting on the lock leave the running thread's
donation list. -/
def removeDonations (l : LockId) : Kernel :=
  k.updateCurrent fun t =>
    { t with orderedDonations :=
        t.orderedDonations.filter fun donor => (k.threads donor).waitLock ≠ some l }

/-- The priority `check_needs_donations` gives to a thread: its own, or that
of the donor in front if it is higher. -/
def neededPriority (t : Thread) : ℤ :=
  match t.orderedDonations with
  | [] => t.origPriority
  | s :: _ => if k.priority s > t.origPriority then k.priority s else t.origPriority

/-- `check_needs_donations`, for the running thread. -/
def checkNeedsDonations : Kernel :=
  k.updateCurrent fun t => { t with priority := k.neededPriority t }

/-- `lock->holder = NULL`. -/
def dropHolder (l : LockId) : Kernel :=
  { k with holder := Function.update k.holder l none }

/-- `lock_release`. -/
def lockRelease (l : LockId) : Option Switch :=
  if k.holder l = some k.current then
    let dropped := k.dropHolder l
    (if k.mlfqs then dropped else (dropped.removeDonations l).checkNeedsDonations).semaUp
      (.ofLock l)
  else none

/-- `thread_set_priority`, of thread.c. -/
def threadSetPriority (priority : ℤ) : Switch :=
  if k.mlfqs then .stay k
  else
    let prev := k.priority k.current
    let k := (k.updateCurrent fun t => { t with origPriority := priority }).checkNeedsDonations
    if prev < k.priority k.current then .stay (k.checkToDonate k.current)
    else if prev > k.priority k.current then k.checkPriorityOrder
    else .stay k

/-! ## timer.c -/

/-- `compare_threads_by_wakeup_time`. -/
def compareThreadsByWakeupTime (a b : ThreadId) : Bool :=
  (k.threads a).wakeupTick ≤ (k.threads b).wakeupTick

/-- `timer_sleep` up to the point where it turns interrupts off: it reads the
tick counter into an `int`. -/
def timerSleep (ticks : ℤ) : Kernel :=
  if ticks ≤ 0 then k
  else k.updateCurrent fun t =>
    { t with pending := .sleepStart (int32 k.ticks + ticks) :: t.pending }

/-- `timer_sleep` from there on: it takes `shared_threads_list_lock`. -/
def sleepStart (wakeupTick : ℤ) : Option Switch :=
  (k.updateCurrent fun t =>
    { t with pending := .sleepEnqueue wakeupTick :: .threadBlock :: t.pending }
    ).lockAcquire .sharedThreadsListLock

/-- `timer_sleep` with the lock held. -/
def sleepEnqueue (wakeupTick : ℤ) : Option Switch :=
  let k := k.updateCurrent fun t => { t with wakeupTick := wakeupTick, slept := true }
  { k with threadsToWakeup :=
      listInsertOrdered k.compareThreadsByWakeupTime k.current k.threadsToWakeup }.lockRelease
    .sharedThreadsListLock

/-- The loop of `timer_interrupt` over `threads_to_wakeup`. -/
def wakeThreads : List ThreadId → Kernel → Option Kernel
  | [], k => some { k with threadsToWakeup := [] }
  | t :: list, k =>
    if k.ticks < (k.threads t).wakeupTick then some { k with threadsToWakeup := t :: list }
    else (k.threadUnblock t).bind (wakeThreads list)

/-- The part of `timer_interrupt` that is for the advanced scheduler. -/
def mlfqsTick : Kernel :=
  let k := k.tickIncrement
  if k.ticks % timerFreq = 0 then k.calculateLoadAvg.doRecalculate
  else if k.ticks % timeSlice = 0 then k.calculatePriority k.current
  else k

/-- `timer_interrupt`, with `thread_tick` and the return from the interrupt. -/
def timerInterrupt : Option Switch := do
  let k := { k with ticks := k.ticks + 1, threadTicks := k.threadTicks + 1 }
  let yieldOnReturn := k.threadTicks ≥ timeSlice
  let k := if k.mlfqs then k.mlfqsTick else k
  let k ← wakeThreads k.threadsToWakeup k
  return if yieldOnReturn then k.threadYield else .stay k

end Kernel

/-! ## The machine -/

/-- The code of an action, for the running thread. -/
def Action.run : Action → Kernel → Option Switch
  | .lockAcquire l, k => k.lockAcquire l
  | .lockWait l, k => some (k.lockWait l)
  | .lockTryAcquire l, k => k.lockTryAcquire l
  | .lockRelease l, k => k.lockRelease l
  | .semaDown n, k => some (k.semaDown n)
  | .semaTryDown n, k => some (.stay (k.semaTryDown n))
  | .semaUp n, k => k.semaUp (.sema n)
  | .threadCreate priority, k => k.threadCreate priority
  | .startThread t, k => k.startThread t
  | .threadYield, k => some k.threadYield
  | .threadSetPriority priority, k => some (k.threadSetPriority priority)
  | .threadSetNice nice, k => some (k.threadSetNice nice)
  | .threadBlock, k => some (k.threadBlock .unblocked)
  | .unblocked, k => some (.stay k)
  | .threadUnblock t, k => (k.threadUnblock t).map .stay
  | .threadExit, k => some k.threadExit
  | .timerSleep ticks, k => some (.stay (k.timerSleep ticks))
  | .sleepStart wakeupTick, k => k.sleepStart wakeupTick
  | .sleepEnqueue wakeupTick, k => k.sleepEnqueue wakeupTick

/-- What can happen next. -/
inductive Event
  /-- The running thread calls a kernel function. -/
  | call (a : Action)
  /-- The running thread goes on with the call it is in. -/
  | resume
  /-- The timer interrupts. -/
  | timerInterrupt
  /-- Another interrupt's handler raises a semaphore. -/
  | semaUpInterrupt (n : ℕ)
  deriving DecidableEq

namespace Kernel

variable (k : Kernel)

/-- What a thread may call. The rest of a call is not one; the idle thread
only ever blocks; and only a thread that blocked itself without queueing
anywhere is unblocked from outside the functions modelled here. -/
def mayCall : Action → Bool
  | .lockWait _ | .startThread _ | .unblocked | .sleepStart _ | .sleepEnqueue _ => false
  | .threadUnblock t =>
    k.current ≠ k.idleThread ∧ (k.threads t).pending.head? = some .unblocked
      ∧ t ∉ k.threadsToWakeup ∧ t ≠ k.idleThread
  | .threadBlock => true
  | _ => k.current ≠ k.idleThread

/-- Whether interrupts are on: in the running thread's own code, in
`thread_create` around the calls it makes, and in `timer_sleep` when it has
read the tick counter. -/
def interruptsOn : Bool :=
  match (k.threads k.current).pending with
  | [] | .lockAcquire _ :: _ | .lockRelease _ :: _ | .startThread _ :: _
  | .sleepStart _ :: _ => true
  | _ => false

/-- The running thread is at the given rest of its call. -/
def goOn (rest : List Action) : Kernel := k.updateCurrent fun t => { t with pending := rest }

/-- The code that an event makes the running thread run. -/
def action : Event → Option Action
  | .call a => some a
  | .resume => (k.threads k.current).pending.head?
  | .timerInterrupt | .semaUpInterrupt _ => none

/-- **What an event does**, up to the call of `schedule` it may end with. -/
def handle : Event → Option Switch
  | .call a =>
    if (k.threads k.current).pending = [] ∧ k.mayCall a then a.run k else none
  | .resume =>
    match (k.threads k.current).pending with
    | [] => none
    | a :: rest => a.run (k.goOn rest)
  | .timerInterrupt => if k.interruptsOn then k.timerInterrupt else none
  | .semaUpInterrupt n => if k.interruptsOn then (k.semaWake (.sema n)).map .stay else none

end Kernel

/-- The state after a piece of kernel code. -/
def Switch.finish : Switch → Kernel
  | .stay k => k
  | .schedule k => k.schedule

/-- **A step of the kernel.** The idle thread does not exit, and a thread that
does holds no lock: the holder of a lock is a pointer to the thread, whose
page is freed. -/
def KernelStep (k : Kernel) (e : Event) (k' : Kernel) : Prop :=
  (k.action e = some .threadExit → k.current ≠ k.idleThread ∧ ∀ l, k.holder l ≠ some k.current)
    ∧ (k.handle e).map Switch.finish = some k'

/-- The step an event that is not an exit makes. -/
def Kernel.next (k : Kernel) (e : Event) : Option Kernel :=
  if k.action e = some .threadExit then none else (k.handle e).map Switch.finish

theorem Kernel.kernelStep_of_next {k k' : Kernel} {e : Event} (h : k.next e = some k') :
    KernelStep k e k' := by
  unfold Kernel.next at h
  split at h
  · cases h
  · rename_i hexit
    exact ⟨fun ha => absurd ha hexit, h⟩

/-- The events of a call of `thread_create` that is not interrupted. -/
def createEvents (priority : ℤ) : List Event :=
  [.call (.threadCreate priority), .resume, .resume, .resume]

/-- **The kernel as `thread_start` leaves it**, with semaphores of any initial
values: `main` runs, and the idle thread waits to be chosen. -/
def boot (mlfqs : Bool) (values : ℕ → ℕ) : Kernel where
  mlfqs := mlfqs
  threads t :=
    if t = 0 then { Kernel.newThread priDefault with status := .running }
    else if t = 1 then { Kernel.newThread priMin with status := .ready }
    else { Kernel.newThread priMin with status := .dying }
  nextThread := 2
  current := 0
  idleThread := 1
  readyList := []
  allList := [0, 1]
  holder _ := none
  value
    | .sema n => values n
    | .ofLock _ => 1
  waiters _ := []
  threadsToWakeup := []
  ticks := 0
  threadTicks := 0
  loadAvg := fixInt 0

end Pintos
