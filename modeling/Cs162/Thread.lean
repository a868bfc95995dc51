import Cs162.FixedPoint
import Cs162.KernelList

/-!
# Threads and the scheduler

The state of the kernel as `threads/thread.c`, `threads/synch.c` and
`devices/timer.c` see it. A thread is known by a number in place of the
address of its `struct thread`; locks and semaphores are numbered families, so
that there are as many of them as a program likes.

Kernel code runs with interrupts off from one point where control can change
hands to the next. A thread that loses the processor inside such a function
goes on with the rest of it when it is scheduled again: what it has still to
run is the list `pending` of its `Thread` record. The function `schedule` is
always the last thing of such a piece of code, so the outcome of a piece is a
`Switch`: the thread keeps the processor, or `schedule` is called.
-/

namespace Pintos

open KernelList

/-- The number of a thread. -/
abbrev ThreadId := ℕ

/-- A lock: `tid_lock` of thread.c, `shared_threads_list_lock` of timer.c, or
any other. -/
inductive LockId
  | tidLock
  | sharedThreadsListLock
  | lock (n : ℕ)
  deriving DecidableEq

/-- A semaphore: one of its own, or the one inside a lock. -/
inductive SemaRef
  | sema (n : ℕ)
  | ofLock (l : LockId)
  deriving DecidableEq

/-- `enum thread_status`. -/
inductive ThreadStatus
  | running
  | ready
  | blocked
  | dying
  deriving DecidableEq

/-- A piece of kernel code that a thread runs without losing the processor on
the way: a call, or what is left of one after a switch. -/
inductive Action
  | lockAcquire (l : LockId)
  /-- The loop of `sema_down`, called by `lock_acquire`, and the rest of
  `lock_acquire`. -/
  | lockWait (l : LockId)
  | lockTryAcquire (l : LockId)
  | lockRelease (l : LockId)
  /-- The loop of `sema_down`, which is all of it. -/
  | semaDown (n : ℕ)
  | semaTryDown (n : ℕ)
  | semaUp (n : ℕ)
  /-- `thread_create` up to the call of `allocate_tid`. -/
  | threadCreate (priority : ℤ)
  /-- `thread_create` from there on, for the thread just made. -/
  | startThread (t : ThreadId)
  | threadYield
  | threadSetPriority (priority : ℤ)
  | threadSetNice (nice : ℤ)
  | threadBlock
  /-- Nothing: `thread_block` returns. -/
  | unblocked
  | threadUnblock (t : ThreadId)
  | threadExit
  | timerSleep (ticks : ℤ)
  /-- `timer_sleep` once it has read the tick counter. -/
  | sleepStart (wakeupTick : ℤ)
  /-- `timer_sleep` with the list lock held, up to the end of `lock_release`. -/
  | sleepEnqueue (wakeupTick : ℤ)
  deriving DecidableEq

/-- `struct thread`, as far as the scheduler reads it. -/
structure Thread where
  status : ThreadStatus
  priority : ℤ
  origPriority : ℤ
  waitLock : Option LockId
  orderedDonations : List ThreadId
  wakeupTick : ℤ
  /-- Whether `wakeup_list_elem` has ever been linked. -/
  slept : Bool
  nice : ℤ
  recentCpu : FixedPoint
  /-- What the thread has still to run of the calls it is in. -/
  pending : List Action
  deriving DecidableEq

/-- The kernel's data. -/
structure Kernel where
  /-- `thread_mlfqs`. -/
  mlfqs : Bool
  threads : ThreadId → Thread
  /-- The number the next thread will get. -/
  nextThread : ThreadId
  /-- `running_thread ()`. -/
  current : ThreadId
  idleThread : ThreadId
  readyList : List ThreadId
  allList : List ThreadId
  holder : LockId → Option ThreadId
  value : SemaRef → ℕ
  waiters : SemaRef → List ThreadId
  threadsToWakeup : List ThreadId
  ticks : ℕ
  threadTicks : ℕ
  loadAvg : FixedPoint

/-- How a piece of kernel code ends: the thread keeps the processor, or
`schedule` is called in the given state. -/
inductive Switch
  | stay (k : Kernel)
  | schedule (k : Kernel)

def priMin : ℤ := 0
def priMax : ℤ := 63
def priDefault : ℤ := 31
def niceMin : ℤ := -20
def niceMax : ℤ := 20
def timeSlice : ℕ := 4
def timerFreq : ℕ := 100

namespace Kernel

variable (k : Kernel)

/-- The effective priority of a thread. -/
def priority (t : ThreadId) : ℤ := (k.threads t).priority

/-- A change to one thread's record. -/
@[simps]
def update (t : ThreadId) (f : Thread → Thread) : Kernel :=
  { k with threads := Function.update k.threads t (f (k.threads t)) }

/-- A change to the running thread's record. -/
@[simps!]
def updateCurrent (f : Thread → Thread) : Kernel := k.update k.current f

/-- `compare_priority`, on the `elem` members of two threads. -/
def comparePriority (a b : ThreadId) : Bool := k.priority a > k.priority b

/-- `thread_lower_priority`. -/
def threadLowerPriority (a b : ThreadId) : Bool := !k.comparePriority a b

/-! ## thread.c -/

/-- `next_thread_to_run`: the front of the ready list, which is taken off, or
the idle thread. -/
def nextThreadToRun : ThreadId := k.readyList.headD k.idleThread

/-- `schedule` with `thread_schedule_tail`: the chosen thread runs, and a new
time slice starts. -/
def schedule : Kernel :=
  { k with current := k.nextThreadToRun, readyList := k.readyList.tail,
           threadTicks := 0 }.updateCurrent fun t => { t with status := .running }

/-- `thread_block`, with the code its caller goes on with once someone has
unblocked the thread. -/
def threadBlock (next : Action) : Switch :=
  .schedule (k.updateCurrent fun t =>
    { t with status := .blocked, pending := next :: t.pending })

/-- A thread enters the ready list, behind those of its priority. -/
def makeReady (t : ThreadId) : Kernel :=
  { k with readyList := listInsertOrdered k.comparePriority t k.readyList }.update t
    fun th => { th with status := .ready }

/-- `thread_unblock`, with its assertion. -/
def threadUnblock (t : ThreadId) : Option Kernel :=
  if (k.threads t).status = .blocked then some (k.makeReady t) else none

/-- `thread_yield`; the idle thread does not enter the ready list. -/
def threadYield : Switch :=
  if k.current ≠ k.idleThread then .schedule (k.makeReady k.current)
  else .schedule (k.updateCurrent fun t => { t with status := .ready })

/-- `check_priority_order`, outside interrupts. -/
def checkPriorityOrder : Switch :=
  match listMax k.threadLowerPriority k.readyList with
  | none => .stay k
  | some max => if k.priority max > k.priority k.current then k.threadYield else .stay k

/-- The priority `calculate_priority` gives to a thread. -/
def calculatedPriority (t : Thread) : ℤ :=
  let priority := fixRound (fixSub (fixSub (fixInt priMax) (fixUnscale t.recentCpu 4))
    (fixInt (2 * t.nice)))
  if priority < priMin then priMin else if priority > priMax then priMax else priority

/-- `calculate_priority`. -/
def calculatePriority (t : ThreadId) : Kernel :=
  if t = k.idleThread then k
  else k.update t fun th => { th with priority := calculatedPriority th }

/-- The value `calculate_recent_cpu` gives to a thread's `recent_cpu`. -/
def calculatedRecentCpu (loadAvg : FixedPoint) (t : Thread) : FixedPoint :=
  let loadNum := fixScale loadAvg 2
  let loadFrac := fixDiv loadNum (fixAdd loadNum (fixInt 1))
  fixAdd (fixMul loadFrac t.recentCpu) (fixInt t.nice)

/-- `calculate_recent_cpu`. -/
def calculateRecentCpu (t : ThreadId) : Kernel :=
  if t = k.idleThread then k
  else k.update t fun th => { th with recentCpu := calculatedRecentCpu k.loadAvg th }

/-- `calculate_load_avg`. -/
def calculateLoadAvg : Kernel :=
  let size := k.readyList.length + if k.current ≠ k.idleThread then 1 else 0
  { k with loadAvg := fixAdd (fixMul (fixFrac 59 60) k.loadAvg) (fixFrac size 60) }

/-- `tick_increment`. -/
def tickIncrement : Kernel :=
  if k.current = k.idleThread then k
  else k.updateCurrent fun t => { t with recentCpu := fixAdd t.recentCpu (fixInt 1) }

/-- `do_recalculate`. -/
def doRecalculate : Kernel :=
  k.allList.foldl (fun k t => (k.calculateRecentCpu t).calculatePriority t) k

/-- `thread_set_nice`. -/
def threadSetNice (nice : ℤ) : Switch :=
  let nice := if nice < niceMin then niceMin else if nice > niceMax then niceMax else nice
  ((k.updateCurrent fun t => { t with nice := nice }).calculatePriority
    k.current).checkPriorityOrder

/-- The record `init_thread` makes. -/
def newThread (priority : ℤ) : Thread where
  status := .blocked
  priority := priority
  origPriority := priority
  waitLock := none
  orderedDonations := []
  wakeupTick := 0
  slept := false
  nice := 0
  recentCpu := fixInt 0
  pending := []

/-- `init_thread`: the new thread goes to the end of `all_list`. -/
def initThread (priority : ℤ) : Kernel :=
  { k with nextThread := k.nextThread + 1, allList := k.allList ++ [k.nextThread] }.update
    k.nextThread fun _ => newThread priority

/-- `thread_create` up to the call of `allocate_tid`, which takes and releases
`tid_lock`; there is a page for the thread. -/
def threadCreate (priority : ℤ) : Option Switch :=
  if priMin ≤ priority ∧ priority ≤ priMax then
    some (.stay ((k.initThread priority).updateCurrent fun t =>
      { t with pending := .lockAcquire .tidLock :: .lockRelease .tidLock ::
                 .startThread k.nextThread :: t.pending }))
  else none

/-- The rest of `thread_create`. -/
def startThread (t : ThreadId) : Option Switch :=
  (k.threadUnblock t).map checkPriorityOrder

/-- `list_remove` of a thread's `donation_list_elem`. -/
def leaveDonors (t : ThreadId) : Kernel :=
  { k with threads := fun u =>
      { k.threads u with orderedDonations := (k.threads u).orderedDonations.erase t } }

/-- The running thread leaves `all_list` and is dying. -/
def die : Kernel :=
  { k with allList := k.allList.erase k.current }.updateCurrent
    fun t => { t with status := .dying }

/-- `thread_exit`: a thread that waits for a lock leaves the donation list it
is on. -/
def threadExit : Switch :=
  .schedule (if (k.threads k.current).waitLock ≠ none then k.leaveDonors k.current else k).die

end Kernel

end Pintos
