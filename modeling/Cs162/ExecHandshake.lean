import Cs162.ProcessWait
import Cs162.UserProcesses

/-!
# The handshake of `exec`

`process_execute` allocates two copies of the command line and a semaphore, creates a thread
and waits on the semaphore; the new thread, in `start_process`, loads the program, writes
into its record whether it could, and raises the semaphore. Then `process_execute` frees what
it does not need any more, and `exec` looks the record up. Here every allocation may fail, and
so may `load`; the caller and the new thread take their steps in any order.

Everything is well if nothing runs out (`exec_answered_iff`). If it is the page of the thread
that there is none for, then `thread_create` returns `TID_ERROR`, and the caller waits all
the same, for nobody (`exec_waitsForNobody`): the pages it is to free then are freed behind
the wait. If it is the page of a copy, `process_execute` does return, and `exec` reads the
record of a child that was not made.
-/

namespace Pintos

open Transition

/-- **What the allocators answer**, and whether `load` succeeds. -/
structure ExecOutcome where
  /-- There is a page for `fn_copy`. -/
  fnCopy : Bool
  /-- There is a page for `exec_copy`. -/
  execCopy : Bool
  /-- There is memory for `exec_sema`. -/
  sema : Bool
  /-- There is a page for the thread. -/
  thread : Bool
  /-- There is memory for the record of the child. -/
  record : Bool
  load : Bool
  deriving DecidableEq

/-- `thread_create` is called, and has no page for the thread. -/
def ExecOutcome.CreateFails (o : ExecOutcome) : Prop :=
  o.fnCopy = true ∧ o.execCopy = true ∧ o.sema = true ∧ o.thread = false

/-- Nothing runs out. -/
def ExecOutcome.Enough (o : ExecOutcome) : Prop :=
  o.fnCopy = true ∧ o.execCopy = true ∧ o.sema = true ∧ o.thread = true ∧ o.record = true

/-- A page that `process_execute` allocates. -/
inductive CopyPage where
  | fnCopy
  | execCopy
  deriving DecidableEq

/-- **Where the caller stands** in `exec` and `process_execute`. -/
inductive ExecStage where
  | called
  /-- `fn_copy` has been made. -/
  | copied
  /-- `exec_copy` has been made. -/
  | copiedTwice
  /-- `exec_sema` has been set. -/
  | allocated
  | initialised
  /-- `thread_create` has returned. -/
  | created (tid : ℤ)
  /-- In `thread_block`, or woken from it. -/
  | blocked (tid : ℤ)
  | lowered (tid : ℤ)
  /-- `exec_copy` has been freed. -/
  | freedCopy (tid : ℤ)
  /-- `process_execute` has returned. -/
  | executed (tid : ℤ)
  /-- `get_child_process` has found the record. -/
  | found (tid : ℤ) (child : ℕ)
  /-- `exec` has returned. -/
  | returned (value : ℤ)
  /-- An assertion has failed, or a null pointer has been used. -/
  | panicked
  deriving DecidableEq

/-- **Where the new thread stands** in `start_process`. -/
inductive StartStage where
  | absent
  | loading
  /-- Its record says whether it could be loaded. -/
  | marked
  /-- It has raised the semaphore. -/
  | raised
  deriving DecidableEq

/-- **A live child that has not yet raised the semaphore.** -/
def StartStage.Owing (child : StartStage) : Prop := child = .loading ∨ child = .marked

/-- **The caller of `exec` and the thread it creates.** Only the caller ever waits on
`exec_sema`. -/
structure Execution where
  caller : ExecStage
  child : StartStage
  execSema : WaitSema
  /-- The `child_list` of the caller. -/
  childList : List ℕ
  /-- `loaded`, of the records. -/
  loaded : ℕ → LoadStatus
  /-- The pages that `process_execute` has freed. -/
  freed : List CopyPage

namespace Execution

/-- `exec` has been called, by a process that may have made other calls before. -/
def start (execSema : WaitSema) (childList : List ℕ) (loaded : ℕ → LoadStatus) : Execution :=
  ⟨.called, .absent, execSema, childList, loaded, []⟩

/-- The caller goes on. -/
def goto (s : Execution) (stage : ExecStage) : Execution := { s with caller := stage }

/-- `palloc_free_page`. -/
def free (s : Execution) (page : CopyPage) : Execution := { s with freed := s.freed ++ [page] }

/-- `get_child_process`. -/
def getChild (s : Execution) (pid : ℤ) : Option ℕ := s.childList.find? fun c => (c : ℤ) = pid

/-- `sema_init`, of a semaphore that must not be null. -/
def semaInit (s : Execution) : Execution :=
  match s.execSema with
  | .null => s.goto .panicked
  | _ => { s with execSema := .sema 0 false, caller := .initialised }

/-- **`sema_down`**, from its test of the value. -/
def semaDown (s : Execution) (tid : ℤ) : Execution :=
  match s.execSema with
  | .sema 0 _ => { s with execSema := .sema 0 true, caller := .blocked tid }
  | .sema (value + 1) waiting => { s with execSema := .sema value waiting, caller := .lowered tid }
  | _ => s.goto .panicked

/-- **`sema_up`** of the child. -/
def semaUp (s : Execution) : Execution :=
  match s.execSema with
  | .sema value _ => { s with execSema := .sema (value + 1) false, child := .raised }
  | _ => s

variable (o : ExecOutcome) (cmdLine : CString) (tid : ℕ)

/-- `thread_create` in `process_execute`, for a thread that gets the number `tid`. Behind the
allocation it needs a name, and memory for the record. -/
def threadCreate (s : Execution) : Execution :=
  if o.thread then
    match firstToken (pageCopy cmdLine) with
    | none => s.goto .panicked
    | some _ =>
      if o.record then
        { s with
          childList := s.childList ++ [tid]
          loaded := Function.update s.loaded tid .notLoaded
          child := .loading
          caller := .created tid }
      else s.goto .panicked
  else s.goto (.created tidError)

/-- **The next step of the caller.** A blocked caller has none until it is off the list of
waiters. -/
def callerNext (s : Execution) : Option Execution :=
  match s.caller with
  | .called => some (s.goto (if o.fnCopy then .copied else .executed tidError))
  | .copied =>
    if o.execCopy then some (s.goto .copiedTwice)
    else some ((s.free .fnCopy).goto (.executed tidError))
  | .copiedTwice =>
    some { s with execSema := if o.sema then .raw else .null, caller := .allocated }
  | .allocated => some s.semaInit
  | .initialised => some (s.threadCreate o cmdLine tid)
  | .created tid => some (s.semaDown tid)
  | .blocked tid =>
    match s.execSema with
    | .sema _ true => none
    | _ => some (s.semaDown tid)
  | .lowered tid => some ((s.free .execCopy).goto (.freedCopy tid))
  | .freedCopy tid =>
    if tid = tidError then
      some { s.free .fnCopy with execSema := .raw, caller := .executed tid }
    else some (s.goto (.executed tid))
  | .executed tid =>
    match s.getChild tid with
    | none => some (s.goto .panicked)
    | some child => some (s.goto (.found tid child))
  | .found tid child =>
    some (s.goto (.returned (if s.loaded child = .loadFail then callError.toInt else tid)))
  | .returned _ | .panicked => none

/-- **The next step of the new thread.** -/
def childNext (s : Execution) : Option Execution :=
  match s.child with
  | .absent | .raised => none
  | .loading => some { s with
      loaded := Function.update s.loaded tid (if o.load then .loadSuccess else .loadFail)
      child := .marked }
  | .marked => some s.semaUp

end Execution

/-- Who takes the next step. -/
inductive ExecEvent where
  | caller
  | child
  deriving DecidableEq

/-- The step of an event. -/
def Execution.next (o : ExecOutcome) (cmdLine : CString) (tid : ℕ) (s : Execution) :
    ExecEvent → Option Execution
  | .caller => s.callerNext o cmdLine tid
  | .child => s.childNext o tid

/-- A step of the caller or of the new thread. -/
def ExecStep (o : ExecOutcome) (cmdLine : CString) (tid : ℕ) (s : Execution) (e : ExecEvent)
    (s' : Execution) : Prop :=
  s.next o cmdLine tid e = some s'

/-- The caller is on the list of waiters. -/
def Execution.Waits (s : Execution) : Prop :=
  (∃ t, s.caller = .blocked t) ∧ ∃ value, s.execSema = .sema value true

/-- **What is asked of `exec`**, after any number of steps from its call. -/
structure ExecAnswered (o : ExecOutcome) (cmdLine : CString) (tid : ℕ) (steps : ℕ)
    (s : Execution) : Prop where
  /-- The caller does not wait for nobody. -/
  awaited : s.Waits → s.child.Owing
  /-- If `thread_create` fails, `process_execute` returns `TID_ERROR` and has freed both
  pages. -/
  cleaned : o.CreateFails → ∀ t, s.caller = .executed t →
    t = tidError ∧ .fnCopy ∈ s.freed ∧ .execCopy ∈ s.freed
  /-- `exec` returns `-1` exactly if there is no child or it could not be loaded. -/
  value : ∀ v, s.caller = .returned v → (v = -1 ↔ s.child = .absent ∨ o.load = false)
  /-- `exec` goes on until it has returned, -/
  goesOn : (∀ v, s.caller ≠ .returned v) → ∃ e s', ExecStep o cmdLine tid s e s'
  /-- and it does not go on for ever. -/
  ends : steps ≤ 13

/-- The caller can go on, unless it waits or has come to an end. -/
theorem Execution.callerNext_cases (o : ExecOutcome) (cmdLine : CString) (tid : ℕ)
    (s : Execution) : (∃ s', s.callerNext o cmdLine tid = some s') ∨ s.Waits
      ∨ (∃ v, s.caller = .returned v) ∨ s.caller = .panicked := by
  cases h : s.callerNext o cmdLine tid with
  | some s' => exact .inl ⟨s', rfl⟩
  | none =>
    unfold callerNext at h
    split at h
    all_goals try split at h
    all_goals try cases h
    · rename_i t hcaller _ value hsema
      exact .inr (.inl ⟨⟨t, hcaller⟩, value, hsema⟩)
    · rename_i v hcaller
      exact .inr (.inr (.inl ⟨v, hcaller⟩))
    · rename_i hcaller
      exact .inr (.inr (.inr hcaller))

/-- A thread that has not raised the semaphore can go on. -/
theorem StartStage.Owing.childNext {s : Execution} (h : s.child.Owing) (o : ExecOutcome)
    (tid : ℕ) : ∃ s', s.childNext o tid = some s' := by
  unfold Execution.childNext
  rcases h with h | h <;> rw [h] <;> exact ⟨_, rfl⟩

/-! ## Where nothing runs out -/

section Enough

variable {o : ExecOutcome} {cmdLine : CString} {tid : ℕ} {s s' : Execution} {steps : ℕ}

/-- How far the caller has come. -/
def ExecStage.rank : ExecStage → ℕ
  | .called => 0
  | .copied => 1
  | .copiedTwice => 2
  | .allocated => 3
  | .initialised => 4
  | .created _ => 5
  | .blocked _ => 6
  | .lowered _ => 7
  | .freedCopy _ => 8
  | .executed _ => 9
  | .found _ _ => 10
  | .returned _ | .panicked => 11

/-- How far the new thread has come. -/
def StartStage.rank : StartStage → ℕ
  | .absent | .loading => 0
  | .marked => 1
  | .raised => 2

namespace Execution

/-- The child has been created, and the semaphore is raised if the child has raised it. -/
def Shaken (s : Execution) (tid : ℕ) : Prop :=
  tid ∈ s.childList ∧ (s.child.Owing ∧ s.execSema = .sema 0 false
    ∨ s.child = .raised ∧ s.execSema = .sema 1 false)

/-- What holds at each stage of `exec`. -/
def StageInv (o : ExecOutcome) (tid : ℕ) (s : Execution) : ExecStage → Prop
  | .called | .copied | .copiedTwice => s.child = .absent
  | .allocated => s.child = .absent ∧ s.execSema = .raw
  | .initialised => s.child = .absent ∧ s.execSema = .sema 0 false
  | .created t => t = tid ∧ s.Shaken tid
  | .blocked t => t = tid ∧ (s.Shaken tid ∧ s.child = .raised
    ∨ tid ∈ s.childList ∧ s.child.Owing ∧ s.execSema = .sema 0 true)
  | .lowered t | .freedCopy t | .executed t => t = tid ∧ tid ∈ s.childList ∧ s.child = .raised
  | .found t c => t = tid ∧ c = tid ∧ s.child = .raised
  | .returned v => s.child = .raised ∧ v = if o.load then (tid : ℤ) else callError.toInt
  | .panicked => False

end Execution

/-- **The invariant where nothing runs out.** -/
structure ExecInv (o : ExecOutcome) (tid steps : ℕ) (s : Execution) : Prop where
  stage : s.StageInv o tid s.caller
  record : s.child = .marked ∨ s.child = .raised →
    s.loaded tid = if o.load then .loadSuccess else .loadFail
  steps : steps ≤ s.caller.rank + s.child.rank

namespace ExecInv

/-- `sema_down` where the caller is not on the list of waiters. -/
theorem semaDown (h : ExecInv o tid steps s) (hshaken : s.Shaken tid)
    (hrank : s.caller.rank = 5 ∨ s.caller.rank = 6 ∧ s.child = .raised) :
    ExecInv o tid (steps + 1) (s.semaDown tid) := by
  have hsteps := h.steps
  obtain ⟨hlisted, ⟨howing, hsema⟩ | ⟨hraised, hsema⟩⟩ := hshaken
  · have hrank' : s.caller.rank = 5 := by
      rcases hrank with hfive | ⟨-, hraised⟩
      · exact hfive
      · rcases howing with hchild | hchild <;> cases hraised.symm.trans hchild
    unfold Execution.semaDown
    rw [hsema]
    refine ⟨⟨rfl, .inr ⟨hlisted, howing, rfl⟩⟩, h.record, ?_⟩
    show steps + 1 ≤ 6 + s.child.rank
    omega
  · unfold Execution.semaDown
    rw [hsema]
    refine ⟨⟨rfl, hlisted, hraised⟩, h.record, ?_⟩
    show steps + 1 ≤ 7 + s.child.rank
    omega

theorem goto (h : ExecInv o tid steps s) {stage : ExecStage} (hstage : s.StageInv o tid stage)
    (hrank : stage.rank = s.caller.rank + 1) : ExecInv o tid (steps + 1) (s.goto stage) := by
  have hsteps := h.steps
  refine ⟨by cases stage <;> exact hstage, h.record, ?_⟩
  show steps + 1 ≤ stage.rank + s.child.rank
  omega

theorem getChild (hlisted : tid ∈ s.childList) : s.getChild tid = some tid := by
  unfold Execution.getChild
  obtain ⟨c, hc⟩ := Option.isSome_iff_exists.mp
    (List.find?_isSome (p := fun c : ℕ => decide ((c : ℤ) = tid)).mpr
      ⟨tid, hlisted, decide_eq_true rfl⟩)
  have heq := List.find?_some hc
  rw [hc, Int.ofNat.inj (decide_eq_true_iff.mp heq)]

/-- **A step of the caller** keeps the invariant. -/
theorem caller (henough : o.Enough) (hname : (firstToken (pageCopy cmdLine)).isSome)
    (h : ExecInv o tid steps s) (hstep : s.callerNext o cmdLine tid = some s') :
    ExecInv o tid (steps + 1) s' := by
  obtain ⟨hfn, hexec, hsema, hthread, hrecord⟩ := henough
  have hstage := h.stage
  have hsteps := h.steps
  unfold Execution.callerNext at hstep
  cases hcaller : s.caller with
  | called =>
    rw [hcaller] at hstep hstage
    simp only [hfn, if_true] at hstep
    cases hstep
    exact h.goto hstage (by rw [hcaller]; rfl)
  | copied =>
    rw [hcaller] at hstep hstage
    simp only [hexec, if_true] at hstep
    cases hstep
    exact h.goto hstage (by rw [hcaller]; rfl)
  | copiedTwice =>
    rw [hcaller] at hstep hstage hsteps
    simp only [hsema, if_true] at hstep
    cases hstep
    refine ⟨⟨hstage, rfl⟩, h.record, ?_⟩
    show steps + 1 ≤ 3 + s.child.rank
    have hrank : ExecStage.copiedTwice.rank = 2 := rfl
    omega
  | allocated =>
    rw [hcaller] at hstep hstage hsteps
    obtain ⟨hchild, hraw⟩ := hstage
    cases hstep
    unfold Execution.semaInit
    rw [hraw]
    refine ⟨⟨hchild, rfl⟩, h.record, ?_⟩
    show steps + 1 ≤ 4 + s.child.rank
    have hrank : ExecStage.allocated.rank = 3 := rfl
    omega
  | initialised =>
    rw [hcaller] at hstep hstage hsteps
    obtain ⟨hchild, hzero⟩ := hstage
    obtain ⟨name, hname⟩ := Option.isSome_iff_exists.mp hname
    cases hstep
    unfold Execution.threadCreate
    rw [if_pos hthread, hname]
    dsimp only
    rw [if_pos hrecord]
    refine ⟨⟨rfl, List.mem_append_right _ (List.mem_singleton_self _), .inl ⟨.inl rfl, hzero⟩⟩,
      nofun, ?_⟩
    rw [hchild] at hsteps
    exact Nat.succ_le_succ hsteps
  | created t =>
    rw [hcaller] at hstep hstage
    obtain ⟨rfl, hshaken⟩ := hstage
    cases hstep
    exact h.semaDown hshaken (.inl (by rw [hcaller]; rfl))
  | blocked t =>
    rw [hcaller] at hstep hstage
    obtain ⟨rfl, ⟨hshaken, hraised⟩ | ⟨-, -, hwaiting⟩⟩ := hstage
    · have hone : s.execSema = .sema 1 false := by
        obtain ⟨-, ⟨hchild | hchild, -⟩ | ⟨-, hone⟩⟩ := hshaken
        · cases hraised.symm.trans hchild
        · cases hraised.symm.trans hchild
        · exact hone
      rw [hone] at hstep
      cases hstep
      exact h.semaDown hshaken (.inr ⟨by rw [hcaller]; rfl, hraised⟩)
    · rw [hwaiting] at hstep
      cases hstep
  | lowered t =>
    rw [hcaller] at hstep hstage
    cases hstep
    refine ⟨hstage, h.record, ?_⟩
    rw [hcaller] at hsteps
    show steps + 1 ≤ 8 + s.child.rank
    have hrank : (ExecStage.lowered t).rank = 7 := rfl
    omega
  | freedCopy t =>
    rw [hcaller] at hstep hstage
    have hne : t ≠ tidError := by
      rw [hstage.1]
      unfold tidError
      omega
    simp only [if_neg hne] at hstep
    cases hstep
    exact h.goto hstage (by rw [hcaller]; rfl)
  | executed t =>
    rw [hcaller] at hstep hstage
    obtain ⟨rfl, hlisted, hraised⟩ := hstage
    simp only [getChild hlisted] at hstep
    cases hstep
    exact h.goto ⟨rfl, rfl, hraised⟩ (by rw [hcaller]; rfl)
  | found t c =>
    rw [hcaller] at hstep hstage
    obtain ⟨rfl, rfl, hraised⟩ := hstage
    have hloaded := h.record (.inr hraised)
    simp only [hloaded] at hstep
    cases hstep
    refine h.goto ⟨hraised, ?_⟩ (by rw [hcaller]; rfl)
    cases o.load <;> rfl
  | returned v | panicked =>
    rw [hcaller] at hstep
    cases hstep

/-- **As long as the new thread has not raised the semaphore**, the caller is in
`sema_down`, or about to be. -/
theorem of_owing (h : ExecInv o tid steps s) (howing : s.child.Owing) :
    tid ∈ s.childList ∧ (s.caller = .created tid ∧ s.execSema = .sema 0 false
      ∨ s.caller = .blocked tid ∧ s.execSema = .sema 0 true) := by
  have hstage := h.stage
  have hraised : s.child ≠ .raised := by
    rintro heq
    rcases howing with hchild | hchild <;> cases heq.symm.trans hchild
  have habsent : s.child ≠ .absent := by
    rintro heq
    rcases howing with hchild | hchild <;> cases heq.symm.trans hchild
  cases hcaller : s.caller with
  | called | copied | copiedTwice =>
    rw [hcaller] at hstage
    exact absurd hstage habsent
  | allocated | initialised =>
    rw [hcaller] at hstage
    exact absurd hstage.1 habsent
  | created t =>
    rw [hcaller] at hstage
    obtain ⟨rfl, hlisted, ⟨-, hzero⟩ | ⟨heq, -⟩⟩ := hstage
    · exact ⟨hlisted, .inl ⟨rfl, hzero⟩⟩
    · exact absurd heq hraised
  | blocked t =>
    rw [hcaller] at hstage
    obtain ⟨rfl, ⟨-, heq⟩ | ⟨hlisted, -, hzero⟩⟩ := hstage
    · exact absurd heq hraised
    · exact ⟨hlisted, .inr ⟨rfl, hzero⟩⟩
  | lowered t | freedCopy t | executed t | found t c =>
    rw [hcaller] at hstage
    exact absurd hstage.2.2 hraised
  | returned v =>
    rw [hcaller] at hstage
    exact absurd hstage.1 hraised
  | panicked =>
    rw [hcaller] at hstage
    exact hstage.elim

/-- **A step of the new thread** keeps the invariant. -/
theorem child (h : ExecInv o tid steps s) (hstep : s.childNext o tid = some s') :
    ExecInv o tid (steps + 1) s' := by
  have hsteps := h.steps
  unfold Execution.childNext at hstep
  cases hchild : s.child with
  | absent | raised =>
    rw [hchild] at hstep
    cases hstep
  | loading =>
    obtain ⟨hlisted, hwhere⟩ := h.of_owing (.inl hchild)
    rw [hchild] at hstep hsteps
    cases hstep
    refine ⟨?_, fun _ => Function.update_self .., Nat.succ_le_succ hsteps⟩
    rcases hwhere with ⟨hcaller, hzero⟩ | ⟨hcaller, hzero⟩
    · dsimp only
      rw [hcaller]
      exact ⟨rfl, hlisted, .inl ⟨.inr rfl, hzero⟩⟩
    · dsimp only
      rw [hcaller]
      exact ⟨rfl, .inr ⟨hlisted, .inr rfl, hzero⟩⟩
  | marked =>
    have hloaded := h.record (.inl hchild)
    obtain ⟨hlisted, ⟨hcaller, hzero⟩ | ⟨hcaller, hzero⟩⟩ := h.of_owing (.inr hchild)
    all_goals
      rw [hchild] at hstep hsteps
      cases hstep
      unfold Execution.semaUp
      rw [hzero]
      refine ⟨?_, fun _ => hloaded, Nat.succ_le_succ hsteps⟩
      dsimp only
      rw [hcaller]
    · exact ⟨rfl, hlisted, .inr ⟨rfl, rfl⟩⟩
    · exact ⟨rfl, .inl ⟨⟨hlisted, .inr ⟨rfl, rfl⟩⟩, rfl⟩⟩

/-- **In every run**, where nothing runs out. -/
theorem run (henough : o.Enough) (hname : (firstToken (pageCopy cmdLine)).isSome)
    {sema : WaitSema} {childList : List ℕ} {loaded : ℕ → LoadStatus} {es : List ExecEvent}
    (hrun : Run (ExecStep o cmdLine tid) (.start sema childList loaded) es s) :
    ExecInv o tid es.length s := by
  refine hrun.invariant (I := fun es s => ExecInv o tid es.length s)
    ⟨rfl, fun hchild => ?_, le_rfl⟩ fun es s e s' h hstep => ?_
  · rcases hchild with hchild | hchild <;> cases hchild
  · rw [List.length_append]
    cases e with
    | caller => exact h.caller henough hname hstep
    | child => exact h.child hstep

/-- **The invariant says all that is asked of `exec`.** -/
theorem answered (henough : o.Enough) (h : ExecInv o tid steps s) :
    ExecAnswered o cmdLine tid steps s := by
  have hstage := h.stage
  have hsteps := h.steps
  have hawaited (hwaits : s.Waits) : s.child.Owing := by
    obtain ⟨⟨t, hcaller⟩, value, hwaiting⟩ := hwaits
    rw [hcaller] at hstage
    obtain ⟨-, ⟨⟨-, ⟨-, hsema⟩ | ⟨-, hsema⟩⟩, -⟩ | ⟨-, howing, -⟩⟩ := hstage
    · cases hwaiting.symm.trans hsema
    · cases hwaiting.symm.trans hsema
    · exact howing
  refine ⟨hawaited, fun hfails => ?_, fun v hv => ?_, fun hnot => ?_, ?_⟩
  · obtain ⟨-, -, -, hthread, -⟩ := henough
    cases hthread.symm.trans hfails.2.2.2
  · rw [hv] at hstage
    obtain ⟨hraised, rfl⟩ := hstage
    rw [hraised]
    cases o.load
    · exact ⟨fun _ => .inr rfl, fun _ => rfl⟩
    · refine ⟨fun heq => ?_, fun hor => ?_⟩
      · rw [if_pos rfl] at heq
        omega
      · rcases hor with hor | hor <;> cases hor
  · rcases s.callerNext_cases o cmdLine tid with ⟨s', hs'⟩ | hwaits | ⟨v, hv⟩ | hpanicked
    · exact ⟨.caller, s', hs'⟩
    · obtain ⟨s', hs'⟩ := (hawaited hwaits).childNext o tid
      exact ⟨.child, s', hs'⟩
    · exact absurd hv (hnot v)
    · rw [hpanicked] at hstage
      exact hstage.elim
  · have hcaller : s.caller.rank ≤ 11 := by
      unfold ExecStage.rank
      split <;> decide
    have hchild : s.child.rank ≤ 2 := by cases s.child <;> decide
    omega

end ExecInv

end Enough

/-! ## Where something runs out -/

section Stuck

variable {o : ExecOutcome} {cmdLine : CString} {tid : ℕ} {s₀ s : Execution} {es : List ExecEvent}

/-- There is no child with the number `TID_ERROR`. -/
theorem Execution.getChild_tidError (s : Execution) : s.getChild tidError = none := by
  refine List.find?_eq_none.mpr fun c _ => ?_
  rw [decide_eq_true_iff]
  unfold tidError
  omega

theorem not_answered (hrun : Run (ExecStep o cmdLine tid) s₀ es s)
    (hstop : s.caller = .panicked ∧ s.child = .absent
      ∨ s.caller = .blocked tidError ∧ s.execSema = .sema 0 true ∧ s.child = .absent) :
    ¬ ∀ es s, Run (ExecStep o cmdLine tid) s₀ es s →
      ExecAnswered o cmdLine tid es.length s := by
  intro hall
  have hchild : s.child = .absent := by
    rcases hstop with ⟨-, hchild⟩ | ⟨-, -, hchild⟩ <;> exact hchild
  have hcaller : s.callerNext o cmdLine tid = none := by
    unfold Execution.callerNext
    rcases hstop with ⟨hcaller, -⟩ | ⟨hcaller, hsema, -⟩
    · rw [hcaller]
    · rw [hcaller, hsema]
  obtain ⟨e, s', hstep⟩ := (hall es s hrun).goesOn fun v hv => by
    rcases hstop with ⟨hcaller, -⟩ | ⟨hcaller, -⟩ <;> cases hcaller.symm.trans hv
  cases e with
  | caller => cases hcaller.symm.trans hstep
  | child =>
    have hnone : s.childNext o tid = none := by
      unfold Execution.childNext
      rw [hchild]
    cases hnone.symm.trans hstep

end Stuck

section Answered

variable (o : ExecOutcome) (cmdLine : CString) (tid : ℕ) (sema : WaitSema) (childList : List ℕ)
  (loaded : ℕ → LoadStatus)

/-- The first steps of the caller, on its own. -/
theorem run_caller {s : Execution} (n : ℕ)
    (h : (List.replicate n ExecEvent.caller).foldlM (Execution.next o cmdLine tid)
      (.start sema childList loaded) = some s) :
    Run (ExecStep o cmdLine tid) (.start sema childList loaded) (List.replicate n .caller) s :=
  Run.of_foldlM (fun _ _ _ hstep => hstep) h

/-- `process_execute` has returned `TID_ERROR`, and `exec` looks for a record. -/
theorem execStep_panicked {s : Execution} (hcaller : s.caller = .executed tidError) :
    ExecStep o cmdLine tid s .caller (s.goto .panicked) := by
  show s.callerNext o cmdLine tid = _
  unfold Execution.callerNext
  rw [hcaller]
  dsimp only
  rw [s.getChild_tidError]

/-- `thread_create` needs a name and memory for the record. -/
theorem execStep_create {s : Execution} (hcaller : s.caller = .initialised)
    (hthread : o.thread = true)
    (hnot : ¬ (o.record = true ∧ (firstToken (pageCopy cmdLine)).isSome)) :
    ExecStep o cmdLine tid s .caller (s.goto .panicked) := by
  show s.callerNext o cmdLine tid = _
  unfold Execution.callerNext Execution.threadCreate
  rw [hcaller]
  dsimp only
  rw [if_pos hthread]
  cases hname : firstToken (pageCopy cmdLine) with
  | none => rfl
  | some name =>
    rw [hname] at hnot
    exact congrArg some (if_neg fun hrecord => hnot ⟨hrecord, rfl⟩)

/-- **`exec` is answered if and only if nothing runs out** and the command line has a name in
it: in every run from the call, whatever the caller and the new thread do first, the caller
waits only for a thread that has yet to raise the semaphore, `exec` returns after at most
thirteen steps of the two, and it returns `-1` exactly if the program could not be loaded. -/
theorem exec_answered_iff :
    (∀ es s, Run (ExecStep o cmdLine tid) (.start sema childList loaded) es s →
        ExecAnswered o cmdLine tid es.length s)
      ↔ o.Enough ∧ (firstToken (pageCopy cmdLine)).isSome := by
  constructor
  · contrapose
    intro hnot
    obtain ⟨fnCopy, execCopy, memory, thread, record, load⟩ := o
    cases fnCopy with
    | false =>
      have hrun := run_caller ⟨false, execCopy, memory, thread, record, load⟩ cmdLine tid sema
        childList loaded 1 rfl
      exact not_answered (.snoc hrun (execStep_panicked _ _ _ rfl)) (.inl ⟨rfl, rfl⟩)
    | true =>
    cases execCopy with
    | false =>
      have hrun := run_caller ⟨true, false, memory, thread, record, load⟩ cmdLine tid sema
        childList loaded 2 rfl
      exact not_answered (.snoc hrun (execStep_panicked _ _ _ rfl)) (.inl ⟨rfl, rfl⟩)
    | true =>
    cases memory with
    | false =>
      -- the assertion of `sema_init`
      have hrun := run_caller ⟨true, true, false, thread, record, load⟩ cmdLine tid sema
        childList loaded 4 rfl
      exact not_answered hrun (.inl ⟨rfl, rfl⟩)
    | true =>
    cases thread with
    | false =>
      -- the caller waits, and there is no thread
      have hrun := run_caller ⟨true, true, true, false, record, load⟩ cmdLine tid sema
        childList loaded 6 rfl
      exact not_answered hrun (.inr ⟨rfl, rfl, rfl⟩)
    | true =>
      have hrun := run_caller ⟨true, true, true, true, record, load⟩ cmdLine tid sema
        childList loaded 4 rfl
      have hpanics : ¬ (record = true ∧ (firstToken (pageCopy cmdLine)).isSome) :=
        fun ⟨hrecord, hname⟩ => hnot ⟨⟨rfl, rfl, rfl, rfl, hrecord⟩, hname⟩
      exact not_answered (.snoc hrun (execStep_create _ _ _ rfl rfl hpanics)) (.inl ⟨rfl, rfl⟩)
  · rintro ⟨henough, hname⟩ es s hrun
    exact (ExecInv.run henough hname hrun).answered henough

/-- **There is no page for the thread**: the caller waits, and there is no thread to raise the
semaphore. No step is left, and neither page has been freed. -/
theorem exec_waitsForNobody : ∃ s,
    Run (ExecStep ⟨true, true, true, false, true, true⟩ ⟨[97], by decide⟩ 3)
      (.start .null [] fun _ => .notLoaded) (List.replicate 6 .caller) s
    ∧ s.Waits ∧ ¬ s.child.Owing ∧ s.freed = []
    ∧ ∀ e, s.next ⟨true, true, true, false, true, true⟩ ⟨[97], by decide⟩ 3 e = none := by
  refine ⟨_, run_caller _ _ 3 .null [] (fun _ => .notLoaded) 6 rfl, ⟨⟨_, rfl⟩, 0, rfl⟩, ?_, rfl,
    fun e => ?_⟩
  · rintro (h | h) <;> cases h
  · cases e <;> rfl

end Answered

end Pintos
