import Cs162.Run

/-!
# Waiting for a child

A parent and its child share one `child_process` record, and neither locks it.
The parent's `process_wait` marks the record, looks whether the child has
exited, and if not creates the semaphore on which it then waits; the child's
`exit` and `process_exit` write the status and the flag, and raise the
semaphore if there is one. Every read or write of the record and every
semaphore operation is a step here, and the two take their steps in any order.

The two looks cross: the parent may find the child alive just before the child
finds no semaphore, and then waits for ever (`processWait_lost`). As long as
the child does not look between the parent's look and its allocation, nor
raise between the allocation and the initialisation (`Bond.Unhurried`), the
parent is woken, the first wait returns the status and every later one `-1`
(`processWait_spec`).
-/

namespace Pintos

open Transition

/-- `ERROR`. -/
def waitError : Int := -1

/-- **What `wait_sema` points to.** Only the parent ever waits on it. -/
inductive WaitSema where
  | null
  /-- Allocated and not initialised. -/
  | raw
  /-- A semaphore; `waiting` says whether the parent is on its list of
  waiters. -/
  | sema (value : ℕ) (waiting : Bool)
  deriving DecidableEq

/-- **A `child_process` record**, as far as waiting and exiting use it. -/
structure ChildProcess where
  waited : Bool
  exited : Bool
  status : Int
  waitSema : WaitSema
  deriving DecidableEq

/-- `add_child_process`: the status is what the memory held. -/
def addChildProcess (memory : Int) : ChildProcess := ⟨false, false, memory, .null⟩

/-- **Where the parent stands** in `process_wait`. -/
inductive WaitStage where
  | called
  /-- `get_child_process` has found the record. -/
  | found
  | unwaited
  | marked
  /-- The parent has seen that the child has exited. -/
  | zombie
  /-- The parent has seen that the child has not exited. -/
  | alive
  | allocated
  /-- The pointer has been read for `sema_init`. -/
  | initialising
  | initialised
  /-- The pointer has been read for `sema_down`. -/
  | lowering
  /-- In `thread_block`, or woken from it. -/
  | blocked
  | lowered
  | collected (status : Int)
  deriving DecidableEq

/-- **Where the child stands** in `exit` and `process_exit`. -/
inductive ExitPhase where
  | running
  | exiting
  | exited
  /-- The child has seen that there is a semaphore. -/
  | raising
  /-- The pointer has been read for `sema_up`. -/
  | upping
  | finished
  /-- It has used memory that is not what it took it for. -/
  | wild
  deriving DecidableEq

/-- **A parent and one of its children.** -/
structure Bond where
  /-- The record is on the `child_list` of the parent; off the list it has
  been freed. -/
  listed : Bool
  cp : ChildProcess
  /-- The `process_wait` of the parent for this child, if it is in one. -/
  stage : Option WaitStage
  child : ExitPhase
  /-- What the calls of `process_wait` have returned. -/
  answers : List Int
  deriving DecidableEq

namespace Bond

/-- A child that has just been created. -/
def created (memory : Int) : Bond := ⟨true, addChildProcess memory, none, .running, []⟩

/-- `process_wait` returns. -/
def answer (b : Bond) (status : Int) : Bond :=
  { b with stage := none, answers := b.answers ++ [status] }

/-- **`sema_down`**, from its test of the value. -/
def semaDown (b : Bond) : Option Bond :=
  match b.cp.waitSema with
  | .sema 0 _ => some { b with
      cp := { b.cp with waitSema := .sema 0 true }
      stage := some .blocked }
  | .sema (value + 1) waiting => some { b with
      cp := { b.cp with waitSema := .sema value waiting }
      stage := some .lowered }
  | _ => none

/-- **The next step of `process_wait`.** A blocked parent has none until it is
off the list of waiters. -/
def waitNext (b : Bond) : Option Bond :=
  match b.stage with
  | none => none
  | some .called =>
    if b.listed then some { b with stage := some .found } else some (b.answer waitError)
  | some .found =>
    if b.cp.waited then some (b.answer waitError) else some { b with stage := some .unwaited }
  | some .unwaited => some { b with cp := { b.cp with waited := true }, stage := some .marked }
  | some .marked => some { b with stage := some (if b.cp.exited then .zombie else .alive) }
  | some .zombie => some (b.answer b.cp.status)
  | some .alive => some { b with
      cp := { b.cp with waitSema := .raw }
      stage := some .allocated }
  | some .allocated => some { b with stage := some .initialising }
  | some .initialising => some { b with
      cp := { b.cp with waitSema := .sema 0 false }
      stage := some .initialised }
  | some .initialised => some { b with stage := some .lowering }
  | some .lowering => b.semaDown
  | some .blocked =>
    match b.cp.waitSema with
    | .sema _ true => none
    | _ => b.semaDown
  | some .lowered => some { b with stage := some (.collected b.cp.status) }
  | some (.collected status) => some ({ b with listed := false }.answer status)

/-- **`sema_up`** of the child. -/
def semaUp (b : Bond) : Bond :=
  match b.cp.waitSema with
  | .sema value _ => { b with
      cp := { b.cp with waitSema := .sema (value + 1) false }
      child := .finished }
  | _ => { b with child := .wild }

/-- **The next step of the child**, which calls `exit` with a status, or ends
without one because it could not be loaded. Its parent is alive: it is in
`process_wait`, or goes on afterwards. -/
def exitNext (ending : Option Int) (b : Bond) : Option Bond :=
  match b.child with
  | .finished | .wild => none
  | phase =>
    if b.listed = false then some { b with child := .wild }
    else match phase with
    | .running =>
      match ending with
      | some status => some { b with cp := { b.cp with status := status }, child := .exiting }
      | none => some { b with child := .exiting }
    | .exiting => some { b with cp := { b.cp with exited := true }, child := .exited }
    | .exited =>
      some { b with child := if b.cp.waitSema = .null then .finished else .raising }
    | .raising => some { b with child := .upping }
    | _ => some b.semaUp

end Bond

/-- **The events**: the parent calls `process_wait`, or takes its next step in
it; the child takes its next step. -/
inductive BondEvent where
  | call
  | wait
  | exit
  deriving DecidableEq

/-- The step of an event. -/
def Bond.next (ending : Option Int) (b : Bond) : BondEvent → Option Bond
  | .call => if b.stage = none then some { b with stage := some .called } else none
  | .wait => b.waitNext
  | .exit => b.exitNext ending

/-- **The condition on a step**: the child does not look for the semaphore
after the parent has found it alive and before the parent has allocated one,
and does not raise one that is not initialised. -/
def Bond.Unhurried (b : Bond) : BondEvent → Prop
  | .exit => ¬ (b.child = .exited ∧ b.stage = some .alive)
      ∧ ¬ (b.child = .upping ∧ b.cp.waitSema = .raw)
  | _ => True

instance (b : Bond) (e : BondEvent) : Decidable (b.Unhurried e) := by
  cases e <;> unfold Bond.Unhurried <;> infer_instance

/-- A step of a parent and its child. -/
def BondStep (ending : Option Int) (b : Bond) (e : BondEvent) (b' : Bond) : Prop :=
  b.next ending e = some b'

/-- A step that meets the condition. -/
def UnhurriedStep (ending : Option Int) (b : Bond) (e : BondEvent) (b' : Bond) : Prop :=
  BondStep ending b e b' ∧ b.Unhurried e

/-- The child has set `exited`. -/
def ExitPhase.hasExited : ExitPhase → Bool
  | .exited | .raising | .upping | .finished => true
  | _ => false

/-- The child has seen a semaphore and has not raised it. -/
def ExitPhase.isRaising : ExitPhase → Bool
  | .raising | .upping => true
  | _ => false

namespace Bond

/-- No wait has marked the record. -/
def Unwaited (b : Bond) : Prop :=
  b.listed = true ∧ b.cp.waited = false ∧ b.answers = []
    ∧ b.cp.waitSema = .null ∧ b.child.isRaising = false

/-- The first wait has marked the record and has not returned. -/
def Waiting (b : Bond) : Prop :=
  b.listed = true ∧ b.cp.waited = true ∧ b.answers = []

/-- A wait has returned the status. The record has been freed only if the
child no longer uses it. -/
def Served (b : Bond) : Prop :=
  b.cp.waited = true ∧ b.cp.exited = true
    ∧ (∃ n, b.answers = b.cp.status :: List.replicate n waitError)
    ∧ (b.listed = true ∧ b.cp.waitSema = .null ∧ b.child.isRaising = false
      ∨ b.child = .finished)

/-- What holds at each stage of `process_wait`. -/
def StageInv (b : Bond) : Option WaitStage → Prop
  | none | some .called | some .found => b.Unwaited ∨ b.Served
  | some .unwaited => b.Unwaited
  | some .marked => b.Waiting ∧ b.cp.waitSema = .null ∧ b.child.isRaising = false
  | some .zombie =>
    b.Waiting ∧ b.cp.waitSema = .null ∧ b.child.isRaising = false ∧ b.cp.exited = true
  | some .alive =>
    b.Waiting ∧ b.cp.waitSema = .null ∧ b.child.isRaising = false ∧ b.child ≠ .finished
  | some .allocated | some .initialising =>
    b.Waiting ∧ b.cp.waitSema = .raw ∧ b.child ≠ .finished
  | some .initialised | some .lowering =>
    b.Waiting ∧ b.cp.waitSema = .sema (if b.child = .finished then 1 else 0) false
  | some .blocked => b.Waiting
    ∧ (b.cp.waitSema = .sema 0 true ∧ b.child ≠ .finished
      ∨ b.cp.waitSema = .sema 1 false ∧ b.child = .finished)
  | some .lowered => b.Waiting ∧ b.child = .finished
  | some (.collected status) => b.Waiting ∧ b.child = .finished ∧ status = b.cp.status

end Bond

/-- **The invariant of a parent and its child.** -/
structure BondInv (ending : Option Int) (b : Bond) : Prop where
  tame : b.child ≠ .wild
  exited : b.cp.exited = b.child.hasExited
  status : ∀ s, ending = some s → b.child ≠ .running → b.cp.status = s
  stage : b.StageInv b.stage

namespace BondInv

variable {ending : Option Int} {b b' : Bond}

theorem created (ending : Option Int) (memory : Int) : BondInv ending (Bond.created memory) where
  tame := nofun
  exited := rfl
  status _ _ h := absurd rfl h
  stage := .inl ⟨rfl, rfl, rfl, rfl, rfl⟩

/-- A step of the parent leaves the child and what it has written alone. -/
theorem of_stage (h : BondInv ending b) (hchild : b'.child = b.child)
    (hexited : b'.cp.exited = b.cp.exited) (hstatus : b'.cp.status = b.cp.status)
    (hstage : b'.StageInv b'.stage) : BondInv ending b' where
  tame := hchild ▸ h.tame
  exited := by rw [hexited, hchild, h.exited]
  status s hs hrun := by rw [hstatus, h.status s hs (hchild ▸ hrun)]
  stage := hstage

/-- A wait that finds the record used, or none, returns `-1`. -/
theorem answered (h : BondInv ending b) (hserved : b.Served) :
    BondInv ending (b.answer waitError) := by
  obtain ⟨hwaited, hexited, ⟨n, hanswers⟩, hdone⟩ := hserved
  refine h.of_stage rfl rfl rfl (.inr ⟨hwaited, hexited, ⟨n + 1, ?_⟩, hdone⟩)
  show b.answers ++ [waitError] = _
  rw [hanswers, List.replicate_succ', List.cons_append]
  rfl

/-- The child has not exited before it sets the flag. -/
theorem not_finished (h : BondInv ending b) (hexited : b.cp.exited = false) :
    b.child ≠ .finished := by
  intro hchild
  have := h.exited
  rw [hexited, hchild] at this
  cases this

/-- A `sema_down` that is reached with the parent off the list of waiters. -/
theorem semaDown (h : BondInv ending b) (hwaiting : b.Waiting)
    (hsema : b.cp.waitSema = .sema (if b.child = .finished then 1 else 0) false)
    (hstep : b.semaDown = some b') : BondInv ending b' := by
  unfold Bond.semaDown at hstep
  by_cases hchild : b.child = .finished
  · rw [hsema, if_pos hchild] at hstep
    cases hstep
    exact h.of_stage rfl rfl rfl ⟨hwaiting, hchild⟩
  · rw [hsema, if_neg hchild] at hstep
    cases hstep
    exact h.of_stage rfl rfl rfl ⟨hwaiting, .inl ⟨rfl, hchild⟩⟩

/-- **A step of `process_wait`** keeps the invariant. -/
theorem wait (h : BondInv ending b) (hstep : b.waitNext = some b') : BondInv ending b' := by
  have hstage := h.stage
  unfold Bond.waitNext at hstep
  split at hstep <;> rename_i heq <;> rw [heq] at hstage
  · cases hstep
  · -- `called`
    split at hstep
    · cases hstep
      exact h.of_stage rfl rfl rfl hstage
    · rename_i hfreed
      cases hstep
      exact h.answered (hstage.resolve_left fun hun => hfreed hun.1)
  · -- `found`
    split at hstep <;> rename_i hwaited <;> cases hstep
    · refine h.answered (hstage.resolve_left fun hun => ?_)
      rw [hun.2.1] at hwaited
      cases hwaited
    · exact h.of_stage rfl rfl rfl (hstage.resolve_right fun hserved => hwaited hserved.1)
  · -- `unwaited`
    obtain ⟨hlisted, -, hanswers, hsema, hraising⟩ := hstage
    cases hstep
    exact h.of_stage rfl rfl rfl ⟨⟨hlisted, rfl, hanswers⟩, hsema, hraising⟩
  · -- `marked`
    obtain ⟨hwaiting, hsema, hraising⟩ := hstage
    cases hstep
    refine h.of_stage rfl rfl rfl ?_
    cases hexited : b.cp.exited with
    | true => exact ⟨hwaiting, hsema, hraising, hexited⟩
    | false => exact ⟨hwaiting, hsema, hraising, h.not_finished hexited⟩
  · -- `zombie`
    obtain ⟨⟨hlisted, hwaited, hanswers⟩, hsema, hraising, hexited⟩ := hstage
    cases hstep
    refine h.of_stage rfl rfl rfl
      (.inr ⟨hwaited, hexited, ⟨0, ?_⟩, .inl ⟨hlisted, hsema, hraising⟩⟩)
    show b.answers ++ [b.cp.status] = _
    rw [hanswers]
    rfl
  · -- `alive`
    obtain ⟨hwaiting, -, -, hchild⟩ := hstage
    cases hstep
    exact h.of_stage rfl rfl rfl ⟨hwaiting, rfl, hchild⟩
  · -- `allocated`
    cases hstep
    exact h.of_stage rfl rfl rfl hstage
  · -- `initialising`
    obtain ⟨hwaiting, -, hchild⟩ := hstage
    cases hstep
    refine h.of_stage rfl rfl rfl ⟨hwaiting, ?_⟩
    show WaitSema.sema 0 false = .sema (if b.child = .finished then 1 else 0) false
    rw [if_neg hchild]
  · -- `initialised`
    cases hstep
    exact h.of_stage rfl rfl rfl hstage
  · -- `lowering`
    exact h.semaDown hstage.1 hstage.2 hstep
  · -- `blocked`
    obtain ⟨hwaiting, ⟨hsema, -⟩ | ⟨hsema, hchild⟩⟩ := hstage
    · rw [hsema] at hstep
      cases hstep
    · refine h.semaDown hwaiting (by rw [hsema, if_pos hchild]) ?_
      rw [hsema] at hstep
      exact hstep
  · -- `lowered`
    cases hstep
    exact h.of_stage rfl rfl rfl ⟨hstage.1, hstage.2, rfl⟩
  · -- `collected`
    obtain ⟨⟨-, hwaited, hanswers⟩, hchild, rfl⟩ := hstage
    cases hstep
    have hexited : b.cp.exited = true := by rw [h.exited, hchild]; rfl
    refine h.of_stage rfl rfl rfl (.inr ⟨hwaited, hexited, ⟨0, ?_⟩, .inr hchild⟩)
    show b.answers ++ [b.cp.status] = _
    rw [hanswers]
    rfl

end BondInv

namespace Bond.StageInv

variable {b : Bond} {stage : Option WaitStage}

/-- A child that has not finished has its record. -/
theorem listed (h : b.StageInv stage) (hchild : b.child ≠ .finished) : b.listed = true := by
  have hor : b.Unwaited ∨ b.Served → b.listed = true := by
    rintro (hun | ⟨-, -, -, hdone⟩)
    · exact hun.1
    · exact (hdone.resolve_right hchild).1
  unfold StageInv at h
  split at h
  · exact hor h
  · exact hor h
  · exact hor h
  · exact h.1
  all_goals exact h.1.1

/-- A step of the child before it looks for the semaphore, or between its look
and `sema_up`. -/
theorem frame (h : b.StageInv stage) {exited : Bool} {status : Int} {phase : ExitPhase}
    (hchild : b.child ≠ .finished) (hphase : phase ≠ .finished)
    (hraising : phase.isRaising = b.child.isRaising)
    (hexited : b.cp.exited = true → exited = true ∧ status = b.cp.status) : { b with
      cp := { b.cp with exited := exited, status := status }
      child := phase }.StageInv stage := by
  have hor : b.Unwaited ∨ b.Served →
      Unwaited { b with
          cp := { b.cp with exited := exited, status := status }
          child := phase }
        ∨ Served { b with
          cp := { b.cp with exited := exited, status := status }
          child := phase } := by
    rintro (⟨hlisted, hwaited, hanswers, hsema, hquiet⟩ | ⟨hwaited, hex, hanswers, hdone⟩)
    · exact .inl ⟨hlisted, hwaited, hanswers, hsema, hraising.trans hquiet⟩
    · obtain ⟨hex', hst⟩ := hexited hex
      obtain ⟨hlisted, hsema, hquiet⟩ := hdone.resolve_right hchild
      subst hst
      exact .inr ⟨hwaited, hex', hanswers, .inl ⟨hlisted, hsema, hraising.trans hquiet⟩⟩
  match stage, h with
  | none, h | some .called, h | some .found, h => exact hor h
  | some .unwaited, ⟨hlisted, hwaited, hanswers, hsema, hquiet⟩ =>
    exact ⟨hlisted, hwaited, hanswers, hsema, hraising.trans hquiet⟩
  | some .marked, ⟨hwaiting, hsema, hquiet⟩ => exact ⟨hwaiting, hsema, hraising.trans hquiet⟩
  | some .zombie, ⟨hwaiting, hsema, hquiet, hex⟩ =>
    exact ⟨hwaiting, hsema, hraising.trans hquiet, (hexited hex).1⟩
  | some .alive, ⟨hwaiting, hsema, hquiet, _⟩ =>
    exact ⟨hwaiting, hsema, hraising.trans hquiet, hphase⟩
  | some .allocated, ⟨hwaiting, hsema, _⟩ | some .initialising, ⟨hwaiting, hsema, _⟩ =>
    exact ⟨hwaiting, hsema, hphase⟩
  | some .initialised, ⟨hwaiting, hsema⟩ | some .lowering, ⟨hwaiting, hsema⟩ =>
    rw [if_neg hchild] at hsema
    exact ⟨hwaiting, by rw [if_neg hphase]; exact hsema⟩
  | some .blocked, ⟨hwaiting, hsema⟩ =>
    refine ⟨hwaiting, .inl ⟨?_, hphase⟩⟩
    exact (hsema.resolve_right fun hfin => hchild hfin.2).1
  | some .lowered, ⟨_, hfin⟩ => exact absurd hfin hchild
  | some (.collected _), ⟨_, hfin, _⟩ => exact absurd hfin hchild

/-- The child finds no semaphore, and the parent will not wait for it. -/
theorem look_null (h : b.StageInv stage) (hchild : b.child = .exited)
    (hsema : b.cp.waitSema = .null) (halive : stage ≠ some .alive) :
    { b with child := .finished }.StageInv stage := by
  match stage, h with
  | none, h | some .called, h | some .found, h =>
    refine h.imp (fun hun => ?_) fun hserved => ?_
    · exact ⟨hun.1, hun.2.1, hun.2.2.1, hun.2.2.2.1, rfl⟩
    · exact ⟨hserved.1, hserved.2.1, hserved.2.2.1, .inr rfl⟩
  | some .unwaited, ⟨hlisted, hwaited, hanswers, _, _⟩ =>
    exact ⟨hlisted, hwaited, hanswers, hsema, rfl⟩
  | some .marked, ⟨hwaiting, _, _⟩ => exact ⟨hwaiting, hsema, rfl⟩
  | some .zombie, ⟨hwaiting, _, _, hexited⟩ => exact ⟨hwaiting, hsema, rfl, hexited⟩
  | some .alive, _ => exact absurd rfl halive
  | some .allocated, ⟨_, hraw, _⟩ | some .initialising, ⟨_, hraw, _⟩ =>
    rw [hsema] at hraw
    cases hraw
  | some .initialised, ⟨_, hready⟩ | some .lowering, ⟨_, hready⟩ =>
    rw [hsema] at hready
    cases hready
  | some .blocked, ⟨_, hready⟩ =>
    rw [hsema] at hready
    rcases hready with ⟨hready, -⟩ | ⟨hready, -⟩ <;> cases hready
  | some .lowered, ⟨_, hfin⟩ | some (.collected _), ⟨_, hfin, _⟩ =>
    rw [hchild] at hfin
    cases hfin

/-- The child finds the semaphore of a parent that waits. -/
theorem look_sema (h : b.StageInv stage) (hchild : b.child = .exited)
    (hsema : b.cp.waitSema ≠ .null) : { b with child := .raising }.StageInv stage := by
  have hne : b.child ≠ .finished := by
    rw [hchild]
    exact nofun
  match stage, h with
  | none, h | some .called, h | some .found, h =>
    rcases h with hun | ⟨-, -, -, hdone⟩
    · exact absurd hun.2.2.2.1 hsema
    · exact absurd (hdone.resolve_right hne).2.1 hsema
  | some .unwaited, ⟨_, _, _, hnull, _⟩ => exact absurd hnull hsema
  | some .marked, ⟨_, hnull, _⟩ | some .zombie, ⟨_, hnull, _, _⟩ | some .alive, ⟨_, hnull, _, _⟩ =>
    exact absurd hnull hsema
  | some .allocated, ⟨hwaiting, hraw, _⟩ | some .initialising, ⟨hwaiting, hraw, _⟩ =>
    exact ⟨hwaiting, hraw, nofun⟩
  | some .initialised, ⟨hwaiting, hready⟩ | some .lowering, ⟨hwaiting, hready⟩ =>
    rw [if_neg hne] at hready
    exact ⟨hwaiting, hready⟩
  | some .blocked, ⟨hwaiting, hready⟩ =>
    exact ⟨hwaiting, .inl ⟨(hready.resolve_right fun hfin => hne hfin.2).1, nofun⟩⟩
  | some .lowered, ⟨_, hfin⟩ | some (.collected _), ⟨_, hfin, _⟩ => exact absurd hfin hne

theorem semaUp (h : b.StageInv stage) (hchild : b.child = .upping) (hraw : b.cp.waitSema ≠ .raw) :
    ∃ waiting, b.cp.waitSema = .sema 0 waiting
      ∧ { b with
          cp := { b.cp with waitSema := .sema 1 false }
          child := .finished }.StageInv stage := by
  have hne : b.child ≠ .finished := by
    rw [hchild]
    exact nofun
  have hloud : ¬ b.child.isRaising = false := by
    rw [hchild]
    exact nofun
  match stage, h with
  | none, h | some .called, h | some .found, h =>
    rcases h with hun | ⟨-, -, -, hdone⟩
    · exact absurd hun.2.2.2.2 hloud
    · exact absurd (hdone.resolve_right hne).2.2 hloud
  | some .unwaited, ⟨_, _, _, _, hquiet⟩ => exact absurd hquiet hloud
  | some .marked, ⟨_, _, hquiet⟩ | some .zombie, ⟨_, _, hquiet, _⟩
  | some .alive, ⟨_, _, hquiet, _⟩ => exact absurd hquiet hloud
  | some .allocated, ⟨_, heq, _⟩ | some .initialising, ⟨_, heq, _⟩ => exact absurd heq hraw
  | some .initialised, ⟨hwaiting, hready⟩ | some .lowering, ⟨hwaiting, hready⟩ =>
    rw [if_neg hne] at hready
    exact ⟨false, hready, hwaiting, rfl⟩
  | some .blocked, ⟨hwaiting, hready⟩ =>
    obtain ⟨hready, -⟩ := hready.resolve_right fun hfin => hne hfin.2
    exact ⟨true, hready, hwaiting, .inr ⟨rfl, rfl⟩⟩
  | some .lowered, ⟨_, hfin⟩ | some (.collected _), ⟨_, hfin, _⟩ => exact absurd hfin hne

end Bond.StageInv

namespace BondInv

variable {ending : Option Int} {b b' : Bond}

/-- **A step of the child** that meets the condition keeps the invariant. -/
theorem exit (h : BondInv ending b) (hunhurried : b.Unhurried .exit)
    (hstep : b.exitNext ending = some b') : BondInv ending b' := by
  obtain ⟨hlook, hraise⟩ := hunhurried
  have hlisted : b.child ≠ .finished → ¬ b.listed = false := by
    intro hchild hfreed
    rw [h.stage.listed hchild] at hfreed
    cases hfreed
  unfold Bond.exitNext at hstep
  cases hchild : b.child with
  | finished => simp [hchild] at hstep
  | wild => exact absurd hchild h.tame
  | running =>
    have hne : b.child ≠ .finished := by rw [hchild]; exact nofun
    have hexited : b.cp.exited = false := by rw [h.exited, hchild]; rfl
    simp only [hchild, if_neg (hlisted hne)] at hstep
    cases ending with
    | some status =>
      cases hstep
      refine ⟨nofun, hexited, fun s hs _ => Option.some.inj hs, ?_⟩
      exact h.stage.frame hne nofun (by rw [hchild]; rfl) (by rw [hexited]; exact nofun)
    | none =>
      cases hstep
      refine ⟨nofun, hexited, nofun, ?_⟩
      exact h.stage.frame hne nofun (by rw [hchild]; rfl) (by rw [hexited]; exact nofun)
  | exiting =>
    have hne : b.child ≠ .finished := by rw [hchild]; exact nofun
    simp only [hchild, if_neg (hlisted hne)] at hstep
    cases hstep
    refine ⟨nofun, rfl, fun s hs _ => h.status s hs (by rw [hchild]; exact nofun), ?_⟩
    exact h.stage.frame hne nofun (by rw [hchild]; rfl) fun _ => ⟨rfl, rfl⟩
  | exited =>
    have hne : b.child ≠ .finished := by rw [hchild]; exact nofun
    have hexited : b.cp.exited = true := by rw [h.exited, hchild]; rfl
    have hstatus := fun s hs => h.status s hs (by rw [hchild]; exact nofun)
    simp only [hchild, if_neg (hlisted hne)] at hstep
    cases hstep
    by_cases hsema : b.cp.waitSema = .null
    · rw [if_pos hsema]
      exact ⟨nofun, hexited, fun s hs _ => hstatus s hs,
        h.stage.look_null hchild hsema fun halive => hlook ⟨hchild, halive⟩⟩
    · rw [if_neg hsema]
      exact ⟨nofun, hexited, fun s hs _ => hstatus s hs, h.stage.look_sema hchild hsema⟩
  | raising =>
    have hne : b.child ≠ .finished := by rw [hchild]; exact nofun
    have hexited : b.cp.exited = true := by rw [h.exited, hchild]; rfl
    simp only [hchild, if_neg (hlisted hne)] at hstep
    cases hstep
    refine ⟨nofun, hexited, fun s hs _ => h.status s hs (by rw [hchild]; exact nofun), ?_⟩
    exact h.stage.frame hne nofun (by rw [hchild]; rfl) fun hex => ⟨hex, rfl⟩
  | upping =>
    have hne : b.child ≠ .finished := by rw [hchild]; exact nofun
    have hexited : b.cp.exited = true := by rw [h.exited, hchild]; rfl
    obtain ⟨waiting, hsema, hstage⟩ := h.stage.semaUp hchild fun hraw => hraise ⟨hchild, hraw⟩
    simp only [hchild, if_neg (hlisted hne), Bond.semaUp, hsema] at hstep
    cases hstep
    exact ⟨nofun, hexited, fun s hs _ => h.status s hs (by rw [hchild]; exact nofun), hstage⟩

/-- **Every step that meets the condition keeps the invariant.** -/
theorem step {e : BondEvent} (h : BondInv ending b) (hstep : UnhurriedStep ending b e b') :
    BondInv ending b' := by
  obtain ⟨hnext, hunhurried⟩ := hstep
  cases e with
  | call =>
    unfold BondStep Bond.next at hnext
    dsimp only at hnext
    split at hnext
    · rename_i hidle
      have hstage := h.stage
      rw [hidle] at hstage
      cases hnext
      exact h.of_stage rfl rfl rfl hstage
    · cases hnext
  | wait => exact h.wait hnext
  | exit => exact h.exit hunhurried hnext

/-- **The answers**: the status first, then `-1`. -/
theorem answers (h : BondInv ending b) {s : Int} (hs : ending = some s) :
    b.answers = [] ∨ ∃ n, b.answers = s :: List.replicate n waitError := by
  have hor : b.Unwaited ∨ b.Served →
      b.answers = [] ∨ ∃ n, b.answers = s :: List.replicate n waitError := by
    refine Or.imp (fun hun => hun.2.2.1) ?_
    rintro ⟨-, hexited, ⟨n, hanswers⟩, -⟩
    refine ⟨n, ?_⟩
    rw [hanswers, h.status s hs]
    intro hchild
    rw [h.exited, hchild] at hexited
    cases hexited
  have hstage := h.stage
  unfold Bond.StageInv at hstage
  split at hstage
  · exact hor hstage
  · exact hor hstage
  · exact hor hstage
  · exact .inl hstage.2.2.1
  all_goals exact .inl hstage.1.2.2

end BondInv

/-! ## Progress -/

/-- An upper bound for the steps that `process_wait` has left. -/
def WaitStage.left : WaitStage → ℕ
  | .called => 12
  | .found => 11
  | .unwaited => 10
  | .marked => 9
  | .zombie => 1
  | .alive => 8
  | .allocated => 7
  | .initialising => 6
  | .initialised => 5
  | .lowering => 4
  | .blocked => 3
  | .lowered => 2
  | .collected _ => 1

namespace Bond

/-- The steps of the parent alone, up to a number of them. -/
def waitSteps : ℕ → Bond → Bond
  | 0, b => b
  | n + 1, b =>
    match b.waitNext with
    | some b' => b'.waitSteps n
    | none => b

/-- The parent is on the list of waiters. -/
def Blocked (b : Bond) : Prop :=
  b.stage = some .blocked ∧ ∃ value, b.cp.waitSema = .sema value true

end Bond

namespace BondInv

variable {ending : Option Int} {b b' : Bond}

theorem not_blocked (h : BondInv ending b) : ¬ (b.Blocked ∧ b.child = .finished) := by
  rintro ⟨⟨hblocked, value, hsema⟩, hchild⟩
  have hstage := h.stage
  rw [hblocked] at hstage
  obtain ⟨-, ⟨-, hne⟩ | ⟨hready, -⟩⟩ := hstage
  · exact hne hchild
  · rw [hsema] at hready
    cases hready

/-- Once the child has finished, every step of the parent brings it nearer to
its return. -/
theorem wait_left (h : BondInv ending b) (hchild : b.child = .finished) {stage : WaitStage}
    (hstage : b.stage = some stage) : ∃ b', b.waitNext = some b' ∧ b'.child = .finished
      ∧ ∀ stage', b'.stage = some stage' → stage'.left < stage.left := by
  have hinv := h.stage
  rw [hstage] at hinv
  have hdown : b.cp.waitSema = .sema 1 false → 2 < stage.left →
      ∃ b', b.semaDown = some b' ∧ b'.child = .finished
        ∧ ∀ stage', b'.stage = some stage' → stage'.left < stage.left := by
    intro hsema hleft
    unfold Bond.semaDown
    rw [hsema]
    refine ⟨_, rfl, hchild, fun stage' hs => ?_⟩
    cases hs
    exact hleft
  unfold Bond.waitNext
  rw [hstage]
  cases stage with
  | called | found =>
    dsimp only
    split <;> refine ⟨_, rfl, hchild, fun stage' hs => ?_⟩ <;> cases hs
    decide
  | marked =>
    refine ⟨_, rfl, hchild, fun stage' hs => ?_⟩
    cases hs
    split <;> decide
  | lowering =>
    obtain ⟨-, hsema⟩ := hinv
    rw [if_pos hchild] at hsema
    exact hdown hsema (by decide)
  | blocked =>
    obtain ⟨-, hsema⟩ := hinv
    obtain ⟨hsema, -⟩ := hsema.resolve_left fun hne => hne.2 hchild
    rw [hsema]
    exact hdown hsema (by decide)
  | unwaited | zombie | alive | allocated | initialising | initialised | lowered | collected =>
    refine ⟨_, rfl, hchild, fun stage' hs => ?_⟩
    cases hs <;> simp [WaitStage.left]

/-- Once the child has finished, a wait that has begun returns. -/
theorem waitSteps_stage (h : BondInv ending b) (hchild : b.child = .finished) (n : ℕ)
    (hleft : ∀ stage, b.stage = some stage → stage.left ≤ n) : (b.waitSteps n).stage = none := by
  induction n generalizing b with
  | zero =>
    cases hstage : b.stage with
    | none => exact hstage
    | some stage =>
      have hzero := hleft stage hstage
      cases stage <;> cases hzero
  | succ n ih =>
    cases hstage : b.stage with
    | none =>
      have hnone : b.waitNext = none := by
        unfold Bond.waitNext
        rw [hstage]
      rw [Bond.waitSteps, hnone]
      exact hstage
    | some stage =>
      obtain ⟨b', hnext, hchild', hless⟩ := h.wait_left hchild hstage
      rw [Bond.waitSteps, hnext]
      refine ih (h.wait hnext) hchild' fun stage' hs => ?_
      have hbound := hleft stage hstage
      have hlt := hless stage' hs
      omega

/-- A blocked parent waits for a child that can go on. -/
theorem exit_of_blocked (h : BondInv ending b) (hblocked : b.Blocked) :
    ∃ b', UnhurriedStep ending b .exit b' := by
  have hchild : b.child ≠ .finished := fun hchild => h.not_blocked ⟨hblocked, hchild⟩
  obtain ⟨hstage, value, hsema⟩ := hblocked
  have hnext : ∃ b', b.exitNext ending = some b' := by
    unfold Bond.exitNext
    have htame := h.tame
    cases hphase : b.child with
    | finished => exact absurd hphase hchild
    | wild => exact absurd hphase htame
    | running =>
      dsimp only
      split
      · exact ⟨_, rfl⟩
      · cases ending <;> exact ⟨_, rfl⟩
    | exiting | exited | raising | upping =>
      dsimp only
      split <;> exact ⟨_, rfl⟩
  obtain ⟨b', hnext⟩ := hnext
  refine ⟨b', hnext, ?_, ?_⟩
  · rw [hstage]
    rintro ⟨-, hne⟩
    cases hne
  · rw [hsema]
    rintro ⟨-, hne⟩
    cases hne

end BondInv

/-- **The wait and exit protocol**, for a child that does not look for the
semaphore, or raise it, too early: in every state of every run the parent is
not blocked when the child has finished; a blocked parent has a child that can
go on, and once the child has finished, a wait in progress returns. The first
wait returns the status of `exit`, and every later one `-1`. -/
theorem processWait_spec {ending : Option Int} {memory : Int} {events : List BondEvent} {b : Bond}
    (hrun : Run (UnhurriedStep ending) (Bond.created memory) events b) :
    ¬ (b.Blocked ∧ b.child = .finished)
      ∧ b.child ≠ .wild
      ∧ (b.Blocked → ∃ b', UnhurriedStep ending b .exit b')
      ∧ (b.child = .finished → (b.waitSteps 12).stage = none)
      ∧ ∀ s, ending = some s →
        b.answers = [] ∨ ∃ n, b.answers = s :: List.replicate n waitError := by
  have hinv : BondInv ending b := hrun.invariant (I := fun _ b => BondInv ending b)
    (.created ending memory) fun _ _ _ _ h hstep => h.step hstep
  refine ⟨hinv.not_blocked, hinv.tame, hinv.exit_of_blocked, fun hchild => ?_,
    fun s => hinv.answers⟩
  refine hinv.waitSteps_stage hchild 12 fun stage _ => ?_
  cases stage <;> simp [WaitStage.left]

/-- The parent waits before the child exits, and once more afterwards. -/
def waitedEvents : List BondEvent :=
  [.call] ++ List.replicate 9 .wait ++ List.replicate 5 .exit ++ List.replicate 3 .wait
    ++ [.call, .wait]

theorem processWait_spec_waited :
    ∃ b, Run (UnhurriedStep (some 7)) (Bond.created 0) waitedEvents b
      ∧ b.answers = [7, waitError]
      ∧ (b.answers = [] ∨ ∃ n, b.answers = 7 :: List.replicate n waitError) := by
  have hrun : (waitedEvents.foldlM (fun (b : Bond) e =>
      if b.Unhurried e then b.next (some 7) e else none) (Bond.created 0)).any
      (fun b => b.answers = [7, waitError]) = true := by
    decide
  obtain ⟨b, hb, hanswers⟩ := (Option.any_eq_true _ _).mp hrun
  have hrun : Run (UnhurriedStep (some 7)) (Bond.created 0) waitedEvents b := by
    refine Run.of_foldlM (fun b e b' h => ?_) hb
    split at h
    · rename_i hunhurried
      exact ⟨h, hunhurried⟩
    · cases h
  exact ⟨b, hrun, of_decide_eq_true hanswers, (processWait_spec hrun).2.2.2.2 7 rfl⟩

/-- The child exits after the parent has found it alive and before there is a
semaphore. -/
def lostEvents : List BondEvent :=
  [.call] ++ List.replicate 4 .wait ++ List.replicate 3 .exit ++ List.replicate 5 .wait

/-- **A lost wake-up**: the child has finished, and the parent is blocked. -/
theorem processWait_lost :
    ∃ b, Run (BondStep (some 7)) (Bond.created 0) lostEvents b
      ∧ b.Blocked ∧ b.child = .finished := by
  have hrun : (lostEvents.foldlM (Bond.next (some 7)) (Bond.created 0)).any
      (fun b => b.stage = some .blocked ∧ b.cp.waitSema = .sema 0 true ∧ b.child = .finished)
      = true := by
    decide
  obtain ⟨b, hb, hstate⟩ := (Option.any_eq_true _ _).mp hrun
  obtain ⟨hstage, hsema, hchild⟩ := of_decide_eq_true hstate
  exact ⟨b, Run.of_foldlM (fun _ _ _ h => h) hb, ⟨hstage, 0, hsema⟩, hchild⟩

end Pintos
