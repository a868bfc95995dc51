import Mathlib

/-!
# Participants of a two-phase commit

A participant holds a copy of some data and is asked to change it in two
steps. A request is recorded and voted on, and changes nothing; a decision
then executes or drops it. The decision does not name the request: what a
commit executes is the request recorded last, if nothing was decided since.

Data and requests are arbitrary. A `Service` says which requests can be
executed on which data and what they do, and `Participant.handle` is the
participant's step. A participant whose last request was accepted is waiting
for the decision, and refuses further requests until it arrives.

The invariant is `Participant.Sound`: a participant waits exactly when the
request it recorded last is one it can still execute. It makes the vote a
promise, since the data does not change while the participant waits.
-/

namespace TwoPhase

/-- **What is replicated**: which requests can be executed, and how. -/
structure Service (Req M : Type*) where
  /-- Whether a request can be executed on the data. -/
  accepts : Req → M → Bool
  /-- What executing it makes of the data. -/
  exec : Req → M → M

variable {Req M : Type*}

/-- The effect of a request that is executed only where it is accepted. -/
def Service.apply (svc : Service Req M) (m : M) (r : Req) : M :=
  if svc.accepts r m then svc.exec r m else m

/-- **What a participant is sent.** -/
inductive Msg (Req : Type*) where
  | request (r : Req)
  | commit
  | abort

/-- **What it answers.** -/
inductive Reply where
  | voteCommit
  | voteAbort
  | refused
  | ack
  deriving DecidableEq

/-- **A participant**: its data, the request it recorded last unless a
decision was recorded since, and whether it waits for a decision. -/
structure Participant (Req M : Type*) where
  /-- The data. -/
  data : M
  /-- The undecided request. -/
  last : Option Req
  /-- Whether the participant voted to commit and waits. -/
  waiting : Bool

namespace Participant

variable (svc : Service Req M)

/-- The data after a commit: the undecided request is executed. -/
def committed (p : Participant Req M) : M :=
  match p.last with
  | some r => svc.apply p.data r
  | none => p.data

/-- **A participant's step.** -/
def handle (p : Participant Req M) : Msg Req → Participant Req M × Reply
  | .request r =>
    if p.waiting then (p, .refused)
    else
      ({ p with last := some r, waiting := svc.accepts r p.data },
        if svc.accepts r p.data then .voteCommit else .voteAbort)
  | .commit => (⟨p.committed svc, none, false⟩, .ack)
  | .abort => (⟨p.data, none, false⟩, .ack)

/-- **The invariant**: a participant waits exactly when the undecided request
is one it accepts. -/
def Sound (p : Participant Req M) : Prop :=
  p.waiting = true ↔ ∃ r, p.last = some r ∧ svc.accepts r p.data = true

variable {svc} {p : Participant Req M}

/-- A waiting participant refuses a request. -/
theorem handle_request_of_waiting (hw : p.waiting = true) (r : Req) :
    p.handle svc (.request r) = (p, .refused) := if_pos hw

/-- Any other records it and votes. -/
theorem handle_request_of_not_waiting (hw : p.waiting = false) (r : Req) : p.handle svc (.request r)
      = ({ p with last := some r, waiting := svc.accepts r p.data },
          if svc.accepts r p.data then .voteCommit else .voteAbort) :=
  if_neg (by rw [hw]; simp)

theorem Sound.handle (h : p.Sound svc) (msg : Msg Req) : (p.handle svc msg).1.Sound svc := by
  cases msg with
  | request r =>
    cases hw : p.waiting with
    | true =>
      rw [handle_request_of_waiting hw]
      exact h
    | false =>
      rw [handle_request_of_not_waiting hw]
      show svc.accepts r p.data = true ↔ ∃ r', some r = some r' ∧ _
      constructor
      · exact fun ha => ⟨r, rfl, ha⟩
      · rintro ⟨r', hr, ha⟩
        cases hr
        exact ha
  | commit | abort =>
    show false = true ↔ ∃ r, none = some r ∧ _
    simp

/-- A waiting participant has an undecided request, and accepts it. -/
theorem Sound.exists_last (h : p.Sound svc) (hw : p.waiting = true) :
    ∃ r, p.last = some r ∧ svc.accepts r p.data = true := h.mp hw

/-- **A commit executes the request a waiting participant voted for.** -/
theorem Sound.committed_of_waiting (h : p.Sound svc) (hw : p.waiting = true)
    {r : Req} (hr : p.last = some r) : p.committed svc = svc.exec r p.data := by
  obtain ⟨r', hr', ha⟩ := h.exists_last hw
  rw [hr] at hr'
  cases hr'
  unfold committed
  rw [hr]
  exact if_pos ha

/-- **A commit changes nothing at a participant that does not wait.** -/
theorem Sound.committed_of_not_waiting (h : p.Sound svc) (hw : p.waiting = false) :
    p.committed svc = p.data := by
  unfold committed
  cases hr : p.last with
  | none => rfl
  | some r =>
    refine if_neg (fun ha => ?_)
    have := h.mpr ⟨r, hr, ha⟩
    rw [hw] at this
    exact absurd this (by simp)

end Participant

end TwoPhase
