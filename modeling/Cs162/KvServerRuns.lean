import Cs162.KvParticipant
import Cs162.Run

/-!
# Runs of a server

A TPC server handles messages one after another, in whatever order they
arrive – duplicates, strays and refused requests included. The history of a
run is the list of the messages with their answers, so that one can speak of
the request the server voted for last.

A COMMIT does not name the request it is about. That it executes the request
the server voted for last is an invariant of runs (`VoteInv`): while the
server waits, the last record of its log is that request.
-/

namespace Kv

open TwoPhase (Msg)

/-- **A step of a server**: one of the five messages it understands, and its
answer. -/
def TpcStep (s : KvServer) (x : KvMessage × KvMessage) (t : KvServer) : Prop :=
  x.1.decode.isSome = true ∧ kvserverHandle s (some x.1) = (t, some x.2)

/-- A run of a server. -/
abbrev TpcRun := Transition.Run TpcStep

/-- The PUT or DEL a message asks for. -/
def KvMessage.request? (m : KvMessage) : Option Request :=
  match m.decode with
  | some (.tpc (.request r)) => some r
  | _ => none

/-- The request the server voted `VOTE_COMMIT` for last. -/
def lastVoted (trace : List (KvMessage × KvMessage)) : Option Request :=
  trace.foldl (fun last x => if x.2.type = .voteCommit then x.1.request? else last) none

/-- Whether a PUT or DEL precedes the first COMMIT. -/
def requestFirst : List KvMessage → Bool
  | [] => true
  | m :: ms => m.request?.isSome || (decide (m.type ≠ .commit) && requestFirst ms)

variable {s t : KvServer} {records : List LogRecord} {x : KvMessage × KvMessage}
  {trace : List (KvMessage × KvMessage)}

theorem lastVoted_append (trace : List (KvMessage × KvMessage)) (x : KvMessage × KvMessage) :
    lastVoted (trace ++ [x])
      = if x.2.type = .voteCommit then x.1.request? else lastVoted trace := by
  unfold lastVoted
  rw [List.foldl_append]
  rfl

theorem exists_request_of_requestFirst {ms : List KvMessage} {m : KvMessage}
    (h : requestFirst (ms ++ [m]) = true) (htype : m.type = .commit) :
    ∃ x ∈ ms, x.request?.isSome = true := by
  induction ms with
  | nil =>
    simp [requestFirst, htype, KvMessage.request?, KvMessage.decode] at h
  | cons y ms ih =>
    rcases Bool.or_eq_true _ _ ▸ h with hy | hrest
    · exact ⟨y, List.mem_cons_self, hy⟩
    · obtain ⟨x, hx, hxr⟩ := ih (Bool.and_eq_true_iff.mp hrest).2
      exact ⟨x, List.mem_cons_of_mem _ hx, hxr⟩

/-! ## What a step can do -/

/-- **A step is a GET, or a step of the participant.** -/
theorem TpcStep.inv (h : ServerInv s records) (hstep : TpcStep s x t) :
    (∃ key cache, x.1.decode = some (.get key) ∧ t = { s with cache := cache }
        ∧ ServerInv t records ∧ x.2.type ≠ .voteCommit)
      ∨ ∃ msg, x.1.decode = some (.tpc msg) ∧ Survives records msg
        ∧ Handled s records msg t x.2.type := by
  obtain ⟨hsome, hhandle⟩ := hstep
  obtain ⟨m, reply⟩ := x
  replace hhandle : kvserverHandleTpc s m KvMessage.zero = (t, some reply) := hhandle
  obtain ⟨msg, hm⟩ := Option.isSome_iff_exists.mp hsome
  cases msg with
  | get key =>
    obtain ⟨cache, reply', hget, hcoh, hreply⟩ := handle_get .zero h hm
    rw [hhandle] at hget
    cases hget
    refine .inl ⟨key, cache, hm, rfl, ⟨h.wf, hcoh, h.log⟩, ?_⟩
    dsimp only
    split at hreply
    · rw [hreply.1]
      simp
    · rw [hreply]
      simp
  | tpc msg =>
    by_cases hlive : Survives records msg
    · obtain ⟨t', reply', htpc, hhandled⟩ := handle_tpc .zero h hm hlive
      rw [hhandle] at htpc
      cases htpc
      exact .inr ⟨msg, hm, hlive, hhandled⟩
    · -- the process is gone, so there is no answer
      cases msg with
      | request r => exact absurd trivial hlive
      | abort => exact absurd trivial hlive
      | commit =>
        have hdies := handle_commit_dies .zero h hm (by
          by_contra hcon
          push Not at hcon
          exact hlive ⟨hcon.1, fun r hr => Bool.eq_false_iff.mpr (hcon.2 r hr)⟩)
        rw [hhandle] at hdies
        cases hdies

/-! ## The invariant of runs -/

/-- **The invariant of runs**: the last record of the log of a waiting server
is the request it voted for last. -/
structure VoteInv (trace : List (KvMessage × KvMessage)) (s : KvServer)
    (records : List LogRecord) : Prop where
  /-- The server is in order. -/
  server : ServerInv s records
  /-- It waits exactly when it can execute the undecided request. -/
  sound : (s.participant records).Sound kvService
  /-- While it waits, that request is the one it voted for. -/
  voted : s.state = .wait → lastVoted trace = lastRequest records
  /-- The undecided request was sent. -/
  sent : ∀ r, lastRequest records = some r → ∃ x ∈ trace, x.1.request? = some r
  /-- A log is empty only as long as no request was sent. -/
  logged : (∃ x ∈ trace, x.1.request?.isSome = true) → records ≠ []

theorem VoteInv.init {store : KvStore} {log : TpcLog} {numSets elemPerSet : ℕ}
    (hwf : (kvstoreInit store).WF hash) (hlog : log.files = ∅)
    (hinit : kvserverInit store log numSets elemPerSet true = .ok s) :
    VoteInv [] s [] ∧ s.store = kvstoreInit store := by
  obtain ⟨hinv, hstore, hstate, -⟩ :=
    kvserverInit_spec hinit hwf (LogHolds.holds_of_files_empty hlog)
  refine ⟨⟨hinv, ?_, ?_, ?_, ?_⟩, hstore⟩
  · show decide (s.state = .wait) = true ↔ ∃ r, none = some r ∧ _
    simp [hstate]
  · simp [hstate]
  · intro r hr
    cases hr
  · rintro ⟨x, hx, -⟩
    cases hx

/-- A message that changes neither the log nor the participant keeps it,
unless it is answered with a vote. -/
theorem VoteInv.of_same (h : VoteInv trace s records) (hinv : ServerInv t records)
    (hpart : t.participant records = s.participant records)
    (hstate : t.state = .wait → s.state = .wait) (hvote : x.2.type ≠ .voteCommit)
    (hreq : x.1.request?.isSome = true → s.state = .wait) : VoteInv (trace ++ [x]) t records where
  server := hinv
  sound := hpart ▸ h.sound
  voted hw := by
    rw [lastVoted_append, if_neg hvote]
    exact h.voted (hstate hw)
  sent r hr := by
    obtain ⟨y, hy, hyr⟩ := h.sent r hr
    exact ⟨y, List.mem_append_left _ hy, hyr⟩
  logged := by
    rintro ⟨y, hy, hyr⟩
    rcases List.mem_append.mp hy with hy | hy
    · exact h.logged ⟨y, hy, hyr⟩
    · cases List.mem_singleton.mp hy
      -- a refused request: the server waits, so there is an undecided one
      obtain ⟨r, hr, -⟩ := h.sound.exists_last (decide_eq_true (hreq hyr))
      rintro rfl
      cases hr

theorem VoteInv.get (h : VoteInv trace s records) {key : CString} {cache : KvCache}
    (hm : x.1.decode = some (.get key)) (hinv : ServerInv { s with cache := cache } records)
    (hvote : x.2.type ≠ .voteCommit) :
    VoteInv (trace ++ [x]) { s with cache := cache } records :=
  h.of_same hinv rfl id hvote (by simp [KvMessage.request?, hm])

theorem VoteInv.of_logged {record : LogRecord} (hinv : ServerInv t (records ++ [record]))
    (hsound : (t.participant (records ++ [record])).Sound kvService)
    (hvote : t.state = .wait → x.2.type = .voteCommit)
    (hreq : x.2.type = .voteCommit → x.1.request? = record.request?)
    (hsent : ∀ r, record.request? = some r → x.1.request? = some r) :
    VoteInv (trace ++ [x]) t (records ++ [record]) where
  server := hinv
  sound := hsound
  voted hw := by
    rw [lastVoted_append, if_pos (hvote hw), lastRequest_append, hreq (hvote hw)]
  sent r hr := by
    rw [lastRequest_append] at hr
    exact ⟨x, by simp, hsent r hr⟩
  logged _ := by simp

/-- **Every message of two-phase commit keeps the invariant**, with the log it
leaves. -/
theorem VoteInv.tpc (h : VoteInv trace s records) {msg : Msg Request}
    (hm : x.1.decode = some (.tpc msg)) (hhandled : Handled s records msg t x.2.type) :
    VoteInv (trace ++ [x]) t (recordsAfter s records msg) := by
  obtain ⟨-, hinv, hpart, htype⟩ := hhandled
  have hsound : (t.participant (recordsAfter s records msg)).Sound kvService := by
    rw [hpart]
    exact h.sound.handle msg
  have hwait : decide (t.state = .wait)
      = ((s.participant records).handle kvService msg).1.waiting :=
    congrArg TwoPhase.Participant.waiting hpart
  cases msg with
  | request r =>
    by_cases hw : s.state = .wait
    · have hrec : recordsAfter s records (.request r) = records := if_pos hw
      rw [TwoPhase.Participant.handle_request_of_waiting (decide_eq_true hw)] at hpart htype
      rw [hrec] at hinv hpart ⊢
      exact h.of_same hinv hpart (fun _ => hw) (by rw [htype]; simp [replyType])
        (fun _ => hw)
    · have hrec : recordsAfter s records (.request r) = records ++ [r.record] := if_neg hw
      have hhandle : (s.participant records).handle kvService (.request r) = _ :=
        TwoPhase.Participant.handle_request_of_not_waiting (decide_eq_false hw) r
      rw [hhandle] at hwait htype
      rw [hrec] at hinv hsound ⊢
      have hx : x.1.request? = r.record.request? := by simp [KvMessage.request?, hm]
      refine VoteInv.of_logged hinv hsound (fun htw => ?_) (fun _ => hx) (fun _ hr => hx ▸ hr)
      have hacc : kvService.accepts r (s.participant records).data = true := by
        rw [← show _ = kvService.accepts r (s.participant records).data from hwait]
        exact decide_eq_true htw
      rw [htype, if_pos hacc]
      rfl
  | commit | abort =>
    have htw : t.state ≠ .wait := of_decide_eq_false hwait
    exact VoteInv.of_logged hinv hsound (fun hw => absurd hw htw)
      (fun hv => absurd hv (by rw [htype]; simp [TwoPhase.Participant.handle, replyType]))
      (fun r hr => by cases hr)

/-- **Every step keeps the invariant.** -/
theorem VoteInv.step (h : VoteInv trace s records) (hstep : TpcStep s x t) :
    ∃ records', VoteInv (trace ++ [x]) t records' := by
  rcases hstep.inv h.server with ⟨key, cache, hm, rfl, hinv, hvote⟩ | ⟨msg, hm, -, hhandled⟩
  · exact ⟨records, h.get hm hinv hvote⟩
  · exact ⟨_, h.tpc hm hhandled⟩

/-- **Every run of a server that starts with an empty log keeps it.** -/
theorem TpcRun.voteInv {s₀ : KvServer} (hrun : TpcRun s₀ trace s)
    (h : VoteInv [] s₀ []) : ∃ records, VoteInv trace s records :=
  hrun.invariant (I := fun trace s => ∃ records, VoteInv trace s records) ⟨[], h⟩
    (fun _ _ _ _ ⟨_, hinv⟩ hstep => hinv.step hstep)

/-! ## Safety -/

/-- A server that does not wait executes nothing on a COMMIT. -/
theorem VoteInv.committedStore_of_not_wait (h : VoteInv trace s records)
    (hw : s.state ≠ .wait) : s.committedStore records = s.store := by
  unfold KvServer.committedStore
  cases hr : lastRequest records with
  | none => rfl
  | some r =>
    refine Request.run_of_check_ne (fun hcheck => hw ?_)
    exact of_decide_eq_true
      (h.sound.mpr ⟨r, hr, (r.check_eq_zero_iff h.server.wf).mp hcheck⟩)

theorem VoteInv.survives_of_wait (h : VoteInv trace s records) (hw : s.state = .wait) :
    Survives records .commit := by
  obtain ⟨r, hr, hacc⟩ := h.sound.exists_last (decide_eq_true hw)
  refine ⟨?_, fun r' hr' => ?_⟩
  · rintro rfl
    cases hr
  · cases hr.symm.trans hr'
    refine Bool.eq_false_iff.mpr (fun hlock => ?_)
    exact Request.check_ne_of_takesNullLock hlock s.store
      ((r.check_eq_zero_iff h.server.wf).mpr hacc)

/-- **A COMMIT to a waiting server executes the request it voted for last.** -/
theorem VoteInv.handle_commit_of_wait (h : VoteInv trace s records) {m : KvMessage}
    (hm : m.decode = some (.tpc .commit)) (hw : s.state = .wait) :
    ∃ r t reply, lastVoted trace = some r
      ∧ kvserverHandle s (some m) = (t, some reply) ∧ reply.type = .ack
      ∧ t.store.toMap hash = kvService.exec r (s.store.toMap hash) := by
  obtain ⟨hne, hlock⟩ := h.survives_of_wait hw
  obtain ⟨log, cache, reply, hstep, -, -, htype⟩ := handle_commit .zero h.server hm hne hlock
  obtain ⟨r, hr, -⟩ := h.sound.exists_last (decide_eq_true hw)
  refine ⟨r, _, reply, (h.voted hw).trans hr, hstep, htype, ?_⟩
  show (s.committedStore records).toMap hash = _
  rw [(committedStore_spec h.server).2]
  exact h.sound.committed_of_waiting (decide_eq_true hw) hr

/-- **No other message changes the store**, and the process survives it
unless it is a COMMIT that finds an empty log or a DEL of a key that is too
long. -/
theorem VoteInv.handle_of_not_commit_wait (h : VoteInv trace s records) {m : KvMessage}
    (hsome : m.decode.isSome = true) (hcw : ¬ (m.type = .commit ∧ s.state = .wait)) :
    (kvserverHandle s (some m)).1.store = s.store
      ∧ ((kvserverHandle s (some m)).2 = none → m.type = .commit
          ∧ (records = [] ∨ ∃ r, lastRequest records = some r ∧ r.takesNullLock = true)) := by
  obtain ⟨msg, hm⟩ := Option.isSome_iff_exists.mp hsome
  show (kvserverHandleTpc s m .zero).1.store = _ ∧ ((kvserverHandleTpc s m .zero).2 = _ → _)
  cases msg with
  | get key =>
    obtain ⟨cache, reply, hget, -⟩ := handle_get .zero h.server hm
    simp [hget]
  | tpc msg =>
    cases msg with
    | request r =>
      by_cases hw : s.state = .wait
      · obtain ⟨reply, hstep, -⟩ := handle_request_of_wait .zero hm hw
        simp [hstep]
      · obtain ⟨log, reply, hstep, -⟩ := handle_request_of_not_wait .zero h.server.log hm hw
        simp [hstep]
    | abort =>
      obtain ⟨log, reply, hstep, -⟩ := handle_abort .zero h.server.log hm
      simp [hstep]
    | commit =>
      have htype : m.type = .commit := KvMessage.fields_of_decode hm
      have hw : s.state ≠ .wait := fun hw => hcw ⟨htype, hw⟩
      by_cases hdies : records = [] ∨ ∃ r, lastRequest records = some r
          ∧ r.takesNullLock = true
      · rw [handle_commit_dies .zero h.server hm hdies]
        exact ⟨rfl, fun _ => ⟨htype, hdies⟩⟩
      · push Not at hdies
        obtain ⟨log, cache, reply, hstep, -⟩ := handle_commit .zero h.server hm hdies.1
          (fun r hr => Bool.eq_false_iff.mpr (hdies.2 r hr))
        rw [hstep]
        exact ⟨h.committedStore_of_not_wait hw, fun hnone => by cases hnone⟩

/-- **Participant safety**: in every run of a server that starts with an
empty log, the store changes only by a COMMIT to a waiting server, and then
by the request it voted for last. The process survives every message but a
COMMIT after a DEL of a key that is too long. -/
theorem tpcRun_changes_store {store : KvStore} {log : TpcLog} {numSets elemPerSet : ℕ}
    {s₀ : KvServer} (hwf : (kvstoreInit store).WF hash) (hlog : log.files = ∅)
    (hinit : kvserverInit store log numSets elemPerSet true = .ok s₀)
    (hrun : TpcRun s₀ trace s) {m : KvMessage} (hsome : m.decode.isSome = true)
    (hfirst : requestFirst (trace.map Prod.fst ++ [m]) = true) :
    (m.type = .commit ∧ s.state = .wait →
      ∃ r t reply, lastVoted trace = some r
        ∧ kvserverHandle s (some m) = (t, some reply) ∧ reply.type = .ack
        ∧ t.store.toMap hash = kvService.exec r (s.store.toMap hash))
    ∧ (¬ (m.type = .commit ∧ s.state = .wait) →
        (kvserverHandle s (some m)).1.store = s.store)
    ∧ ((kvserverHandle s (some m)).2 = none →
        m.type = .commit ∧ ∃ x ∈ trace, ∃ key, x.1.request? = some (.del key)
          ∧ maxKeyLen < key.strlen) := by
  obtain ⟨records, h⟩ := hrun.voteInv (VoteInv.init hwf hlog hinit).1
  have hdecode : m.type = .commit → m.decode = some (.tpc .commit) := by
    intro htype
    unfold KvMessage.decode
    rw [htype]
  refine ⟨fun ⟨htype, hw⟩ => h.handle_commit_of_wait (hdecode htype) hw,
    fun hcw => (h.handle_of_not_commit_wait hsome hcw).1, fun hnone => ?_⟩
  by_cases hcw : m.type = .commit ∧ s.state = .wait
  · obtain ⟨r, t, reply, -, hstep, -⟩ := h.handle_commit_of_wait (hdecode hcw.1) hcw.2
    rw [hstep] at hnone
    cases hnone
  · obtain ⟨htype, hdies⟩ := (h.handle_of_not_commit_wait hsome hcw).2 hnone
    refine ⟨htype, ?_⟩
    rcases hdies with rfl | ⟨r, hr, hlock⟩
    · obtain ⟨x, hx, hxr⟩ := exists_request_of_requestFirst hfirst htype
      obtain ⟨y, hy, rfl⟩ := List.mem_map.mp hx
      exact absurd rfl (h.logged ⟨y, hy, hxr⟩)
    · obtain ⟨x, hx, hxr⟩ := h.sent r hr
      cases r with
      | put key value => exact absurd hlock (by simp [Request.takesNullLock])
      | del key => exact ⟨x, hx, key, hxr, of_decide_eq_true hlock⟩

/-- A new server votes for the PUT, and a COMMIT then executes it. -/
theorem tpcRun_changes_store_putA :
    ∃ r t reply,
      lastVoted [(putA, (kvserverHandle newServer (some putA)).2.getD .zero)] = some r
        ∧ kvserverHandle (kvserverHandle newServer (some putA)).1 (some commitMsg)
            = (t, some reply)
        ∧ reply.type = .ack
        ∧ t.store.toMap hash = kvService.exec r
            ((kvserverHandle newServer (some putA)).1.store.toMap hash) := by
  exact (tpcRun_changes_store (kvstoreInit_of_files_empty rfl).1 rfl newServer_init
    (.snoc .nil ⟨by decide, rfl⟩) (by decide) (by decide)).1 (by decide)

end Kv
