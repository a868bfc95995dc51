import Cs162.KvReplay

/-!
# Recovery of a server

After a crash a server is initialised again on its directory and
`kvserver_rebuild_state` walks the log. Where the handler of a COMMIT looks
at the last entry of the log, the rebuild looks at the last entry *and* at
the last request: a log that ends in a COMMIT makes it execute the last
request again, whatever was decided in between.

Executing a request again is harmless if it was executed before
(`Request.run_run`), so what matters is how the history disposed of the last
request. `Stage` follows that along a run: no request yet, an undecided
request, one that met a COMMIT first, or one that met an ABORT first – and,
for the last, whether a stray COMMIT came since. Where the rebuild stays within
bounds, only that last case sets it apart from what the server had done.
-/

namespace Kv

open TwoPhase (Msg)

variable {s t : KvServer} {records : List LogRecord} {x : KvMessage × KvMessage}
  {trace : List (KvMessage × KvMessage)} {r : Request}

/-! ## What the rebuild does -/

theorem logWalked_log (h : LogHolds s.log records) : LogHolds (logWalked s).log records := by
  show LogHolds (tpclogIterate _ _).2 _
  rw [LogHolds.iterate h.holds]
  exact h.iterpos _

theorem logWalked_inv (h : ServerInv s records) : ServerInv (logWalked s) records where
  wf := h.wf
  coherent := h.coherent
  log := logWalked_log h.log

/-- **The rebuild, in terms of the records of the log.** -/
theorem kvserverRebuildState_eq (h : Numbered.Holds s.log.slot (records.map LogRecord.file)) :
    kvserverRebuildState s
      = match records.getLast? with
        | none => (logWalked s, none)
        | some .commit =>
          match prevRequest records with
          | none => (logWalked s, none)
          | some (.put key value) => ((kvserverPut (logWalked s) key value).2, some [.ack])
          | some (.del key) =>
            match kvserverDel (logWalked s) key with
            | (server, none) => (server, none)
            | (server, some _) => (server, some [.ack])
        | some .abort => (logWalked s, some [])
        | some (.put key value) =>
          if kvstorePutCheck s.store key value = 0 then
            ({ logWalked s with state := .wait }, some [.voteCommit])
          else ({ logWalked s with state := .ready }, some [.voteAbort])
        | some (.del key) =>
          if kvstoreDelCheck hash s.store key = 0 then
            ({ logWalked s with state := .wait }, some [.voteCommit])
          else ({ logWalked s with state := .ready }, some [.voteAbort]) := by
  unfold kvserverRebuildState
  dsimp only
  rw [rebuild_entries h]
  dsimp only
  rw [getLast?_filter_entries, List.getLast?_map]
  cases records.getLast? with
  | none => rfl
  | some record =>
    cases record with
    | put key value =>
      simp only [Option.map_some, LogRecord.key_entry_put, LogRecord.val_entry_put]
      rfl
    | del key =>
      simp only [Option.map_some, LogRecord.key_entry_del]
      rfl
    | abort => rfl
    | commit =>
      cases prevRequest records with
      | none => rfl
      | some r =>
        cases r with
        | put key value =>
          simp only [Option.map_some, Request.record, LogRecord.key_entry_put,
            LogRecord.val_entry_put]
          rfl
        | del key =>
          simp only [Option.map_some, Request.record, LogRecord.key_entry_del]
          rfl

/-- A log that ends in a request: it is voted on again. -/
theorem rebuild_of_request (h : ServerInv s records) (hr : lastRequest records = some r) :
    ∃ sent, kvserverRebuildState s
      = ({ logWalked s with state := if r.check s.store = 0 then .wait else .ready },
          some sent) := by
  unfold lastRequest at hr
  obtain ⟨record, hlast, hreq⟩ := Option.bind_eq_some_iff.mp hr
  rw [kvserverRebuildState_eq h.log.holds, hlast]
  cases record with
  | commit => cases hreq
  | abort => cases hreq
  | put key value =>
    cases hreq
    by_cases hc : kvstorePutCheck s.store key value = 0
    · exact ⟨[.voteCommit], by simp [Request.check, hc]⟩
    · exact ⟨[.voteAbort], by simp [Request.check, hc]⟩
  | del key =>
    cases hreq
    by_cases hc : kvstoreDelCheck hash s.store key = 0
    · exact ⟨[.voteCommit], by simp [Request.check, hc]⟩
    · exact ⟨[.voteAbort], by simp [Request.check, hc]⟩

/-- A log that ends in an ABORT: nothing is done. -/
theorem rebuild_of_abort (h : ServerInv s records) (hlast : records.getLast? = some .abort) :
    kvserverRebuildState s = (logWalked s, some []) := by
  rw [kvserverRebuildState_eq h.log.holds, hlast]

/-- **A log that ends in a COMMIT: the last request is executed.** -/
theorem rebuild_of_commit (h : ServerInv s records)
    (hlast : records.getLast? = some .commit) (hprev : prevRequest records = some r)
    (hlock : r.takesNullLock = false) : ∃ cache, kvserverRebuildState s
        = ({ logWalked s with store := r.run s.store, cache := cache }, some [.ack])
      ∧ cache.Coherent ((r.run s.store).toMap hash) := by
  have hinv := logWalked_inv h
  rw [kvserverRebuildState_eq h.log.holds, hlast, hprev]
  cases r with
  | put key value =>
    obtain ⟨cache, hput, hcoh⟩ := kvserverPut_spec hinv.cacheInv key value
    dsimp only
    rw [hput]
    exact ⟨cache, rfl, hcoh⟩
  | del key =>
    obtain ⟨cache, err, hdel, hcoh⟩ := kvserverDel_spec hinv.cacheInv hlock
    dsimp only
    rw [hdel]
    exact ⟨cache, rfl, hcoh⟩

/-! ## How a history disposes of its requests -/

/-- **What became of the last request that was voted on.** -/
inductive Stage where
  /-- There was none. -/
  | fresh
  /-- It is undecided; the vote is kept. -/
  | undecided (r : Request) (voted : Bool)
  /-- The first decision after it was a COMMIT. -/
  | committed
  /-- The first decision after it was an ABORT; `stray` says whether the last
  one is a COMMIT. -/
  | dropped (r : Request) (stray : Bool)

/-- The stage after one more message. -/
def Stage.next (stage : Stage) (x : KvMessage × KvMessage) : Stage :=
  match x.1.decode with
  | some (.tpc (.request r)) =>
    if x.2.type = .voteCommit then undecided r true
    else if x.2.type = .voteAbort then undecided r false
    else stage
  | some (.tpc .commit) =>
    match stage with
    | undecided _ _ => committed
    | dropped r _ => dropped r true
    | _ => stage
  | some (.tpc .abort) =>
    match stage with
    | undecided r _ => dropped r false
    | dropped r _ => dropped r false
    | _ => stage
  | _ => stage

/-- The stage at the end of a history. -/
def stageOf (trace : List (KvMessage × KvMessage)) : Stage := trace.foldl Stage.next .fresh

theorem stageOf_append (trace : List (KvMessage × KvMessage)) (x : KvMessage × KvMessage) :
    stageOf (trace ++ [x]) = (stageOf trace).next x := by
  unfold stageOf
  rw [List.foldl_append]
  rfl

/-- What a stage says about the server and its log. -/
def Stage.Holds : Stage → KvServer → List LogRecord → Prop
  | fresh, _, records => prevRequest records = none
  | undecided r voted, s, records =>
    lastRequest records = some r ∧ (voted = true ↔ s.state = .wait)
  | committed, s, records =>
    lastRequest records = none
      ∧ ∃ r, prevRequest records = some r ∧ r.takesNullLock = false
          ∧ r.run s.store = s.store
  | dropped r stray, _, records =>
    prevRequest records = some r
      ∧ records.getLast? = some (if stray then .commit else .abort)

/-- **The invariant of runs, with the stage.** -/
structure StageInv (trace : List (KvMessage × KvMessage)) (s : KvServer)
    (records : List LogRecord) : Prop where
  /-- The invariant of votes. -/
  vote : VoteInv trace s records
  /-- The stage describes the log. -/
  stage : (stageOf trace).Holds s records
  /-- The first request is voted on. -/
  fresh : stageOf trace = .fresh → ∀ x ∈ trace, x.1.request? = none

theorem StageInv.not_wait_of_fresh (h : StageInv trace s records)
    (hfresh : stageOf trace = .fresh) : s.state ≠ .wait := by
  intro hw
  obtain ⟨r, hr, -⟩ := h.vote.sound.exists_last (decide_eq_true hw)
  have hnone : prevRequest records = none := by
    have := h.stage
    rwa [hfresh] at this
  rw [prevRequest_of_lastRequest hr] at hnone
  cases hnone

/-- A server with the same store and state is at the same stage. -/
theorem Stage.Holds.congr {stage : Stage} (h : stage.Holds s records)
    (hstore : t.store = s.store) (hstate : t.state = .wait ↔ s.state = .wait) :
    stage.Holds t records := by
  cases stage with
  | fresh => exact h
  | undecided r voted => exact ⟨h.1, h.2.trans hstate.symm⟩
  | committed =>
    obtain ⟨hlast, r, hprev, hlock, hrun⟩ := h
    exact ⟨hlast, r, hprev, hlock, by rw [hstore, hrun]⟩
  | dropped r stray => exact h

theorem StageInv.holds_commit (h : StageInv trace s records)
    (hm : x.1.decode = some (.tpc .commit)) (hlive : Survives records .commit)
    (hstore : t.store = s.committedStore records) :
    ((stageOf trace).next x).Holds t (records ++ [.commit]) := by
  have hst := h.stage
  unfold Stage.next
  rw [hm]
  generalize stageOf trace = stage at hst ⊢
  cases stage with
  | fresh => exact (prevRequest_append records .commit).trans hst
  | undecided r voted =>
    have hrun : s.committedStore records = r.run s.store := by
      unfold KvServer.committedStore
      rw [hst.1]
    refine ⟨lastRequest_append records .commit, r, ?_, hlive.2 r hst.1, ?_⟩
    · exact (prevRequest_append records .commit).trans (prevRequest_of_lastRequest hst.1)
    · rw [hstore, hrun, r.run_run h.vote.server.wf]
  | committed =>
    obtain ⟨hlast, r, hprev, hlock, hrun⟩ := hst
    have hsame : s.committedStore records = s.store := by
      unfold KvServer.committedStore
      rw [hlast]
    refine ⟨lastRequest_append records .commit, r, ?_, hlock, by rw [hstore, hsame, hrun]⟩
    exact (prevRequest_append records .commit).trans hprev
  | dropped r stray =>
    exact ⟨(prevRequest_append records .commit).trans hst.1, List.getLast?_concat⟩

theorem StageInv.holds_abort (h : StageInv trace s records)
    (hm : x.1.decode = some (.tpc .abort)) (hstore : t.store = s.store) :
    ((stageOf trace).next x).Holds t (records ++ [.abort]) := by
  have hst := h.stage
  unfold Stage.next
  rw [hm]
  generalize stageOf trace = stage at hst ⊢
  cases stage with
  | fresh => exact (prevRequest_append records .abort).trans hst
  | undecided r voted =>
    refine ⟨?_, List.getLast?_concat⟩
    exact (prevRequest_append records .abort).trans (prevRequest_of_lastRequest hst.1)
  | committed =>
    obtain ⟨-, r, hprev, hlock, hrun⟩ := hst
    refine ⟨lastRequest_append records .abort, r, ?_, hlock, by rw [hstore, hrun]⟩
    exact (prevRequest_append records .abort).trans hprev
  | dropped r stray =>
    exact ⟨(prevRequest_append records .abort).trans hst.1, List.getLast?_concat⟩

/-- A request moves the stage, unless it is refused. -/
theorem StageInv.holds_request (h : StageInv trace s records)
    (hm : x.1.decode = some (.tpc (.request r)))
    (hhandled : Handled s records (.request r) t x.2.type) :
    ((stageOf trace).next x).Holds t (recordsAfter s records (.request r))
      ∧ (stageOf trace).next x ≠ .fresh := by
  obtain ⟨hstore, -, hpart, htype⟩ := hhandled
  have hwait : decide (t.state = .wait)
      = ((s.participant records).handle kvService (.request r)).1.waiting :=
    congrArg TwoPhase.Participant.waiting hpart
  unfold Stage.next recordsAfter
  rw [hm]
  dsimp only
  by_cases hw : s.state = .wait
  · rw [TwoPhase.Participant.handle_request_of_waiting (decide_eq_true hw)] at hwait htype
    have hrefused : x.2.type = .resp := htype
    rw [hrefused, if_neg (by simp), if_neg (by simp), if_pos hw]
    exact ⟨h.stage.congr hstore (decide_eq_decide.mp hwait),
      fun hfresh => h.not_wait_of_fresh hfresh hw⟩
  · have hhandle : (s.participant records).handle kvService (.request r) = _ :=
      TwoPhase.Participant.handle_request_of_not_waiting (decide_eq_false hw) r
    rw [hhandle] at hwait htype
    have hlast : lastRequest (records ++ [r.record]) = some r := by
      rw [lastRequest_append, LogRecord.request?_record]
    rw [if_neg hw]
    cases hacc : kvService.accepts r (s.participant records).data with
    | true =>
      rw [hacc] at hwait htype
      have hvote : x.2.type = .voteCommit := htype
      rw [if_pos hvote]
      exact ⟨⟨hlast, iff_of_true rfl (of_decide_eq_true hwait)⟩, by simp⟩
    | false =>
      rw [hacc] at hwait htype
      have hvote : x.2.type = .voteAbort := htype
      rw [hvote, if_neg (by simp), if_pos rfl]
      exact ⟨⟨hlast, iff_of_false (by simp) (of_decide_eq_false hwait)⟩, by simp⟩

/-- A message that is no request leaves a fresh history fresh. -/
theorem StageInv.fresh_append (h : StageInv trace s records) (hx : x.1.request? = none)
    (hnext : (stageOf trace).next x = .fresh → stageOf trace = .fresh) :
    stageOf (trace ++ [x]) = .fresh → ∀ y ∈ trace ++ [x], y.1.request? = none := by
  rw [stageOf_append]
  intro hfresh y hy
  rcases List.mem_append.mp hy with hy | hy
  · exact h.fresh (hnext hfresh) y hy
  · cases List.mem_singleton.mp hy
    exact hx

theorem StageInv.get (h : StageInv trace s records) {key : CString} {cache : KvCache}
    (hm : x.1.decode = some (.get key)) (hinv : ServerInv { s with cache := cache } records)
    (hvote : x.2.type ≠ .voteCommit) :
    StageInv (trace ++ [x]) { s with cache := cache } records := by
  have hnext : (stageOf trace).next x = stageOf trace := by
    unfold Stage.next
    rw [hm]
  refine ⟨h.vote.get hm hinv hvote, ?_, ?_⟩
  · rw [stageOf_append, hnext]
    exact h.stage.congr rfl Iff.rfl
  · exact h.fresh_append (by simp [KvMessage.request?, hm]) (fun hf => hnext ▸ hf)

/-- **So does every message of two-phase commit.** -/
theorem StageInv.tpc (h : StageInv trace s records) {msg : Msg Request}
    (hm : x.1.decode = some (.tpc msg)) (hlive : Survives records msg)
    (hhandled : Handled s records msg t x.2.type) :
    StageInv (trace ++ [x]) t (recordsAfter s records msg) where
  vote := h.vote.tpc hm hhandled
  stage := by
    rw [stageOf_append]
    cases msg with
    | request r => exact (h.holds_request hm hhandled).1
    | commit => exact h.holds_commit hm hlive hhandled.store
    | abort => exact h.holds_abort hm hhandled.store
  fresh := by
    cases msg with
    | request r =>
      rw [stageOf_append]
      exact fun hfresh => absurd hfresh (h.holds_request hm hhandled).2
    | commit | abort =>
      refine h.fresh_append (by simp [KvMessage.request?, hm]) ?_
      unfold Stage.next
      rw [hm]
      cases stageOf trace <;> simp

/-- **Every step keeps the invariant with the stage.** -/
theorem StageInv.step (h : StageInv trace s records) (hstep : TpcStep s x t) :
    ∃ records', StageInv (trace ++ [x]) t records' := by
  rcases hstep.inv h.vote.server with ⟨key, cache, hm, rfl, hinv, hvote⟩ |
    ⟨msg, hm, hlive, hhandled⟩
  · exact ⟨records, h.get hm hinv hvote⟩
  · exact ⟨_, h.tpc hm hlive hhandled⟩

/-- **Every run of a server that starts with an empty log keeps it.** -/
theorem TpcRun.stageInv {s₀ : KvServer} (hrun : TpcRun s₀ trace s)
    (h : VoteInv [] s₀ []) : ∃ records, StageInv trace s records :=
  hrun.invariant (I := fun trace s => ∃ records, StageInv trace s records)
    ⟨[], h, rfl, fun _ x hx => by cases hx⟩
    (fun _ _ _ _ ⟨_, hinv⟩ hstep => hinv.step hstep)

/-! ## Restarts -/

/-- **A message handled to completion.** A COMMIT copies the value of the PUT
it executes to `val`, and does not get further if there is no room. -/
def CompletedStep (s : KvServer) (x : KvMessage × KvMessage) (t : KvServer) : Prop :=
  TpcStep s x t ∧ (x.1.type = .commit → ∀ key value,
    lastRequest s.log.entries = some (.put key value) → value.strlen < maxValLen)

theorem tpcRun_of_completed {s₀ : KvServer} (hrun : Transition.Run CompletedStep s₀ trace s) :
    TpcRun s₀ trace s :=
  hrun.invariant (I := TpcRun s₀) .nil fun _ _ _ _ hrun hstep => hrun.snoc hstep.1

/-- **A restart restores the server**: the rebuild of the initialised server
`r₀` completes within bounds, and leaves the store and the wait for a decision
as they were. -/
def Restores (s r₀ : KvServer) : Prop :=
  ∃ t sent, kvserverRebuildStateChecked r₀ = .ok (t, some sent) ∧ t.store = s.store
    ∧ (t.state = .wait ↔ s.state = .wait)

/-- Whether executing the request changes a map. -/
def Request.Changes : Request → KvMap → Prop
  | put key value, m =>
    (key.strlen ≤ maxKeyLen ∧ value.strlen ≤ maxValLen) ∧ m key ≠ some value
  | del key, m => key.strlen ≤ maxKeyLen ∧ (m key).isSome = true

/-- A store stays the same under a request exactly when the map does. -/
theorem run_eq_self_iff {st : KvStore} (hwf : st.WF hash) (r : Request) :
    r.run st = st ↔ ¬ r.Changes (st.toMap hash) := by
  have hcheck := r.check_eq_zero_iff hwf
  have hspec := (r.run_spec hwf).2
  constructor
  · intro hrun hch
    rw [hrun] at hspec
    cases r with
    | put key value =>
      have hacc : kvService.accepts (.put key value) (st.toMap hash) = true :=
        decide_eq_true hch.1
      rw [TwoPhase.Service.apply, if_pos hacc] at hspec
      refine hch.2 ?_
      rw [hspec]
      exact Function.update_self _ _ _
    | del key =>
      have hacc : kvService.accepts (.del key) (st.toMap hash) = true := decide_eq_true hch
      rw [TwoPhase.Service.apply, if_pos hacc] at hspec
      have hsome := hch.2
      rw [hspec] at hsome
      exact absurd hsome (by simp [kvService])
  · intro hch
    by_cases hc : r.check st = 0
    · have hacc := hcheck.mp hc
      cases r with
      | put key value =>
        refine kvstorePut_of_toMap_eq hwf hc ?_
        by_contra hne
        exact hch ⟨of_decide_eq_true hacc, hne⟩
      | del key => exact absurd (of_decide_eq_true hacc) hch
    · exact Request.run_of_check_ne hc

theorem VoteInv.not_wait (h : VoteInv trace s records) (hlast : lastRequest records = none) :
    s.state ≠ .wait := by
  intro hw
  obtain ⟨r, hr, -⟩ := h.sound.exists_last (decide_eq_true hw)
  cases hlast.symm.trans hr

/-- A log whose last request is decided ends in a decision. -/
theorem getLast?_of_decided (hlast : lastRequest records = none)
    (hprev : prevRequest records = some r) :
    records.getLast? = some .commit ∨ records.getLast? = some .abort := by
  cases hget : records.getLast? with
  | none =>
    rw [List.getLast?_eq_none_iff.mp hget] at hprev
    cases hprev
  | some record =>
    unfold lastRequest at hlast
    rw [hget] at hlast
    cases record with
    | put key value => cases hlast
    | del key => cases hlast
    | commit => exact .inl rfl
    | abort => exact .inr rfl

/-- The initialised server of a restart has the store and the log it had. -/
theorem VoteInv.restart (h : VoteInv trace s records) {numSets elemPerSet : ℕ}
    {r₀ : KvServer} (hinit : kvserverInit s.store s.log numSets elemPerSet true = .ok r₀) :
    ServerInv r₀ records ∧ r₀.store = s.store ∧ r₀.state = .init := by
  have hdir : kvstoreInit s.store = s.store := by
    unfold kvstoreInit
    rw [← h.server.wf.1]
  obtain ⟨hinv, hstore, hstate, -⟩ :=
    kvserverInit_spec hinit (hdir ▸ h.server.wf) h.server.log.holds
  exact ⟨hinv, hstore.trans hdir, hstate⟩

/-- **When a restart restores the server** whose log is rebuilt from within
bounds: unless the last request was dropped by an ABORT, a stray COMMIT came
last, and executing the request changes the store. -/
theorem StageInv.restored_iff (h : StageInv trace s records)
    (hreq : ∃ x ∈ trace, x.1.request?.isSome = true) {numSets elemPerSet : ℕ}
    {r₀ : KvServer} (hinit : kvserverInit s.store s.log numSets elemPerSet true = .ok r₀)
    (hbounds : RebuildInBounds records) :
    (∃ t sent, kvserverRebuildState r₀ = (t, some sent) ∧ t.store = s.store
        ∧ (t.state = .wait ↔ s.state = .wait))
      ↔ ∀ r, stageOf trace = .dropped r true → ¬ r.Changes (s.store.toMap hash) := by
  obtain ⟨hinv, hstore, hstate⟩ := h.vote.restart hinit
  have hst := h.stage
  cases hstage : stageOf trace with
  | fresh =>
    obtain ⟨x, hx, hxr⟩ := hreq
    rw [h.fresh hstage x hx] at hxr
    cases hxr
  | undecided r voted =>
    rw [hstage] at hst
    refine iff_of_true ?_ (fun r' hr' => by cases hr')
    obtain ⟨sent, hre⟩ := rebuild_of_request hinv hst.1
    refine ⟨_, sent, hre, hstore, ?_⟩
    have hsound : decide (s.state = .wait) = true ↔ _ := h.vote.sound
    rw [decide_eq_true_eq] at hsound
    rw [hsound, hstore]
    have hcheck := r.check_eq_zero_iff h.vote.server.wf
    by_cases hc : r.check s.store = 0
    · rw [if_pos hc]
      exact iff_of_true rfl ⟨r, hst.1, hcheck.mp hc⟩
    · rw [if_neg hc]
      refine iff_of_false (by simp) ?_
      rintro ⟨r', hr', hacc⟩
      cases hst.1.symm.trans hr'
      exact hc (hcheck.mpr hacc)
  | committed =>
    rw [hstage] at hst
    refine iff_of_true ?_ (fun r' hr' => by cases hr')
    obtain ⟨hlast, r, hprev, hlock, hrun⟩ := hst
    have hw := h.vote.not_wait hlast
    rcases getLast?_of_decided hlast hprev with hget | hget
    · obtain ⟨cache, hre, -⟩ := rebuild_of_commit hinv hget hprev hlock
      refine ⟨_, _, hre, ?_, iff_of_false (by simp [logWalked, hstate]) hw⟩
      show r.run r₀.store = s.store
      rw [hstore, hrun]
    · exact ⟨_, _, rebuild_of_abort hinv hget, hstore,
        iff_of_false (by simp [logWalked, hstate]) hw⟩
  | dropped r stray =>
    rw [hstage] at hst
    obtain ⟨hprev, hget⟩ := hst
    have hw : s.state ≠ .wait := by
      refine h.vote.not_wait ?_
      unfold lastRequest
      rw [hget]
      cases stray <;> rfl
    cases stray with
    | false =>
      refine iff_of_true ?_ (fun r' hr' => by cases hr')
      exact ⟨_, _, rebuild_of_abort hinv hget, hstore,
        iff_of_false (by simp [logWalked, hstate]) hw⟩
    | true =>
      obtain ⟨key, value, hput⟩ := hbounds.exists_put hget
      cases hprev.symm.trans hput
      obtain ⟨cache, hre, -⟩ := rebuild_of_commit hinv hget hput rfl
      rw [hstore] at hre
      have hrun := run_eq_self_iff h.vote.server.wf (.put key value)
      constructor
      · rintro ⟨t, sent, hre', hsame, -⟩ r' hr'
        cases hr'
        rw [hre] at hre'
        cases hre'
        exact hrun.mp hsame
      · intro hall
        exact ⟨_, _, hre, hrun.mpr (hall _ rfl),
          iff_of_false (by simp [logWalked, hstate]) hw⟩

/-- **When a restart restores the server.** -/
theorem StageInv.restores_iff (h : StageInv trace s records)
    (hreq : ∃ x ∈ trace, x.1.request?.isSome = true) {numSets elemPerSet : ℕ}
    {r₀ : KvServer} (hinit : kvserverInit s.store s.log numSets elemPerSet true = .ok r₀) :
    Restores s r₀ ↔ RebuildInBounds s.log.entries
      ∧ ∀ r, stageOf trace = .dropped r true → ¬ r.Changes (s.store.toMap hash) := by
  rw [entries_of_holds h.vote.server.log.holds]
  unfold Restores
  obtain ⟨hbounds, heq⟩ | ⟨hbounds, fault, hfault⟩ :=
    kvserverRebuildStateChecked_cases (h.vote.restart hinit).1.log.holds
  · rw [and_iff_right hbounds, ← h.restored_iff hreq hinit hbounds, heq]
    simp only [Except.ok.injEq]
  · refine iff_of_false ?_ fun hcond => hbounds hcond.1
    rintro ⟨t, sent, hre, -⟩
    cases hfault.symm.trans hre

/-- **Live handling and log replay**: in every run of a server that starts
with an empty log and a request, a restart restores the server exactly if its
log is rebuilt from within bounds, unless the last request was dropped by an
ABORT, a stray COMMIT came last, and the request changes the map. -/
theorem restart_restores_iff {store : KvStore} {log : TpcLog}
    {numSets elemPerSet numSets' elemPerSet' : ℕ} {s₀ r₀ : KvServer}
    (hwf : (kvstoreInit store).WF hash) (hlog : log.files = ∅)
    (hinit : kvserverInit store log numSets elemPerSet true = .ok s₀)
    (hrun : Transition.Run CompletedStep s₀ trace s)
    (hfirst : trace.head?.any (fun x => x.1.request?.isSome) = true)
    (hrestart : kvserverInit s.store s.log numSets' elemPerSet' true = .ok r₀) :
    Restores s r₀ ↔ RebuildInBounds s.log.entries
      ∧ ∀ r, stageOf trace = .dropped r true → ¬ r.Changes (s.store.toMap hash) := by
  obtain ⟨records, h⟩ := (tpcRun_of_completed hrun).stageInv (VoteInv.init hwf hlog hinit).1
  refine h.restores_iff ?_ hrestart
  cases trace with
  | nil => cases hfirst
  | cons x rest => exact ⟨x, List.mem_cons_self, hfirst⟩

/-- The server after a message. -/
abbrev after (s : KvServer) (m : KvMessage) : KvServer := (kvserverHandle s (some m)).1

/-- A message, with its answer. -/
abbrev answered (s : KvServer) (m : KvMessage) : KvMessage × KvMessage :=
  (m, (kvserverHandle s (some m)).2.getD .zero)

/-- A new server after a PUT, its ABORT and a stray COMMIT. -/
def strayServer : KvServer := after (after (after newServer putA) abortMsg) commitMsg

/-- Its history. -/
def strayTrace : List (KvMessage × KvMessage) :=
  [answered newServer putA, answered (after newServer putA) abortMsg,
    answered (after (after newServer putA) abortMsg) commitMsg]

/-- The same server, initialised again. -/
def strayRestarted : KvServer :=
  { newServer with store := strayServer.store, log := tpclogInit strayServer.log }

theorem strayServer_run : Transition.Run CompletedStep newServer strayTrace strayServer :=
  .snoc (.snoc (.snoc .nil ⟨⟨by decide, rfl⟩, nofun⟩) ⟨⟨by decide, rfl⟩, nofun⟩)
    ⟨⟨by decide, rfl⟩, fun _ key value hlast => by
      rw [show lastRequest _ = none by decide +kernel] at hlast
      cases hlast⟩

theorem strayServer_restart :
    kvserverInit strayServer.store strayServer.log 1 2 true = .ok strayRestarted := rfl

/-- The rebuild executes the PUT that was aborted. -/
theorem strayServer_not_restored :
    Transition.Run CompletedStep newServer strayTrace strayServer
      ∧ kvserverInit strayServer.store strayServer.log 1 2 true = .ok strayRestarted
      ∧ ¬ Restores strayServer strayRestarted := by
  refine ⟨strayServer_run, strayServer_restart, ?_⟩
  rintro ⟨t, sent, hre, hstore, -⟩
  have hbefore : strayServer.store.toMap hash letterA = none := by decide
  have hafter : (kvserverRebuildState strayRestarted).1.store.toMap hash letterA
      = some letterA := by decide
  have hchecked : kvserverRebuildStateChecked strayRestarted
      = .ok (kvserverRebuildState strayRestarted) := rfl
  rw [← Except.ok.inj (hre.symm.trans hchecked)] at hafter
  rw [hstore, hbefore] at hafter
  cases hafter

/-- The PUT of the stray history was dropped, and changes the map. -/
theorem restart_restores_iff_stray :
    Restores strayServer strayRestarted ↔ RebuildInBounds strayServer.log.entries
      ∧ ∀ r, stageOf strayTrace = .dropped r true → ¬ r.Changes (strayServer.store.toMap hash) :=
  restart_restores_iff (kvstoreInit_of_files_empty rfl).1 rfl newServer_init
    strayServer_run (by decide) strayServer_restart

end Kv
