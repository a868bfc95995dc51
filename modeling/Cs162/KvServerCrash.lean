import Cs162.KvServerRecovery

/-!
# Crashes of a server

A crash loses the memory of a server and keeps its directory: the store and
the log, as far as they were written. The handler of a message writes at most
one log entry, and writes it before it touches the store, so the disk is in
one of three states (`CrashPoint`).

In a history that conforms to the protocol – every request meets its decision
before the next one, and a COMMIT only if it was voted for – recovery brings
the store to where the log says it should be: the requests whose COMMIT was
logged, executed in order. The rebuild has two parts, `redo` for the store and
`rebuiltState` for the state, and both are idempotent. All of this is so where
the rebuild stays within bounds, and nothing is recovered where it does not.
-/

namespace Kv

open TwoPhase (Msg)

variable {s t : KvServer} {records : List LogRecord} {x : KvMessage × KvMessage}
  {trace : List (KvMessage × KvMessage)} {r : Request}

/-! ## The rebuild is idempotent -/

/-- What the rebuild makes of the store. -/
def redo (records : List LogRecord) (st : KvStore) : KvStore :=
  match records.getLast?, prevRequest records with
  | some .commit, some r => r.run st
  | _, _ => st

/-- What it makes of the state. -/
def rebuiltState (records : List LogRecord) (st : KvStore) (state : TpcState) : TpcState :=
  match lastRequest records with
  | some r => if r.check st = 0 then .wait else .ready
  | none => state

theorem redo_of_lastRequest (h : lastRequest records = some r) (st : KvStore) :
    redo records st = st := by
  unfold lastRequest at h
  obtain ⟨record, hlast, hr⟩ := Option.bind_eq_some_iff.mp h
  unfold redo
  rw [hlast]
  cases record with
  | put key value => rfl
  | del key => rfl
  | commit => cases hr
  | abort => cases hr

theorem redo_of_abort (h : records.getLast? = some .abort) (st : KvStore) :
    redo records st = st := by
  unfold redo
  rw [h]

theorem redo_of_commit (h : records.getLast? = some .commit)
    (hprev : prevRequest records = some r) (st : KvStore) : redo records st = r.run st := by
  unfold redo
  rw [h, hprev]

theorem rebuiltState_of_lastRequest_none (h : lastRequest records = none) (st : KvStore)
    (state : TpcState) : rebuiltState records st state = state := by
  unfold rebuiltState
  rw [h]

theorem lastRequest_of_getLast? {record : LogRecord} (h : records.getLast? = some record) :
    lastRequest records = record.request? := by
  unfold lastRequest
  rw [h]
  rfl

theorem checked_of_bounds (h : ServerInv s records) (hbounds : RebuildInBounds records) :
    kvserverRebuildStateChecked s = .ok (kvserverRebuildState s) :=
  (kvserverRebuildStateChecked_cases h.log.holds).elim And.right fun hfault =>
    absurd hbounds hfault.1

/-- **What the rebuild does**, on every log it reads within bounds. -/
theorem rebuild_spec (h : ServerInv s records) (hbounds : RebuildInBounds records) :
    ∃ t sent, kvserverRebuildStateChecked s = .ok (t, some sent) ∧ ServerInv t records
      ∧ t.store = redo records s.store
      ∧ t.state = rebuiltState records s.store s.state
      ∧ t.log.files = s.log.files := by
  rw [checked_of_bounds h hbounds]
  have hinv := logWalked_inv h
  have hfiles : (logWalked s).log.files = s.log.files := by
    show (tpclogIterate _ _).2.files = _
    rw [LogHolds.iterate h.log.holds]
  obtain ⟨record, hlast⟩ := hbounds.exists_last
  have hreq := lastRequest_of_getLast? hlast
  cases hr : record.request? with
  | some r =>
    rw [hr] at hreq
    obtain ⟨sent, hre⟩ := rebuild_of_request h hreq
    refine ⟨_, sent, congrArg _ hre, ⟨hinv.wf, hinv.coherent, hinv.log⟩, ?_, ?_, hfiles⟩
    · exact (redo_of_lastRequest hreq _).symm
    · unfold rebuiltState
      rw [hreq]
  | none =>
    rw [hr] at hreq
    cases record with
    | put key value => cases hr
    | del key => cases hr
    | abort =>
      exact ⟨_, _, congrArg _ (rebuild_of_abort h hlast), hinv, (redo_of_abort hlast _).symm,
        (rebuiltState_of_lastRequest_none hreq _ _).symm, hfiles⟩
    | commit =>
      obtain ⟨key, value, hprev⟩ := hbounds.exists_put hlast
      obtain ⟨cache, hre, hcoh⟩ := rebuild_of_commit h hlast hprev rfl
      exact ⟨_, _, congrArg _ hre, ⟨(Request.run_spec h.wf _).1, hcoh, hinv.log⟩,
        (redo_of_commit hlast hprev _).symm,
        (rebuiltState_of_lastRequest_none hreq _ _).symm, hfiles⟩

/-! ## Histories that conform to the protocol -/

/-- Whether the protocol lets a message come at a stage. -/
def Stage.allows : Stage → SlaveMsg → Bool
  | _, .get _ => true
  | undecided _ _, .tpc (.request _) => false
  | _, .tpc (.request _) => true
  | undecided _ voted, .tpc .commit => voted
  | committed, .tpc .commit => true
  | _, .tpc .commit => false
  | undecided _ _, .tpc .abort => true
  | dropped _ _, .tpc .abort => true
  | _, .tpc .abort => false

/-- **A conforming history**: each request is followed by COMMITs if it was
voted for, or by ABORTs, before the next request. -/
inductive Conforms : List (KvMessage × KvMessage) → Prop
  | nil : Conforms []
  | snoc {trace : List (KvMessage × KvMessage)} {x : KvMessage × KvMessage} {msg : SlaveMsg} :
      Conforms trace → x.1.decode = some msg → (stageOf trace).allows msg = true →
      Conforms (trace ++ [x])

/-- The requests whose COMMIT was logged: those directly before one. -/
def committedRequests : List LogRecord → List Request
  | record :: .commit :: rest =>
    record.request?.toList ++ committedRequests (.commit :: rest)
  | _ :: rest => committedRequests rest
  | [] => []

/-- The map after the requests, executed in order. -/
def executed (m₀ : KvMap) (rs : List Request) : KvMap :=
  rs.foldl (fun m r => kvService.exec r m) m₀

/-- A COMMIT adds the undecided request, anything else adds nothing. -/
theorem committedRequests_append (records : List LogRecord) (record : LogRecord) :
    committedRequests (records ++ [record])
      = committedRequests records ++ (match record with
        | .commit => (lastRequest records).toList
        | _ => []) := by
  induction records with
  | nil => cases record <;> rfl
  | cons a records ih =>
    cases records with
    | nil => cases record <;> simp [committedRequests, lastRequest]
    | cons b rest =>
      have hlast : lastRequest (a :: b :: rest) = lastRequest (b :: rest) := rfl
      rw [hlast]
      cases b with
      | commit =>
        show a.request?.toList ++ committedRequests (.commit :: (rest ++ [record]))
          = (a.request?.toList ++ committedRequests (.commit :: rest)) ++ _
        rw [List.append_assoc]
        congr 1
      | _ => exact ih

/-- **The invariant of conforming runs.** -/
structure ConformInv (m₀ : KvMap) (trace : List (KvMessage × KvMessage)) (s : KvServer)
    (records : List LogRecord) : Prop where
  /-- The invariant with the stage. -/
  inv : StageInv trace s records
  /-- The map is that of the committed requests. -/
  map : s.store.toMap hash = executed m₀ (committedRequests records)
  /-- There is no stray COMMIT. -/
  clean : ∀ r, stageOf trace ≠ .dropped r true
  /-- Nothing is logged before the first request. -/
  fresh : stageOf trace = .fresh → records = []

variable {m₀ : KvMap}

theorem ConformInv.survives (h : ConformInv m₀ trace s records) {msg : Msg Request}
    (hallow : (stageOf trace).allows (.tpc msg) = true) : Survives records msg := by
  cases msg with
  | request r => trivial
  | abort => trivial
  | commit =>
    have hst := h.inv.stage
    generalize stageOf trace = stage at hst hallow
    cases stage with
    | fresh | dropped r stray => cases hallow
    | undecided r voted => exact h.inv.vote.survives_of_wait (hst.2.mp hallow)
    | committed =>
      obtain ⟨hlast, r, hprev, -⟩ := hst
      refine ⟨?_, fun r' hr' => by cases hlast.symm.trans hr'⟩
      rintro rfl
      cases hprev

theorem ConformInv.map_commit (h : ConformInv m₀ trace s records)
    (hallow : (stageOf trace).allows (.tpc .commit) = true) : (s.committedStore records).toMap hash
      = executed m₀ (committedRequests (records ++ [.commit])) := by
  have hst := h.inv.stage
  rw [(committedStore_spec h.inv.vote.server).2, committedRequests_append]
  unfold executed
  rw [List.foldl_append]
  change _ = List.foldl _ (executed m₀ (committedRequests records)) _
  rw [← h.map]
  generalize stageOf trace = stage at hst hallow
  cases stage with
  | fresh | dropped r stray => cases hallow
  | undecided r voted =>
    rw [h.inv.vote.sound.committed_of_waiting (decide_eq_true (hst.2.mp hallow)) hst.1, hst.1]
    rfl
  | committed =>
    have hw := h.inv.vote.not_wait hst.1
    rw [h.inv.vote.sound.committed_of_not_waiting (decide_eq_false hw), hst.1]
    rfl

/-- **A conforming message keeps the invariant.** -/
theorem ConformInv.tpc (h : ConformInv m₀ trace s records) {msg : Msg Request}
    (hm : x.1.decode = some (.tpc msg)) (hallow : (stageOf trace).allows (.tpc msg) = true)
    (hhandled : Handled s records msg t x.2.type) :
    ConformInv m₀ (trace ++ [x]) t (recordsAfter s records msg) where
  inv := h.inv.tpc hm (h.survives hallow) hhandled
  map := by
    rw [hhandled.store]
    cases msg with
    | request r =>
      show s.store.toMap hash = executed m₀
        (committedRequests (if s.state = .wait then records else records ++ [r.record]))
      split
      · exact h.map
      · rw [committedRequests_append, h.map]
        cases r <;> simp [Request.record]
    | commit => exact h.map_commit hallow
    | abort =>
      show s.store.toMap hash = executed m₀ (committedRequests (records ++ [.abort]))
      rw [committedRequests_append, h.map]
      simp
  clean := by
    intro r
    rw [stageOf_append]
    unfold Stage.next
    rw [hm]
    cases msg with
    | request r' =>
      dsimp only
      split
      · simp
      · split
        · simp
        · exact h.clean r
    | commit => cases hstage : stageOf trace <;> simp_all [Stage.allows]
    | abort => cases hstage : stageOf trace <;> simp
  fresh := by
    rw [stageOf_append]
    cases msg with
    | request r =>
      exact fun hfresh => absurd hfresh (h.inv.holds_request hm hhandled).2
    | commit | abort =>
      unfold Stage.next
      rw [hm]
      cases hstage : stageOf trace <;> simp_all [Stage.allows]

theorem ConformInv.get (h : ConformInv m₀ trace s records) {key : CString} {cache : KvCache}
    (hm : x.1.decode = some (.get key)) (hinv : ServerInv { s with cache := cache } records)
    (hvote : x.2.type ≠ .voteCommit) :
    ConformInv m₀ (trace ++ [x]) { s with cache := cache } records := by
  have hnext : stageOf (trace ++ [x]) = stageOf trace := by
    rw [stageOf_append]
    unfold Stage.next
    rw [hm]
  exact ⟨h.inv.get hm hinv hvote, h.map, hnext ▸ h.clean, hnext ▸ h.fresh⟩

/-- **Every conforming run of a server that starts with an empty log keeps
it.** -/
theorem TpcRun.conformInv {s₀ : KvServer} (hrun : TpcRun s₀ trace s)
    (hconf : Conforms trace) (h : VoteInv [] s₀ []) :
    ∃ records, ConformInv (s₀.store.toMap hash) trace s records := by
  induction hrun with
  | nil =>
    refine ⟨[], ⟨h, rfl, ?_⟩, rfl, ?_, fun _ => rfl⟩
    · intro _ x hx
      cases hx
    · intro r hr
      cases hr
  | @snoc trace s t x hrun hstep ih =>
    generalize htrace : trace ++ [x] = whole at hconf
    cases hconf with
    | nil => simp at htrace
    | @snoc trace' x' msg hconf hdecode hallow =>
      obtain ⟨rfl, hx⟩ := List.append_inj' htrace rfl
      cases hx
      obtain ⟨records, hinv⟩ := ih hconf
      rcases hstep.inv hinv.inv.vote.server with ⟨key, cache, hm, rfl, hserver, hvote⟩ |
        ⟨msg', hm, -, hhandled⟩
      · exact ⟨records, hinv.get hm hserver hvote⟩
      · cases hm.symm.trans hdecode
        exact ⟨_, hinv.tpc hm hallow hhandled⟩

/-! ## Crashes -/

/-- **Where the handler of a message crashes.** -/
inductive CrashPoint where
  /-- Before it wrote anything. -/
  | before
  /-- After it wrote its log entry. -/
  | logged
  /-- After it updated the store. -/
  | stored

/-- **What is on disk after a crash** in the handler of `m`: the one log entry
it writes comes before its update of the store. -/
def onDisk (s : KvServer) (m : KvMessage) : CrashPoint → KvStore × TpcLog
  | .before => (s.store, s.log)
  | .logged => (s.store, (kvserverHandle s (some m)).1.log)
  | .stored => ((kvserverHandle s (some m)).1.store, (kvserverHandle s (some m)).1.log)

/-- Nothing is left to redo once a handler has returned. -/
theorem ConformInv.redo_self (h : ConformInv m₀ trace s records) :
    redo records s.store = s.store := by
  have hst := h.inv.stage
  cases hstage : stageOf trace with
  | fresh =>
    rw [h.fresh hstage]
    rfl
  | undecided r voted =>
    rw [hstage] at hst
    exact redo_of_lastRequest hst.1 _
  | committed =>
    rw [hstage] at hst
    obtain ⟨hlast, r, hprev, -, hrun⟩ := hst
    rcases getLast?_of_decided hlast hprev with hget | hget
    · rw [redo_of_commit hget hprev, hrun]
    · exact redo_of_abort hget _
  | dropped r stray =>
    rw [hstage] at hst
    cases stray with
    | false => exact redo_of_abort hst.2 _
    | true => exact absurd hstage (h.clean r)

/-- **A server has recovered** from the log: its map is that of the requests
whose COMMIT was logged, it waits exactly when the last entry is a request
that passes its check, and rebuilding it again – on the spot, or after another
restart – changes nothing. -/
structure Recovered (m₀ : KvMap) (log : TpcLog) (t : KvServer) : Prop where
  /-- The map is that of the committed requests. -/
  map : t.store.toMap hash = executed m₀ (committedRequests log.entries)
  /-- The server waits for the decision on a request it can execute. -/
  wait : t.state = .wait ↔ ∃ r, lastRequest log.entries = some r ∧ r.check t.store = 0
  /-- A second rebuild changes nothing. -/
  again : ∃ u sent, kvserverRebuildStateChecked t = .ok (u, some sent) ∧ u.store = t.store
    ∧ u.state = t.state ∧ u.log.files = t.log.files
  /-- Nor does a second restart. -/
  restarted : ∀ numSets elemPerSet r₁,
    kvserverInit t.store t.log numSets elemPerSet true = .ok r₁ →
    ∃ u sent, kvserverRebuildStateChecked r₁ = .ok (u, some sent) ∧ u.store = t.store
      ∧ u.state = t.state ∧ u.log.files = t.log.files

/-- The rebuild of an initialised server recovers it from the log. -/
def Recovers (m₀ : KvMap) (log : TpcLog) (r₀ : KvServer) : Prop :=
  ∃ t sent, kvserverRebuildStateChecked r₀ = .ok (t, some sent) ∧ Recovered m₀ log t

/-- **Recovery from a disk** whose log is that of a conforming history and
whose store lacks at most what the rebuild redoes. -/
theorem ConformInv.recovers (h : ConformInv m₀ trace s records)
    {st : KvStore} {log : TpcLog} (hwf : st.WF hash) (hst : redo records st = s.store)
    (hlog : Numbered.Holds log.slot (records.map LogRecord.file))
    {numSets elemPerSet : ℕ} {r₀ : KvServer}
    (hinit : kvserverInit st log numSets elemPerSet true = .ok r₀) :
    Recovers m₀ log r₀ ↔ RebuildInBounds log.entries := by
  have hdir : ∀ {st : KvStore}, st.WF hash → kvstoreInit st = st := by
    intro st hwf
    unfold kvstoreInit
    rw [← hwf.1]
  obtain ⟨hinv, hstore, hstate, -⟩ := kvserverInit_spec hinit ((hdir hwf).symm ▸ hwf) hlog
  rw [entries_of_holds hlog]
  refine ⟨?_, fun hredo => ?_⟩
  · rintro ⟨t, sent, hre, -⟩
    by_contra hbounds
    obtain ⟨hin, -⟩ | ⟨-, fault, hfault⟩ := kvserverRebuildStateChecked_cases hinv.log.holds
    · exact hbounds hin
    · cases hfault.symm.trans hre
  obtain ⟨t, sent, hre, htinv, htstore, htstate, htfiles⟩ := rebuild_spec hinv hredo
  rw [hstore, hdir hwf] at htstore htstate
  rw [hst] at htstore
  rw [hstate] at htstate
  -- the state does not depend on whether the store was redone
  have hsame : rebuiltState records st .init = rebuiltState records t.store .init := by
    rw [htstore]
    unfold rebuiltState
    cases hr : lastRequest records with
    | none => rfl
    | some r => rw [← hst, redo_of_lastRequest hr]
  refine ⟨t, sent, hre, ?_, ?_, ?_, ?_⟩
  · rw [htstore, entries_of_holds hlog]
    exact h.map
  · rw [htstate, hsame, entries_of_holds hlog]
    unfold rebuiltState
    cases lastRequest records with
    | none => simp
    | some r =>
      by_cases hc : r.check t.store = 0
      · simp [hc]
      · simp [hc]
  · obtain ⟨u, sent', hre', -, hustore, hustate, hufiles⟩ := rebuild_spec htinv hredo
    refine ⟨u, sent', hre', ?_, ?_, hufiles⟩
    · rw [hustore, htstore, h.redo_self]
    · rw [hustate, htstate, hsame]
      unfold rebuiltState
      cases lastRequest records <;> rfl
  · intro numSets' elemPerSet' r₁ hinit'
    obtain ⟨hinv', hstore', hstate', hfiles'⟩ := kvserverInit_spec hinit'
      ((hdir htinv.wf).symm ▸ htinv.wf) htinv.log.holds
    obtain ⟨u, sent', hre', -, hustore, hustate, hufiles⟩ := rebuild_spec hinv' hredo
    rw [hstore', hdir htinv.wf] at hustore hustate
    refine ⟨u, sent', hre', ?_, ?_, ?_⟩
    · rw [hustore, htstore, h.redo_self]
    · rw [hustate, htstate, hsame, hstate']
    · rw [hufiles, hfiles']

/-- **A conforming message**: the handler answers, and what is on disk before
the store is updated lacks exactly what the rebuild redoes. -/
theorem ConformInv.handle (h : ConformInv m₀ trace s records) {m : KvMessage}
    {msg : SlaveMsg} (hm : m.decode = some msg) (hallow : (stageOf trace).allows msg = true) :
    ∃ t reply records', kvserverHandle s (some m) = (t, some reply)
      ∧ ConformInv m₀ (trace ++ [(m, reply)]) t records'
      ∧ redo records' s.store = t.store := by
  have hserver := h.inv.vote.server
  cases msg with
  | get key =>
    obtain ⟨cache, reply, hstep, hcoh, hreply⟩ := handle_get .zero hserver hm
    refine ⟨_, reply, records, hstep,
      h.get (x := (m, reply)) hm ⟨hserver.wf, hcoh, hserver.log⟩ ?_, h.redo_self⟩
    dsimp only
    split at hreply
    · rw [hreply.1]
      simp
    · rw [hreply]
      simp
  | tpc msg =>
    obtain ⟨t, reply, hstep, hhandled⟩ := handle_tpc .zero hserver hm (h.survives hallow)
    have hstore := hhandled.store
    have hconf := h.tpc (x := (m, reply)) hm hallow hhandled
    refine ⟨t, reply, _, hstep, hconf, ?_⟩
    have hself := hconf.redo_self
    cases msg with
    | request r => rwa [hstore] at hself ⊢
    | abort => rwa [hstore] at hself ⊢
    | commit =>
      rw [hstore]
      show redo (records ++ [.commit]) s.store = s.committedStore records
      cases hr : lastRequest records with
      | none =>
        have hsame : s.committedStore records = s.store := by
          unfold KvServer.committedStore
          rw [hr]
        rw [hstore] at hself
        change redo (records ++ [.commit]) (s.committedStore records)
          = s.committedStore records at hself
        rwa [hsame] at hself ⊢
      | some r =>
        unfold KvServer.committedStore
        rw [hr]
        refine redo_of_commit List.getLast?_concat ?_ _
        exact (prevRequest_append records .commit).trans (prevRequest_of_lastRequest hr)

/-- **Crash recovery**: after a crash at any point of a conforming history,
initialising the server again and rebuilding its state recovers it exactly if
the log that the crash left is rebuilt from within bounds. -/
theorem crash_recovers_iff {store : KvStore} {log : TpcLog}
    {numSets elemPerSet numSets' elemPerSet' : ℕ} {s₀ r₀ : KvServer}
    (hwf : (kvstoreInit store).WF hash) (hlog : log.files = ∅)
    (hinit : kvserverInit store log numSets elemPerSet true = .ok s₀)
    (hrun : Transition.Run CompletedStep s₀ trace s) (hconf : Conforms trace) {m : KvMessage}
    {msg : SlaveMsg} (hm : m.decode = some msg) (hallow : (stageOf trace).allows msg = true)
    (point : CrashPoint) (hrestart : kvserverInit (onDisk s m point).1 (onDisk s m point).2
      numSets' elemPerSet' true = .ok r₀) :
    Recovers ((kvstoreInit store).toMap hash) (onDisk s m point).2 r₀
      ↔ RebuildInBounds (onDisk s m point).2.entries := by
  obtain ⟨hvote, hmap⟩ := VoteInv.init hwf hlog hinit
  obtain ⟨records, h⟩ := (tpcRun_of_completed hrun).conformInv hconf hvote
  rw [hmap] at h
  obtain ⟨t, reply, records', hstep, ht, hredo⟩ := h.handle hm hallow
  have hserver := h.inv.vote.server
  have htserver := ht.inv.vote.server
  cases point with
  | before =>
    exact h.recovers hserver.wf h.redo_self hserver.log.holds hrestart
  | logged =>
    have hdisk : (onDisk s m .logged).2 = t.log := by
      show (kvserverHandle s (some m)).1.log = t.log
      rw [hstep]
    rw [hdisk] at hrestart ⊢
    exact ht.recovers hserver.wf hredo htserver.log.holds hrestart
  | stored =>
    have hdisk : onDisk s m .stored = (t.store, t.log) := by
      unfold onDisk
      rw [hstep]
    rw [hdisk] at hrestart ⊢
    exact ht.recovers htserver.wf ht.redo_self htserver.log.holds hrestart

/-- What is on disk after a crash between the log entry of a COMMIT and the
store: the PUT it decides is not executed yet. -/
def crashedDisk : KvStore × TpcLog := onDisk (after newServer putA) commitMsg .logged

/-- The server, initialised again on that disk. -/
def crashedServer : KvServer :=
  { newServer with store := crashedDisk.1, log := tpclogInit crashedDisk.2 }

theorem putA_run :
    Transition.Run CompletedStep newServer [answered newServer putA] (after newServer putA) :=
  .snoc .nil ⟨⟨by decide, rfl⟩, nofun⟩

theorem putA_conforms : Conforms [answered newServer putA] :=
  .snoc .nil (show putA.decode = some (.tpc (.request (.put letterA letterA))) from rfl) rfl

theorem crashedServer_init :
    kvserverInit crashedDisk.1 crashedDisk.2 1 2 true = .ok crashedServer := rfl

/-- The rebuild finishes the COMMIT. -/
theorem crash_recovers_iff_putA :
    Recovers ((kvstoreInit ⟨false, ∅⟩).toMap hash) crashedDisk.2 crashedServer := by
  refine (crash_recovers_iff (kvstoreInit_of_files_empty rfl).1 rfl newServer_init putA_run
    putA_conforms (show commitMsg.decode = some (.tpc .commit) from rfl) (by decide) .logged
    crashedServer_init).mpr ?_
  have hentries : crashedDisk.2.entries = [.put letterA letterA, .commit] := by decide +kernel
  have hshort : letterA.strlen < maxValLen := by decide
  show RebuildInBounds crashedDisk.2.entries
  rw [hentries]
  exact ⟨_, rfl, hshort⟩

/-- A value that no buffer holds. -/
def hugeValue : CString :=
  ⟨List.replicate 5000 97, fun h => absurd (List.eq_of_mem_replicate h) (by decide)⟩

/-- Its PUT. -/
def putHuge : KvMessage := (Request.put letterA hugeValue).message

/-- The server after a crash behind the log entry of that PUT, initialised again. -/
def hugeServer : KvServer :=
  { newServer with log := tpclogInit (onDisk newServer putHuge .logged).2 }

/-- **A PUT that is voted down is logged before it is checked**, and the rebuild copies its
value to the stack. -/
theorem hugeServer_notRecovered :
    kvserverInit (onDisk newServer putHuge .logged).1 (onDisk newServer putHuge .logged).2 1 2 true
        = .ok hugeServer
      ∧ kvserverRebuildStateChecked hugeServer = .error .writesPastBuffer
      ∧ ¬ Recovers ((kvstoreInit ⟨false, ∅⟩).toMap hash) (onDisk newServer putHuge .logged).2
          hugeServer := by
  have hempty : LogHolds newServer.log [] := ⟨LogHolds.holds_of_files_empty rfl, rfl⟩
  obtain ⟨log, reply, hput, hlog, -⟩ := handle_request_of_not_wait .zero hempty
    (Request.decode_message (.put letterA hugeValue)) nofun
  have hdisk : (onDisk newServer putHuge .logged).2 = log :=
    congrArg (fun result => result.1.log) hput
  have hholds : Numbered.Holds hugeServer.log.slot
      ([.put letterA hugeValue].map LogRecord.file) := by
    show Numbered.Holds (onDisk newServer putHuge .logged).2.slot _
    rw [hdisk]
    exact hlog.holds
  have hfault : kvserverRebuildStateChecked hugeServer = .error .writesPastBuffer := by
    have hlength : hugeValue.strlen = 5000 := List.length_replicate
    rw [kvserverRebuildStateChecked_put hholds rfl, copyVal_entry_put, hlength]
    rfl
  refine ⟨rfl, hfault, ?_⟩
  rintro ⟨t, sent, hre, -⟩
  cases hfault.symm.trans hre

/-! ## Refinement -/

/-- **A step of a participant** that answers a GET from its data. -/
def ParticipantStep (p : TwoPhase.Participant Request KvMap) (x : KvMessage × KvMessage)
    (p' : TwoPhase.Participant Request KvMap) : Prop :=
  match x.1.decode with
  | none => False
  | some (.get key) => p' = p ∧
    match (if key.strlen > maxKeyLen then none else p.data key) with
    | some value => x.2.type = .getResp ∧ x.2.value = .ref value
    | none => x.2.type = .resp
  | some (.tpc msg) => p' = (p.handle kvService msg).1
    ∧ x.2.type = replyType (p.handle kvService msg).2

theorem TpcStep.participantStep (h : ServerInv s records) (hstep : TpcStep s x t) :
    ∃ records', ServerInv t records'
      ∧ ParticipantStep (s.participant records) x (t.participant records') := by
  unfold ParticipantStep
  rcases hstep.inv h with ⟨key, cache, hm, rfl, hinv, -⟩ | ⟨msg, hm, -, -, hinv, hpart, htype⟩
  · obtain ⟨cache', reply, hget, -, hreply⟩ := handle_get .zero h hm
    cases hstep.2.symm.trans hget
    exact ⟨records, hinv, by rw [hm]; exact ⟨rfl, hreply⟩⟩
  · exact ⟨_, hinv, by rw [hm]; exact ⟨hpart, htype⟩⟩

/-- **A server refines a participant**, which is read off its store, its state and its log:
whatever messages it is sent, its answers are those of the participant. -/
theorem tpcRun_refines_participant {store : KvStore} {log : TpcLog} {numSets elemPerSet : ℕ}
    {s₀ : KvServer} (hwf : (kvstoreInit store).WF hash) (hlog : log.files = ∅)
    (hinit : kvserverInit store log numSets elemPerSet true = .ok s₀) (hrun : TpcRun s₀ trace s) :
    Transition.Run ParticipantStep (s₀.participant s₀.log.entries) trace
      (s.participant s.log.entries) := by
  have hstart := (VoteInv.init hwf hlog hinit).1.server
  have hrefines : ∃ records, ServerInv s records
      ∧ Transition.Run ParticipantStep (s₀.participant []) trace (s.participant records) := by
    refine hrun.invariant (I := fun trace s => ∃ records, ServerInv s records
      ∧ Transition.Run ParticipantStep (s₀.participant []) trace (s.participant records))
      ⟨[], hstart, .nil⟩ ?_
    rintro trace s x t ⟨records, hinv, hsteps⟩ hstep
    obtain ⟨records', hinv', hpart⟩ := hstep.participantStep hinv
    exact ⟨records', hinv', hsteps.snoc hpart⟩
  obtain ⟨records, hinv, hsteps⟩ := hrefines
  rwa [entries_of_holds hstart.log.holds, entries_of_holds hinv.log.holds]

/-- A history with a decision, its duplicate and a stray. -/
def decidedServer : KvServer :=
  after (after (after (after newServer putA) commitMsg) commitMsg) abortMsg

/-- Its messages. -/
def decidedTrace : List (KvMessage × KvMessage) :=
  [answered newServer putA, answered (after newServer putA) commitMsg,
    answered (after (after newServer putA) commitMsg) commitMsg,
    answered (after (after (after newServer putA) commitMsg) commitMsg) abortMsg]

theorem tpcRun_refines_participant_decided :
    Transition.Run ParticipantStep (newServer.participant newServer.log.entries) decidedTrace
        (decidedServer.participant decidedServer.log.entries)
      ∧ decidedServer.store.toMap hash letterA = some letterA :=
  ⟨tpcRun_refines_participant (kvstoreInit_of_files_empty rfl).1 rfl newServer_init
    (.snoc (.snoc (.snoc (.snoc .nil ⟨by decide, rfl⟩) ⟨by decide, rfl⟩) ⟨by decide, rfl⟩)
      ⟨by decide, rfl⟩), by decide⟩

end Kv
