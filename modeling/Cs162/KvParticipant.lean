import Cs162.KvServer
import Cs162.TwoPhase

/-!
# The server is a participant of two-phase commit

What a TPC server is for: it replicates a map from keys to values, and it is
a `TwoPhase.Participant` of the service `kvService`. The data of the
participant is the map of the server's store, the undecided request is the
last record of its log, and it waits when the server's state is `TPC_WAIT`.

The invariant that ties the two together is `ServerInv`: the store is well
formed, the cache is coherent with it, and the log holds a list of records.
Each kind of message has one lemma that says everything the handler does
with it – the new server, what its log holds and the type of the answer – and
every later result about the handler is drawn from these.
-/

namespace Kv

/-- A map from keys to values. -/
abbrev KvMap := CString → Option CString

/-- **The requests that go through two-phase commit.** -/
inductive Request where
  | put (key value : CString)
  | del (key : CString)
  deriving DecidableEq

/-- **The replicated service**: a PUT is accepted within the length limits, a
DEL where the key is also there. -/
def kvService : TwoPhase.Service Request KvMap where
  accepts
    | .put key value, _ => decide (key.strlen ≤ maxKeyLen ∧ value.strlen ≤ maxValLen)
    | .del key, m => decide (key.strlen ≤ maxKeyLen ∧ (m key).isSome)
  exec
    | .put key value, m => Function.update m key (some value)
    | .del key, m => Function.update m key none

namespace Request

/-- The log record of a request. -/
def record : Request → LogRecord
  | put key value => .put key value
  | del key => .del key

/-- The check a server votes by. -/
def check : Request → KvStore → Int
  | put key value, st => kvstorePutCheck st key value
  | del key, st => kvstoreDelCheck hash st key

/-- What executing a request does to the store: `kvserver_put` and
`kvserver_del` check before they write. -/
def run : Request → KvStore → KvStore
  | put key value, st => (kvstorePut hash st key value).2
  | del key, st =>
    if kvstoreDelCheck hash st key = 0 then (kvstoreDel hash st key).2 else st

/-- Whether executing the request takes the null lock: a DEL of a key that
is too long does, as `kvserver_del` locks before it checks. -/
def takesNullLock : Request → Bool
  | put _ _ => false
  | del key => decide (maxKeyLen < key.strlen)

/-- A server votes for the requests the service accepts. -/
theorem check_eq_zero_iff {st : KvStore} (hwf : st.WF hash) (r : Request) :
    r.check st = 0 ↔ kvService.accepts r (st.toMap hash) = true := by
  cases r with
  | put key value =>
    show kvstorePutCheck st key value = 0 ↔ decide _ = true
    rw [kvstorePutCheck_eq_zero_iff hwf.1, decide_eq_true_eq]
  | del key =>
    show kvstoreDelCheck hash st key = 0 ↔ decide _ = true
    rw [kvstoreDelCheck_eq_zero_iff hwf, decide_eq_true_eq]

/-- Executing a request that fails its check changes nothing. -/
theorem run_of_check_ne {st : KvStore} {r : Request} (h : r.check st ≠ 0) : r.run st = st := by
  cases r with
  | put key value =>
    show (kvstorePut hash st key value).2 = st
    rw [kvstorePut_of_check_ne h]
  | del key => exact if_neg h

theorem run_del_of_check {st : KvStore} {key : CString} (h : kvstoreDelCheck hash st key = 0) :
    (del key).run st = (kvstoreDel hash st key).2 := if_pos h

/-- **Executing a request on the store is executing it on the map.** -/
theorem run_spec {st : KvStore} (hwf : st.WF hash) (r : Request) : (r.run st).WF hash
      ∧ (r.run st).toMap hash = kvService.apply (st.toMap hash) r := by
  unfold TwoPhase.Service.apply
  by_cases hcheck : r.check st = 0
  · rw [if_pos ((r.check_eq_zero_iff hwf).mp hcheck)]
    cases r with
    | put key value => exact (kvstorePut_spec hwf hcheck).2
    | del key =>
      rw [run_del_of_check hcheck]
      exact (kvstoreDel_spec hwf hcheck).2
  · rw [if_neg (fun ha => hcheck ((r.check_eq_zero_iff hwf).mpr ha)),
      run_of_check_ne hcheck]
    exact ⟨hwf, rfl⟩

/-- **Executing a request twice is executing it once**, to the byte. -/
theorem run_run {st : KvStore} (hwf : st.WF hash) (r : Request) : r.run (r.run st) = r.run st := by
  obtain ⟨hwf', hmap⟩ := r.run_spec hwf
  by_cases hcheck : r.check (r.run st) = 0
  · cases r with
    | put key value =>
      have hacc := (check_eq_zero_iff hwf' (put key value)).mp hcheck
      refine kvstorePut_of_toMap_eq hwf' hcheck ?_
      rw [hmap]
      unfold TwoPhase.Service.apply
      -- a PUT is accepted by its lengths, whatever the map
      rw [if_pos (show kvService.accepts (put key value) (st.toMap hash) = true from hacc)]
      exact Function.update_self _ _ _
    | del key =>
      -- the key is gone after the first time, so the second check fails
      have hsome := ((kvstoreDelCheck_eq_zero_iff hwf').mp hcheck).2
      rw [hmap] at hsome
      unfold TwoPhase.Service.apply at hsome
      split at hsome
      · exact absurd hsome (by simp [kvService])
      · rename_i hrej
        have hst : (del key).run st = st := run_of_check_ne
          (fun h => hrej ((check_eq_zero_iff hwf (del key)).mp h))
        rw [hst, hst]
  · exact run_of_check_ne hcheck

theorem check_ne_of_takesNullLock {r : Request} (h : r.takesNullLock = true)
    (st : KvStore) : r.check st ≠ 0 := by
  cases r with
  | put key value => exact absurd h (by simp [takesNullLock])
  | del key =>
    have hlen : key.strlen > maxKeyLen := of_decide_eq_true h
    show kvstoreDelCheck hash st key ≠ 0
    unfold kvstoreDelCheck
    rw [if_pos hlen]
    decide

end Request

/-- The request a record logs. -/
def LogRecord.request? : LogRecord → Option Request
  | put key value => some (.put key value)
  | del key => some (.del key)
  | commit => none
  | abort => none

@[simp] theorem LogRecord.request?_record (r : Request) : r.record.request? = some r := by
  cases r <;> rfl

/-- The undecided request of a log: its last record, where that is one. -/
def lastRequest (records : List LogRecord) : Option Request :=
  records.getLast?.bind LogRecord.request?

@[simp] theorem lastRequest_append (records : List LogRecord) (r : LogRecord) :
    lastRequest (records ++ [r]) = r.request? := by
  unfold lastRequest
  rw [List.getLast?_concat]
  rfl

/-- **The invariant of a server**, with the records its log holds. -/
structure ServerInv (s : KvServer) (records : List LogRecord) : Prop where
  /-- The store is well formed. -/
  wf : s.store.WF hash
  /-- The cache is coherent with the store. -/
  coherent : s.cache.Coherent (s.store.toMap hash)
  /-- The log holds the records. -/
  log : LogHolds s.log records

/-- The part of the invariant that is about the store and the cache. -/
structure KvServer.CacheInv (s : KvServer) : Prop where
  wf : s.store.WF hash
  coherent : s.cache.Coherent (s.store.toMap hash)

theorem ServerInv.cacheInv {s : KvServer} {records : List LogRecord}
    (h : ServerInv s records) : s.CacheInv :=
  ⟨h.wf, h.coherent⟩

/-- **The participant a server is.** -/
def KvServer.participant (s : KvServer) (records : List LogRecord) :
    TwoPhase.Participant Request KvMap where
  data := s.store.toMap hash
  last := lastRequest records
  waiting := decide (s.state = .wait)

/-- The store after a COMMIT: the undecided request is executed. -/
def KvServer.committedStore (s : KvServer) (records : List LogRecord) : KvStore :=
  match lastRequest records with
  | some r => r.run s.store
  | none => s.store

/-! ## The operations of the server -/

variable {s : KvServer} {records : List LogRecord}

/-- **`kvserver_init`** on a well-formed store and a log that holds the
records. -/
theorem kvserverInit_spec {store : KvStore} {log : TpcLog} {numSets elemPerSet : ℕ}
    (hinit : kvserverInit store log numSets elemPerSet true = .ok s)
    (hwf : (kvstoreInit store).WF hash)
    (hlog : Numbered.Holds log.slot (records.map LogRecord.file)) :
    ServerInv s records ∧ s.store = kvstoreInit store ∧ s.state = .init
      ∧ s.log.files = log.files := by
  unfold kvserverInit at hinit
  split at hinit
  · cases hinit
  · rename_i cache hcache
    cases hinit
    refine ⟨⟨hwf, ?_, LogHolds.init hlog⟩, rfl, rfl, rfl⟩
    exact KvCache.coherent_kvcacheInit hcache _

/-- **A COMMIT does to the store what it does to the map.** -/
theorem committedStore_spec (h : ServerInv s records) : (s.committedStore records).WF hash
      ∧ (s.committedStore records).toMap hash
          = (s.participant records).committed kvService := by
  unfold KvServer.committedStore KvServer.participant TwoPhase.Participant.committed
  dsimp only
  cases lastRequest records with
  | none => exact ⟨h.wf, rfl⟩
  | some r => exact r.run_spec h.wf

/-- **`kvserver_get` answers from the map**, and changes the cache only. -/
theorem kvserverGet_spec (h : s.CacheInv) (key : CString) : ∃ cache, kvserverGet s key
        = (if key.strlen > maxKeyLen then .error errKeyLen
            else match s.store.toMap hash key with
              | some value => .ok value
              | none => .error errNoKey,
          { s with cache := cache })
      ∧ cache.Coherent (s.store.toMap hash) := by
  unfold kvserverGet
  by_cases hlen : key.strlen > maxKeyLen
  · rw [if_pos hlen, if_pos hlen]
    exact ⟨s.cache, rfl, h.coherent⟩
  · have hle : key.strlen ≤ maxKeyLen := by omega
    rw [if_neg hlen, if_neg hlen]
    dsimp only
    cases hhit : (kvcacheGet s.cache key).1 with
    | ok value =>
      rw [h.coherent.get_ok hhit]
      exact ⟨_, rfl, h.coherent.get key⟩
    | error e =>
      have hstore : (findEntry hash s.store key).map Prod.snd = _ :=
        findEntry_map key hle h.wf.1
      dsimp only
      unfold kvstoreGet
      rw [hstore]
      cases hm : s.store.toMap hash key with
      | none => exact ⟨_, rfl, h.coherent.get key⟩
      | some value =>
        refine ⟨_, rfl, ?_⟩
        intro k v hk
        -- the pair that is cached is one the map has
        by_cases hv : value.strlen ≤ maxValLen
        · have := (h.coherent.get key).put hle hv k v hk
          rwa [← hm, Function.update_eq_self] at this
        · unfold kvcachePut at hk
          rw [if_neg hlen, if_pos (by omega)] at hk
          exact h.coherent.get key k v hk

/-- **`kvserver_put` executes the PUT on the store**, and caches the pair. -/
theorem kvserverPut_spec (h : s.CacheInv) (key value : CString) :
    ∃ cache, (kvserverPut s key value).2
        = { s with store := (Request.put key value).run s.store, cache := cache }
      ∧ cache.Coherent (((Request.put key value).run s.store).toMap hash) := by
  have hrun : (Request.put key value).run s.store = (kvstorePut hash s.store key value).2 :=
    rfl
  unfold kvserverPut kvserverPutCheck
  by_cases hcheck : kvstorePutCheck s.store key value = 0
  · obtain ⟨hret, -, hmap⟩ := kvstorePut_spec h.wf hcheck
    obtain ⟨hkey, hvalue⟩ := (kvstorePutCheck_eq_zero_iff h.wf.1).mp hcheck
    simp only [hcheck, lt_self_iff_false, if_false, hret]
    refine ⟨_, rfl, ?_⟩
    rw [hrun, hmap]
    exact h.coherent.put hkey hvalue
  · rw [if_pos (kvstorePutCheck_neg_iff.mpr hcheck),
      Request.run_of_check_ne (r := .put key value) hcheck]
    exact ⟨s.cache, rfl, h.coherent⟩

/-- **`kvserver_del` executes the DEL on the store**, where it does not take
the null lock. -/
theorem kvserverDel_spec (h : s.CacheInv) {key : CString}
    (hlock : (Request.del key).takesNullLock = false) : ∃ cache err, kvserverDel s key
        = ({ s with store := (Request.del key).run s.store, cache := cache }, some err)
      ∧ cache.Coherent (((Request.del key).run s.store).toMap hash) := by
  have hle : key.strlen ≤ maxKeyLen := by
    have : ¬ maxKeyLen < key.strlen := of_decide_eq_false hlock
    omega
  unfold kvserverDel kvserverDelCheck
  rw [if_neg (by simp [kvcacheGetlock, hle])]
  dsimp only
  by_cases hcheck : kvstoreDelCheck hash s.store key = 0
  · obtain ⟨-, -, hmap⟩ := kvstoreDel_spec h.wf hcheck
    rw [if_pos hcheck, Request.run_del_of_check hcheck]
    refine ⟨_, _, rfl, ?_⟩
    rw [hmap]
    exact h.coherent.del hle
  · rw [if_neg hcheck, Request.run_of_check_ne (r := .del key) hcheck]
    exact ⟨_, _, rfl, h.coherent.del_self key⟩

/-- A DEL that takes the null lock kills the process before it changes
anything. -/
theorem kvserverDel_of_takesNullLock {key : CString}
    (hlock : (Request.del key).takesNullLock = true) : kvserverDel s key = (s, none) := by
  have hlt : maxKeyLen < key.strlen := of_decide_eq_true hlock
  unfold kvserverDel
  rw [if_pos (by simp [kvcacheGetlock]; omega)]

/-! ## The messages of the handler -/

/-- **The messages a TPC server understands.** -/
inductive SlaveMsg where
  | get (key : CString)
  | tpc (msg : TwoPhase.Msg Request)

/-- What a message says to a server, where the fields its type needs can be
read. -/
def KvMessage.decode (m : KvMessage) : Option SlaveMsg :=
  match m.type with
  | .getReq => m.key.deref.map SlaveMsg.get
  | .putReq => do
    let key ← m.key.deref
    let value ← m.value.deref
    pure (.tpc (.request (.put key value)))
  | .delReq => m.key.deref.map (fun key => .tpc (.request (.del key)))
  | .commit => some (.tpc .commit)
  | .abort => some (.tpc .abort)
  | _ => none

/-- The message of a PUT or DEL. -/
def Request.message : Request → KvMessage
  | put key value =>
    { type := .putReq, key := .ref key, value := .ref value, message := .null }
  | del key => { type := .delReq, key := .ref key, value := .null, message := .null }

@[simp] theorem Request.decode_message (r : Request) :
    r.message.decode = some (.tpc (.request r)) := by
  cases r <;> rfl

/-- The type of the message a reply is sent as. -/
def replyType : TwoPhase.Reply → MsgType
  | .voteCommit => .voteCommit
  | .voteAbort => .voteAbort
  | .refused => .resp
  | .ack => .ack

/-- What the store is after a message. -/
def storeAfter (s : KvServer) (records : List LogRecord) : TwoPhase.Msg Request → KvStore
  | .commit => s.committedStore records
  | _ => s.store

/-- What the log holds after a message. -/
def recordsAfter (s : KvServer) (records : List LogRecord) :
    TwoPhase.Msg Request → List LogRecord
  | .request r => if s.state = .wait then records else records ++ [r.record]
  | .commit => records ++ [.commit]
  | .abort => records ++ [.abort]

variable {m : KvMessage} (resp : KvMessage)

theorem KvMessage.fields_of_decode {msg : SlaveMsg} (hm : m.decode = some msg) : match msg with
    | .get key => m.type = .getReq ∧ m.key.deref = some key
    | .tpc (.request (.put key value)) =>
      m.type = .putReq ∧ m.key.deref = some key ∧ m.value.deref = some value
    | .tpc (.request (.del key)) => m.type = .delReq ∧ m.key.deref = some key
    | .tpc .commit => m.type = .commit
    | .tpc .abort => m.type = .abort := by
  unfold KvMessage.decode at hm
  split at hm
  case h_1 htype =>
    obtain ⟨key, hkey, rfl⟩ := Option.map_eq_some_iff.mp hm
    exact ⟨htype, hkey⟩
  case h_2 htype =>
    obtain ⟨key, hkey, hm⟩ := Option.bind_eq_some_iff.mp hm
    obtain ⟨value, hvalue, hm⟩ := Option.bind_eq_some_iff.mp hm
    cases hm
    exact ⟨htype, hkey, hvalue⟩
  case h_3 htype =>
    obtain ⟨key, hkey, rfl⟩ := Option.map_eq_some_iff.mp hm
    exact ⟨htype, hkey⟩
  case h_4 htype =>
    cases hm
    exact htype
  case h_5 htype =>
    cases hm
    exact htype
  case h_6 => cases hm

/-- **A GET** answers from the map and changes the cache only. -/
theorem handle_get (h : ServerInv s records) {key : CString} (hm : m.decode = some (.get key)) :
    ∃ cache reply, kvserverHandleTpc s m resp = ({ s with cache := cache }, some reply)
      ∧ cache.Coherent (s.store.toMap hash)
      ∧ match (if key.strlen > maxKeyLen then none else s.store.toMap hash key) with
        | some value => reply.type = .getResp ∧ reply.value = .ref value
        | none => reply.type = .resp := by
  have htype := KvMessage.fields_of_decode hm
  obtain ⟨cache, hget, hcoh⟩ := kvserverGet_spec h.cacheInv key
  unfold kvserverHandleTpc
  rw [htype.1]
  dsimp only
  rw [htype.2]
  dsimp only
  rw [hget]
  by_cases hlen : key.strlen > maxKeyLen
  · rw [if_pos hlen, if_pos hlen]
    exact ⟨cache, _, rfl, hcoh, rfl⟩
  · rw [if_neg hlen, if_neg hlen]
    cases s.store.toMap hash key with
    | none => exact ⟨cache, _, rfl, hcoh, rfl⟩
    | some value => exact ⟨cache, _, rfl, hcoh, rfl, rfl⟩

/-- **A request to a waiting server** is answered as invalid and changes
nothing. -/
theorem handle_request_of_wait {r : Request}
    (hm : m.decode = some (.tpc (.request r))) (hw : s.state = .wait) :
    ∃ reply, kvserverHandleTpc s m resp = (s, some reply) ∧ reply.type = .resp := by
  have hr := KvMessage.fields_of_decode hm
  unfold kvserverHandleTpc
  cases r with
  | put key value | del key =>
    rw [hr.1]
    dsimp only
    rw [if_pos hw]
    exact ⟨_, rfl, rfl⟩

/-- **A request to any other server** is logged and voted on. -/
theorem handle_request_of_not_wait (h : LogHolds s.log records) {r : Request}
    (hm : m.decode = some (.tpc (.request r))) (hw : s.state ≠ .wait) :
    ∃ log reply, kvserverHandleTpc s m resp
        = ({ s with log := log, state := if r.check s.store = 0 then .wait else .ready },
            some reply)
      ∧ LogHolds log (records ++ [r.record])
      ∧ reply.type = if r.check s.store = 0 then .voteCommit else .voteAbort := by
  have hr := KvMessage.fields_of_decode hm
  unfold kvserverHandleTpc
  cases r with
  | put key value =>
    obtain ⟨htype, hkey, hvalue⟩ := hr
    obtain ⟨-, hlog, -⟩ := h.tpclogLog_append (.put key value) m.key m.value (by
        show logData .putReq m.key m.value = some _
        unfold logData
        rw [hkey, hvalue]
        rfl)
    rw [htype]
    dsimp only
    rw [if_neg hw, hkey, hvalue]
    exact ⟨_, _, rfl, hlog, rfl⟩
  | del key =>
    obtain ⟨htype, hkey⟩ := hr
    obtain ⟨-, hlog, -⟩ := h.tpclogLog_append (.del key) m.key .null (by
        show logData .delReq m.key .null = some _
        unfold logData
        rw [hkey]
        rfl)
    rw [htype]
    dsimp only
    rw [if_neg hw, hkey]
    exact ⟨_, _, rfl, hlog, rfl⟩

/-- **An ABORT** is logged and acknowledged. -/
theorem handle_abort (h : LogHolds s.log records) (hm : m.decode = some (.tpc .abort)) :
    ∃ log reply, kvserverHandleTpc s m resp
        = ({ s with log := log, state := .ready }, some reply)
      ∧ LogHolds log (records ++ [.abort]) ∧ reply.type = .ack := by
  have htype := KvMessage.fields_of_decode hm
  obtain ⟨-, hlog, -⟩ := h.tpclogLog_append .abort .null .null rfl
  unfold kvserverHandleTpc
  rw [htype]
  exact ⟨_, _, rfl, hlog, rfl⟩

/-- The server a COMMIT leaves once the decision is logged, and before
anything is executed. -/
def commitLogged (s : KvServer) : KvServer :=
  { s with log := (tpclogLog
      (tpclogIterate s.log.fuel (tpclogIterateBegin s.log)).2 .commit .null .null).1 }

theorem commitLogged_log (h : LogHolds s.log records) :
    LogHolds (commitLogged s).log (records ++ [.commit]) := by
  have hit := LogHolds.iterate h.holds
  show LogHolds (tpclogLog _ _ _ _).1 _
  rw [hit]
  exact ((h.iterpos records.length).tpclogLog_append .commit .null .null rfl).2.1

theorem commitLogged_inv (h : ServerInv s records) :
    ServerInv (commitLogged s) (records ++ [.commit]) where
  wf := h.wf
  coherent := h.coherent
  log := commitLogged_log h.log

/-- A COMMIT, up to the entry it executes. -/
theorem handle_commit_eq (h : ServerInv s records) (hm : m.decode = some (.tpc .commit)) :
    kvserverHandleTpc s m resp
      = match records.getLast? with
        | none => (commitLogged s, none)
        | some (.put key value) =>
          ({ (kvserverPut (commitLogged s) key value).2 with state := .ready },
            some (report (some (kvserverPut (commitLogged s) key value).1)
              { resp with type := .ack }))
        | some (.del key) =>
          match kvserverDel (commitLogged s) key with
          | (server, none) => (server, none)
          | (server, some err) =>
            ({ server with state := .ready },
              some (report (some err) { resp with type := .ack }))
        | some _ =>
          ({ commitLogged s with state := .ready },
            some (report none { resp with type := .ack })) := by
  have hit := LogHolds.iterate h.log.holds
  have htype := KvMessage.fields_of_decode hm
  unfold kvserverHandleTpc handleCommit
  rw [htype]
  dsimp only
  rw [show (tpclogIterate s.log.fuel (tpclogIterateBegin s.log)).1
      = records.map (fun r => some r.entry) from by rw [hit], List.getLast?_map]
  cases records.getLast? with
  | none => rfl
  | some record =>
    cases record with
    | put key value =>
      simp only [Option.map_some, LogRecord.key_entry_put, LogRecord.val_entry_put]
      rfl
    | del key =>
      simp only [Option.map_some, LogRecord.key_entry_del]
      rfl
    | commit => rfl
    | abort => rfl

/-- **A COMMIT** is logged, the undecided request is executed where there is
one, and the COMMIT is acknowledged. -/
theorem handle_commit (h : ServerInv s records) (hm : m.decode = some (.tpc .commit))
    (hne : records ≠ []) (hlock : ∀ r, lastRequest records = some r → r.takesNullLock = false) :
    ∃ log cache reply, kvserverHandleTpc s m resp
        = ({ s with
             store := s.committedStore records, cache := cache, log := log,
             state := .ready }, some reply)
      ∧ LogHolds log (records ++ [.commit])
      ∧ cache.Coherent ((s.committedStore records).toMap hash)
      ∧ reply.type = .ack := by
  have hinv := commitLogged_inv h
  rw [handle_commit_eq resp h hm]
  obtain ⟨record, hlast⟩ := Option.ne_none_iff_exists'.mp
    (fun hnone => hne (List.getLast?_eq_none_iff.mp hnone))
  have hreq : lastRequest records = record.request? := by
    unfold lastRequest
    rw [hlast]
    rfl
  unfold KvServer.committedStore
  rw [hlast, hreq]
  cases record with
  | put key value =>
    obtain ⟨cache, hput, hcoh⟩ := kvserverPut_spec hinv.cacheInv key value
    dsimp only [LogRecord.request?]
    rw [hput]
    exact ⟨_, cache, _, rfl, hinv.log, hcoh, rfl⟩
  | del key =>
    obtain ⟨cache, err, hdel, hcoh⟩ := kvserverDel_spec hinv.cacheInv (hlock _ hreq)
    dsimp only [LogRecord.request?]
    rw [hdel]
    exact ⟨_, cache, _, rfl, hinv.log, hcoh, rfl⟩
  | commit | abort => exact ⟨_, s.cache, _, rfl, hinv.log, h.coherent, rfl⟩

/-- A COMMIT to a server whose log is empty, or ends in a DEL of a key that
is too long, is logged and then kills the process. -/
theorem handle_commit_dies (h : ServerInv s records) (hm : m.decode = some (.tpc .commit))
    (hdies : records = [] ∨ ∃ r, lastRequest records = some r ∧ r.takesNullLock = true) :
    kvserverHandleTpc s m resp = (commitLogged s, none) := by
  rw [handle_commit_eq resp h hm]
  rcases hdies with rfl | ⟨r, hr, hlock⟩
  · rfl
  · unfold lastRequest at hr
    obtain ⟨record, hlast, hreq⟩ := Option.bind_eq_some_iff.mp hr
    rw [hlast]
    cases record with
    | put key value =>
      cases hreq
      exact absurd hlock (by simp [Request.takesNullLock])
    | del key =>
      cases hreq
      dsimp only
      rw [kvserverDel_of_takesNullLock hlock]
    | commit | abort => simp [LogRecord.request?] at hreq

/-- Whether a server survives a message: a COMMIT needs a record before it,
and not one of a DEL that takes the null lock. -/
def Survives (records : List LogRecord) : TwoPhase.Msg Request → Prop
  | .commit => records ≠ [] ∧ ∀ r, lastRequest records = some r → r.takesNullLock = false
  | _ => True

/-- **What a server does with a message** of two-phase commit, as its participant would. -/
structure Handled (s : KvServer) (records : List LogRecord) (msg : TwoPhase.Msg Request)
    (t : KvServer) (type : MsgType) : Prop where
  store : t.store = storeAfter s records msg
  inv : ServerInv t (recordsAfter s records msg)
  step : t.participant (recordsAfter s records msg)
    = ((s.participant records).handle kvService msg).1
  reply : type = replyType ((s.participant records).handle kvService msg).2

/-- **The handler refines the step of a participant**, for every message it
survives. -/
theorem handle_tpc (h : ServerInv s records) {msg : TwoPhase.Msg Request}
    (hm : m.decode = some (.tpc msg)) (hlive : Survives records msg) :
    ∃ t reply, kvserverHandleTpc s m resp = (t, some reply)
      ∧ Handled s records msg t reply.type := by
  cases msg with
  | request r =>
    by_cases hw : s.state = .wait
    · obtain ⟨reply, hstep, htype⟩ := handle_request_of_wait resp hm hw
      have hrec : recordsAfter s records (.request r) = records := if_pos hw
      have hhandle : (s.participant records).handle kvService (.request r) = _ :=
        TwoPhase.Participant.handle_request_of_waiting (decide_eq_true hw) r
      refine ⟨s, reply, hstep, rfl, ?_, ?_, ?_⟩
      · rwa [hrec]
      · rw [hrec, hhandle]
      · rwa [hhandle]
    · obtain ⟨log, reply, hstep, hlog, htype⟩ :=
        handle_request_of_not_wait resp h.log hm hw
      have hcheck := r.check_eq_zero_iff h.wf
      have hrec : recordsAfter s records (.request r) = records ++ [r.record] := if_neg hw
      have hhandle : (s.participant records).handle kvService (.request r) = _ :=
        TwoPhase.Participant.handle_request_of_not_waiting (decide_eq_false hw) r
      refine ⟨_, reply, hstep, rfl, ⟨h.wf, h.coherent, ?_⟩, ?_, ?_⟩
      · rwa [hrec]
      · rw [hrec, hhandle]
        unfold KvServer.participant
        rw [lastRequest_append, LogRecord.request?_record]
        congr 1
        by_cases hc : r.check s.store = 0
        · simp [hc, hcheck.mp hc]
        · simp [hc, Bool.eq_false_iff.mpr (fun ha => hc (hcheck.mpr ha))]
      · rw [hhandle, htype]
        show _ = replyType (if kvService.accepts r (s.store.toMap hash) then _ else _)
        by_cases hc : r.check s.store = 0
        · rw [if_pos hc, if_pos (hcheck.mp hc)]
          rfl
        · rw [if_neg hc, if_neg (fun ha => hc (hcheck.mpr ha))]
          rfl
  | commit =>
    obtain ⟨log, cache, reply, hstep, hlog, hcoh, htype⟩ :=
      handle_commit resp h hm hlive.1 hlive.2
    obtain ⟨hwf, hmap⟩ := committedStore_spec h
    refine ⟨_, reply, hstep, rfl, ⟨hwf, hcoh, hlog⟩, ?_, htype⟩
    unfold recordsAfter
    show (⟨(s.committedStore records).toMap hash, lastRequest _, false⟩ :
      TwoPhase.Participant Request KvMap) = ⟨_, none, false⟩
    rw [lastRequest_append, hmap]
    rfl
  | abort =>
    obtain ⟨log, reply, hstep, hlog, htype⟩ := handle_abort resp h.log hm
    refine ⟨_, reply, hstep, rfl, ⟨h.wf, h.coherent, hlog⟩, ?_, htype⟩
    unfold KvServer.participant recordsAfter
    rw [lastRequest_append]
    rfl

end Kv
