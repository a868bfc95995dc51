import Cs162.KvCache
import Cs162.TpcLog

/-!
# The key-value server

A `KvServer` is a store behind a write-through cache, with a log and a
state for two-phase commit. In TPC mode a PUT or DEL request is only logged
and voted on; it takes effect when a COMMIT arrives. A COMMIT does not carry
the request: the server walks its whole log and executes the last entry.

A handler that dereferences a null pointer, or one it never initialised,
kills its process. The functions that can return an absent result where that
happens, next to the state the process leaves – what it had written to its
log and its store by then is on disk.

Two reads of the code go past the data of a log entry: `strlen(entry->data)`
on a decision, which has no data, and the copy of a value behind the key of
a DEL. Their results are not used, and `LogEntry.key` and `LogEntry.val` stop
at the end of the data.
-/

namespace Kv

/-- **The states of a participant** (`tpc_state_t`). -/
inductive TpcState where
  | init | wait | ready | abort | commit
  deriving DecidableEq

/-- **A server** (`kvserver_t`). -/
structure KvServer where
  /-- The cache. -/
  cache : KvCache
  /-- The store. -/
  store : KvStore
  /-- The log. -/
  log : TpcLog
  /-- Whether PUT and DEL go through two-phase commit. -/
  useTpc : Bool
  /-- Where the server stands in two-phase commit. -/
  state : TpcState

/-- `kvserver_init` on a directory with the given files: the state of
two-phase commit and the cache start afresh. -/
def kvserverInit (store : KvStore) (log : TpcLog) (numSets elemPerSet : ℕ)
    (useTpc : Bool) : Except Int KvServer :=
  match kvcacheInit numSets elemPerSet with
  | .error e => .error e
  | .ok cache =>
    .ok { cache
          store := kvstoreInit store
          log := if useTpc then tpclogInit log else log
          useTpc
          state := .init }

/-- `kvserver_get`: from the cache, or from the store, caching the value. -/
def kvserverGet (server : KvServer) (key : CString) : Except Int CString × KvServer :=
  if key.strlen > maxKeyLen then (.error errKeyLen, server)
  else
    let hit := kvcacheGet server.cache key
    match hit.1 with
    | .ok value => (.ok value, { server with cache := hit.2 })
    | .error _ =>
      match kvstoreGet hash server.store key with
      | .ok value => (.ok value, { server with cache := (kvcachePut hit.2 key value).2 })
      | .error e => (.error e, { server with cache := hit.2 })

/-- `kvserver_put_check`. -/
def kvserverPutCheck (server : KvServer) (key value : CString) : Int :=
  kvstorePutCheck server.store key value

/-- `kvserver_put`: to the store, then to the cache. -/
def kvserverPut (server : KvServer) (key value : CString) : Int × KvServer :=
  let err := kvserverPutCheck server key value
  if err < 0 then (err, server)
  else
    let put := kvstorePut hash server.store key value
    if put.1 < 0 then (put.1, { server with store := put.2 })
    else
      let cached := kvcachePut server.cache key value
      (cached.1, { server with store := put.2, cache := cached.2 })

/-- `kvserver_del_check`. -/
def kvserverDelCheck (server : KvServer) (key : CString) : Int :=
  kvstoreDelCheck hash server.store key

/-- `kvserver_del`: from the cache, then from the store. The lock of the
cache set is taken before any check, and `kvcache_getlock` returns null for
a key that is too long. -/
def kvserverDel (server : KvServer) (key : CString) : KvServer × Option Int :=
  if kvcacheGetlock key = false then (server, none)
  else
    let uncached := kvcacheDel server.cache key
    let server := { server with cache := uncached.2 }
    if kvserverDelCheck server key = 0 then
      let deleted := kvstoreDel hash server.store key
      ({ server with store := deleted.2 }, some deleted.1)
    else (server, some uncached.1)

/-- The end of a handler: the text for the error code. A handler that never
set its `err` reports whatever that local held. -/
def report (err : Option Int) (respmsg : KvMessage) : KvMessage :=
  { respmsg with
    message := match err with
      | none => .uninit
      | some err => if err = 0 then .ref msgSuccess else .ref (getMsg err) }

/-- `case COMMIT`: find the last entry of the log, log the decision, and
execute the entry. -/
def handleCommit (server : KvServer) (respmsg : KvMessage) :
    KvServer × Option KvMessage :=
  let iterated := tpclogIterate server.log.fuel (tpclogIterateBegin server.log)
  let server := { server with log := (tpclogLog iterated.2 .commit .null .null).1 }
  match iterated.1.getLast? with
  | some (some entry) =>
    if entry.type = .putReq then
      let put := kvserverPut server entry.key entry.val
      ({ put.2 with state := .ready }, some (report (some put.1) { respmsg with type := .ack }))
    else if entry.type = .delReq then
      match kvserverDel server entry.key with
      | (server, none) => (server, none)
      | (server, some err) =>
        ({ server with state := .ready }, some (report (some err) { respmsg with type := .ack }))
    else
      ({ server with state := .ready }, some (report none { respmsg with type := .ack }))
  | _ => (server, none)

/-- **`kvserver_handle_tpc`**. -/
def kvserverHandleTpc (server : KvServer) (reqmsg respmsg : KvMessage) :
    KvServer × Option KvMessage :=
  let respmsg := { respmsg with type := .resp }
  match reqmsg.type with
  | .getReq =>
    match reqmsg.key.deref with
    | none => (server, none)
    | some key =>
      match kvserverGet server key with
      | (.ok value, server) =>
        (server, some (report (some 0)
          { respmsg with type := .getResp, key := reqmsg.key, value := .ref value }))
      | (.error err, server) => (server, some (report (some err) respmsg))
  | .putReq =>
    if server.state = .wait then
      (server, some { respmsg with message := .ref errMsgInvalidRequest })
    else
      let logged := tpclogLog server.log .putReq reqmsg.key reqmsg.value
      let server := { server with log := logged.1 }
      match reqmsg.key.deref, reqmsg.value.deref with
      | some key, some value =>
        let err := kvserverPutCheck server key value
        let vote := { respmsg with
          type := if err = 0 then .voteCommit else .voteAbort
          key := reqmsg.key, value := reqmsg.value }
        ({ server with state := if err = 0 then .wait else .ready },
          some (report (some err) vote))
      | _, _ => (server, none)
  | .delReq =>
    if server.state = .wait then
      (server, some { respmsg with message := .ref errMsgInvalidRequest })
    else
      let logged := tpclogLog server.log .delReq reqmsg.key .null
      let server := { server with log := logged.1 }
      match reqmsg.key.deref with
      | some key =>
        let err := kvserverDelCheck server key
        let vote := { respmsg with
          type := if err = 0 then .voteCommit else .voteAbort
          key := reqmsg.key }
        ({ server with state := if err = 0 then .wait else .ready },
          some (report (some err) vote))
      | none => (server, none)
  | .commit => handleCommit server respmsg
  | .abort =>
    ({ server with
       log := (tpclogLog server.log .abort .null .null).1
       state := .ready },
      some (report none { respmsg with type := .ack }))
  | _ => (server, some (report none respmsg))

/-- `kvserver_handle` in TPC mode: a request that cannot be parsed is
answered as invalid, any other goes to `kvserver_handle_tpc` with a zeroed
response. -/
def kvserverHandle (server : KvServer) (reqmsg : Option KvMessage) :
    KvServer × Option KvMessage :=
  match reqmsg with
  | none =>
    (server, some { KvMessage.zero with
      type := .resp, message := .ref errMsgInvalidRequest })
  | some reqmsg => kvserverHandleTpc server reqmsg KvMessage.zero

/-- **`kvserver_rebuild_state`**: walk the log, then vote on a pending
request again, or execute a committed one again. The second component is
the types of the messages sent, and is absent where the process dies: on an
entry that cannot be loaded, on an empty log, and on a decision with no
request before it, where the code uses a pointer it never set. -/
def kvserverRebuildState (server : KvServer) : KvServer × Option (List MsgType) :=
  let iterated := tpclogIterate server.log.fuel (tpclogIterateBegin server.log)
  let server := { server with log := iterated.2 }
  match iterated.1.mapM id with
  | none => (server, none)
  | some entries =>
    let prev := (entries.filter
      (fun e => e.type ≠ .commit ∧ e.type ≠ .abort)).getLast?
    match entries.getLast? with
    | none => (server, none)
    | some entry =>
      if entry.type = .delReq then
        if kvserverDelCheck server entry.key = 0 then
          ({ server with state := .wait }, some [.voteCommit])
        else ({ server with state := .ready }, some [.voteAbort])
      else if entry.type = .putReq then
        if kvserverPutCheck server entry.key entry.val = 0 then
          ({ server with state := .wait }, some [.voteCommit])
        else ({ server with state := .ready }, some [.voteAbort])
      else if entry.type = .commit then
        match prev with
        | none => (server, none)
        | some prev =>
          if prev.type = .putReq then
            ((kvserverPut server prev.key prev.val).2, some [.ack])
          else if prev.type = .delReq then
            match kvserverDel server prev.key with
            | (server, none) => (server, none)
            | (server, some _) => (server, some [.ack])
          else (server, some [.ack])
      else (server, some [])

/-- A new server, on an empty directory. -/
def newServer : KvServer :=
  ⟨⟨1, fun _ => ⟨2, 0, [], ∅⟩⟩, ⟨true, ∅⟩, ⟨∅, 0, 0⟩, true, .init⟩

theorem newServer_init : kvserverInit ⟨false, ∅⟩ ⟨∅, 0, 0⟩ 1 2 true = .ok newServer := rfl

end Kv
