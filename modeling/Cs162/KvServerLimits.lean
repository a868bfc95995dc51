import Cs162.KvRefinement

/-!
# Keys and values that are too long

The length limits are checked in the server, in the cache and in the store. The lock of a cache
set is taken on what `kvcache_getlock` returns, which is null for a key that is too long, so a
call has to check the length before it takes the lock. `kvserver_get` and `kvserver_put` do;
`kvserver_del` takes the lock first (`rejectsCleanly_iff`).
-/

namespace Kv

/-- `pthread_rwlock_rdlock` or `pthread_rwlock_wrlock` on the lock that `kvcache_getlock` returned
for a key. Locking the null lock kills the process. -/
def lockSet (key : CString) : Option Unit := if kvcacheGetlock key then some () else none

/-- `kvserver_get`, with the locks it takes. -/
def kvserverGetLocked (server : KvServer) (key : CString) :
    Option (Except Int CString × KvServer) :=
  if key.strlen > maxKeyLen then some (.error errKeyLen, server)
  else do
    lockSet key
    let hit := kvcacheGet server.cache key
    match hit.1 with
    | .ok value => some (.ok value, { server with cache := hit.2 })
    | .error _ =>
      match kvstoreGet hash server.store key with
      | .ok value => do
        lockSet key
        some (.ok value, { server with cache := (kvcachePut hit.2 key value).2 })
      | .error e => some (.error e, { server with cache := hit.2 })

/-- `kvserver_put`, with the lock it takes. -/
def kvserverPutLocked (server : KvServer) (key value : CString) : Option (Int × KvServer) :=
  let err := kvserverPutCheck server key value
  if err < 0 then some (err, server)
  else
    let put := kvstorePut hash server.store key value
    if put.1 < 0 then some (put.1, { server with store := put.2 })
    else do
      lockSet key
      let cached := kvcachePut server.cache key value
      some (cached.1, { server with store := put.2, cache := cached.2 })

/-- `kvserver_del`, with the lock it takes. -/
def kvserverDelLocked (server : KvServer) (key : CString) : Option (Int × KvServer) := do
  lockSet key
  let uncached := kvcacheDel server.cache key
  let server := { server with cache := uncached.2 }
  if kvserverDelCheck server key = 0 then
    let deleted := kvstoreDel hash server.store key
    some (deleted.1, { server with store := deleted.2 })
  else some (uncached.1, server)

/-- **A call with its locks**, where it does not take the null lock. -/
def kvserverCallLocked (server : KvServer) : KvCall → Option (KvReply × KvServer)
  | .get key => (kvserverGetLocked server key).map fun result => (.ofGet result.1, result.2)
  | .put key value => (kvserverPutLocked server key value).map fun result =>
      (.code result.1, result.2)
  | .del key => (kvserverDelLocked server key).map fun result => (.code result.1, result.2)

theorem lockSet_of_le {key : CString} (h : key.strlen ≤ maxKeyLen) : lockSet key = some () :=
  if_pos (decide_eq_true h)

theorem lockSet_of_lt {key : CString} (h : maxKeyLen < key.strlen) : lockSet key = none :=
  if_neg (by rw [kvcacheGetlock, decide_eq_true_eq]; exact not_le.mpr h)

theorem kvserverGetLocked_eq (server : KvServer) (key : CString) :
    kvserverGetLocked server key = some (kvserverGet server key) := by
  unfold kvserverGetLocked kvserverGet
  by_cases hlong : key.strlen > maxKeyLen
  · rw [if_pos hlong, if_pos hlong]
  · rw [if_neg hlong, if_neg hlong, lockSet_of_le (not_lt.mp hlong)]
    dsimp only [Option.bind_eq_bind, Option.bind_some]
    cases (kvcacheGet server.cache key).1 with
    | ok value => rfl
    | error e => cases kvstoreGet hash server.store key <;> rfl

/-- A PUT that passes its check is within the limits. -/
theorem kvserverPutLocked_eq (server : KvServer) (key value : CString) :
    kvserverPutLocked server key value = some (kvserverPut server key value) := by
  unfold kvserverPutLocked kvserverPut
  dsimp only
  by_cases hcheck : kvserverPutCheck server key value < 0
  · rw [if_pos hcheck, if_pos hcheck]
  · have hkey : key.strlen ≤ maxKeyLen := by
      by_contra hlong
      refine hcheck ?_
      show kvstorePutCheck server.store key value < 0
      unfold kvstorePutCheck
      rw [if_pos (not_le.mp hlong)]
      decide
    rw [if_neg hcheck, if_neg hcheck, lockSet_of_le hkey]
    split <;> rfl

theorem kvserverDelLocked_eq (server : KvServer) (key : CString) : kvserverDelLocked server key
      = (kvserverDel server key).2.map fun err => (err, (kvserverDel server key).1) := by
  unfold kvserverDelLocked kvserverDel
  by_cases hkey : key.strlen ≤ maxKeyLen
  · have hlock : ¬ kvcacheGetlock key = false := by
      rw [kvcacheGetlock, decide_eq_true hkey]
      decide
    rw [lockSet_of_le hkey, if_neg hlock]
    dsimp only [Option.bind_eq_bind, Option.bind_some]
    split <;> rfl
  · have hlock : kvcacheGetlock key = false := decide_eq_false hkey
    rw [lockSet_of_lt (not_le.mp hkey), if_pos hlock]
    rfl

/-- The error for a key or a value that is too long, the key first. -/
def KvCall.lengthError (c : KvCall) : Int :=
  if c.key.strlen > maxKeyLen then errKeyLen else errValLen

/-- **A call is rejected cleanly**: with the error, without taking the null lock, and with nothing
changed. -/
def RejectsCleanly (server : KvServer) (c : KvCall) : Prop :=
  kvserverCallLocked server c = some (.code c.lengthError, server)

/-- A deletion of a key that is too long takes the null lock. -/
theorem kvserverCallLocked_del {server : KvServer} {key : CString}
    (hlong : maxKeyLen < key.strlen) : kvserverCallLocked server (.del key) = none := by
  show (kvserverDelLocked server key).map _ = _
  unfold kvserverDelLocked
  rw [lockSet_of_lt hlong]
  rfl

/-- **Calls beyond the limits** are rejected cleanly, in every state of a server, exactly if they
are not deletions. -/
theorem rejectsCleanly_iff (server : KvServer) {c : KvCall} (hlong : ¬ c.Within) :
    RejectsCleanly server c ↔ ∀ key, c ≠ .del key := by
  unfold RejectsCleanly
  cases c with
  | get key =>
    have hkey : key.strlen > maxKeyLen := not_le.mp hlong
    refine iff_of_true ?_ nofun
    have herror : (KvCall.get key).lengthError = errKeyLen := if_pos hkey
    show (kvserverGetLocked server key).map _ = _
    rw [kvserverGetLocked, if_pos hkey, herror]
    rfl
  | put key value =>
    refine iff_of_true ?_ nofun
    have hcheck : kvserverPutCheck server key value = (KvCall.put key value).lengthError := by
      show kvstorePutCheck server.store key value = if key.strlen > maxKeyLen then _ else _
      unfold kvstorePutCheck
      by_cases hkey : key.strlen > maxKeyLen
      · rw [if_pos hkey, if_pos hkey]
      · have hvalue : value.strlen > maxValLen :=
          not_le.mp fun hle => hlong ⟨not_lt.mp hkey, hle⟩
        rw [if_neg hkey, if_neg hkey, if_pos hvalue]
    have hneg : (KvCall.put key value).lengthError < 0 := by
      unfold KvCall.lengthError
      split <;> decide
    show (kvserverPutLocked server key value).map _ = _
    unfold kvserverPutLocked
    dsimp only
    rw [hcheck, if_pos hneg]
    rfl
  | del key =>
    rw [kvserverCallLocked_del (not_le.mp hlong)]
    exact iff_of_false nofun fun h => h key rfl

/-- A key of one letter more than a key may have. -/
def overlongKey : CString :=
  ⟨List.replicate (maxKeyLen + 1) 97, fun h => absurd (List.eq_of_mem_replicate h) (by decide)⟩

theorem strlen_overlongKey : overlongKey.strlen = maxKeyLen + 1 := List.length_replicate

/-- A GET of a key that is too long. -/
theorem rejectsCleanly_iff_get : RejectsCleanly newServer (.get overlongKey) := by
  refine (rejectsCleanly_iff newServer fun hwithin => ?_).mpr nofun
  have hle : overlongKey.strlen ≤ maxKeyLen := hwithin
  rw [strlen_overlongKey] at hle
  exact absurd hle (Nat.not_succ_le_self _)

/-- **A DEL of a key that is too long** takes the null lock. -/
theorem kvserverDel_overlongKey :
    ¬ (KvCall.del overlongKey).Within
      ∧ lockSet overlongKey = none
      ∧ kvserverCallLocked newServer (.del overlongKey) = none := by
  have hlong : maxKeyLen < overlongKey.strlen := strlen_overlongKey ▸ Nat.lt_succ_self _
  exact ⟨not_le.mpr hlong, lockSet_of_lt hlong, kvserverCallLocked_del hlong⟩

end Kv
