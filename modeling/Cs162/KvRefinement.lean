import Cs162.KvParticipant
import Cs162.Serve

/-!
# The store and the server are a finite map

What clients may call and what they are told is the same whether a store, a
server with its cache, or a finite map serves them: the calls `get`, `put` and
`del`, a value or a return code. The map, `mapCall`, states what the component
is for; a store (`kvstoreCall`) and a server (`kvserverCall`) serve every list
of calls with the same replies.

The two differ in what they need. A store needs its chains complete, since a
lookup ends at the first missing file. A server needs the cache coherent
besides, and there its `del` needs it most: where the key is not in the store,
the return code is the cache's.
-/

namespace Kv

open Transition

/-- **The calls of a client.** -/
inductive KvCall where
  | get (key : CString)
  | put (key value : CString)
  | del (key : CString)
  deriving DecidableEq

/-- The key of a call. -/
def KvCall.key : KvCall → CString
  | get key | put key _ | del key => key

/-- The key and the value are within their limits. -/
def KvCall.Within : KvCall → Prop
  | get key | del key => key.strlen ≤ maxKeyLen
  | put key value => key.strlen ≤ maxKeyLen ∧ value.strlen ≤ maxValLen

instance (c : KvCall) : Decidable c.Within := by
  cases c <;> unfold KvCall.Within <;> infer_instance

/-- **What a client is told**: a return code, or `0` with a value. -/
inductive KvReply where
  | code (code : Int)
  | value (value : CString)
  /-- The process is gone. -/
  | crash
  deriving DecidableEq

/-- The reply of a lookup. -/
def KvReply.ofGet : Except Int CString → KvReply
  | .ok v => value v
  | .error e => code e

/-- **A finite map serves a call.** -/
def mapCall (m : Finmap fun _ : CString => CString) :
    KvCall → KvReply × Finmap fun _ : CString => CString
  | .get key =>
    match m.lookup key with
    | some v => (.value v, m)
    | none => (.code errNoKey, m)
  | .put key value =>
    if value.strlen > maxValLen then (.code errValLen, m) else (.code 0, m.insert key value)
  | .del key => if key ∈ m then (.code 0, m.erase key) else (.code errNoKey, m)

/-- A store serves a call. -/
def kvstoreCall (hash : CString → ℕ) (s : KvStore) : KvCall → KvReply × KvStore
  | .get key => (.ofGet (kvstoreGet hash s key), s)
  | .put key value =>
    let (err, s) := kvstorePut hash s key value
    (.code err, s)
  | .del key =>
    let (err, s) := kvstoreDel hash s key
    (.code err, s)

/-- A server serves a call. -/
def kvserverCall (server : KvServer) : KvCall → KvReply × KvServer
  | .get key =>
    let (result, server) := kvserverGet server key
    (.ofGet result, server)
  | .put key value =>
    let (err, server) := kvserverPut server key value
    (.code err, server)
  | .del key =>
    match kvserverDel server key with
    | (server, some err) => (.code err, server)
    | (server, none) => (.crash, server)

/-! ## The store -/

section

variable {hash : CString → ℕ} {s : KvStore} {m : Finmap fun _ : CString => CString}

/-- **Complete hash chains**: the entry files of a hash value have the
positions below some number, every entry is in the chain of its key's hash,
and no key occurs twice. -/
structure KvStore.Chained (hash : CString → ℕ) (s : KvStore) : Prop where
  complete : ∀ h, ∃ n, ∀ i, (s.chain h i).isSome = true ↔ i < n
  hashed : ∀ h i e, s.chain h i = some e → hash e.key = h
  distinct : ∀ h i e h' i' e', s.chain h i = some e → s.chain h' i' = some e' →
    e.key = e'.key → h = h' ∧ i = i'

/-- The entries of a store are the pairs of a map. -/
def KvStore.Represents (s : KvStore) (m : Finmap fun _ : CString => CString) : Prop :=
  ∀ key value, m.lookup key = some value
    ↔ ∃ h i e, s.chain h i = some e ∧ e.key = key ∧ e.value = value

theorem ChainInv.chained {chains : ℕ → List (CString × CString)}
    (hc : ChainInv hash s chains) : s.Chained hash := by
  have hentry : ∀ h i e, s.chain h i = some e →
      ∃ p, (chains h)[i]? = some p ∧ e = KvEntry.make p.1 p.2 := by
    intro h i e he
    rw [hc.holds h i, List.getElem?_map, Option.map_eq_some_iff] at he
    obtain ⟨p, hp, rfl⟩ := he
    exact ⟨p, hp, rfl⟩
  refine ⟨fun h => ⟨(chains h).length, fun i => ?_⟩, fun h i e he => ?_, ?_⟩
  · rw [hc.holds h i, List.getElem?_map, Option.isSome_map, isSome_getElem?]
  · obtain ⟨p, hp, rfl⟩ := hentry h i e he
    rw [KvEntry.key_make]
    exact hc.hashed h p (List.mem_of_getElem? hp)
  · intro h i e h' i' e' he he' hkey
    obtain ⟨p, hp, rfl⟩ := hentry h i e he
    obtain ⟨p', hp', rfl⟩ := hentry h' i' e' he'
    rw [KvEntry.key_make, KvEntry.key_make] at hkey
    have hh : h = h' := by
      rw [← hc.hashed h p (List.mem_of_getElem? hp), hkey,
        hc.hashed h' p' (List.mem_of_getElem? hp')]
    subst hh
    refine ⟨rfl, (List.getElem?_inj (l := (chains h).map Prod.fst) ?_ (hc.nodup h)).mp ?_⟩
    · rw [List.length_map]
      exact (List.getElem?_eq_some_iff.mp hp).1
    · rw [List.getElem?_map, List.getElem?_map, hp, hp']
      exact congrArg some hkey

/-- **A store refines a map**: it is well formed, and the map it represents is
the given one. -/
def KvStore.Refines (hash : CString → ℕ) (s : KvStore) (m : Finmap fun _ : CString => CString) :
    Prop :=
  s.WF hash ∧ ∀ key, s.toMap hash key = m.lookup key

theorem KvStore.Refines.represents (h : s.Refines hash m) : s.Represents m := by
  obtain ⟨⟨-, chains, hc⟩, hmap⟩ := h
  intro key value
  rw [← hmap key, hc.toMap_eq_some_iff]
  constructor
  · intro hmem
    obtain ⟨i, hi⟩ := List.getElem?_of_mem hmem
    refine ⟨hash key, i, KvEntry.make key value, ?_, by simp, by simp⟩
    rw [hc.holds, List.getElem?_map, hi]
    rfl
  · rintro ⟨h, i, e, he, rfl, rfl⟩
    have hhash := hc.chained.hashed h i e he
    rw [hc.holds h i, List.getElem?_map, Option.map_eq_some_iff] at he
    obtain ⟨p, hp, rfl⟩ := he
    rw [hhash, KvEntry.key_make, KvEntry.value_make]
    exact List.mem_of_getElem? hp

theorem KvStore.Refines.get (h : s.Refines hash m) {key : CString} (hlen : key.strlen ≤ maxKeyLen) :
    KvReply.ofGet (kvstoreGet hash s key) = (mapCall m (.get key)).1 := by
  unfold kvstoreGet
  rw [findEntry_map key hlen h.1.1, h.2 key]
  unfold mapCall
  dsimp only
  cases m.lookup key <;> rfl

theorem lookup_insert_eq_update (m : Finmap fun _ : CString => CString) (key value k : CString) :
    (m.insert key value).lookup k = Function.update (fun k => m.lookup k) key (some value) k := by
  by_cases hk : k = key
  · rw [hk, Finmap.lookup_insert, Function.update_self]
  · rw [Finmap.lookup_insert_of_ne _ hk, Function.update_of_ne hk]

theorem lookup_erase_eq_update (m : Finmap fun _ : CString => CString) (key k : CString) :
    (m.erase key).lookup k = Function.update (fun k => m.lookup k) key none k := by
  by_cases hk : k = key
  · rw [hk, Finmap.lookup_erase, Function.update_self]
  · rw [Finmap.lookup_erase_ne hk, Function.update_of_ne hk]

theorem KvStore.Refines.toMap_eq (h : s.Refines hash m) : s.toMap hash = fun key => m.lookup key :=
  funext h.2

/-- A store and a map that it refines check alike. -/
theorem KvStore.Refines.putCheck (h : s.Refines hash m) {key value : CString}
    (hlen : key.strlen ≤ maxKeyLen) :
    kvstorePutCheck s key value = if value.strlen > maxValLen then errValLen else 0 := by
  unfold kvstorePutCheck
  rw [if_neg (by omega), h.1.1]
  simp

theorem KvStore.Refines.delCheck (h : s.Refines hash m) {key : CString}
    (hlen : key.strlen ≤ maxKeyLen) :
    kvstoreDelCheck hash s key = if key ∈ m then 0 else errNoKey := by
  obtain ⟨⟨hdir, chains, hc⟩, hmap⟩ := h
  unfold kvstoreDelCheck
  rw [if_neg (by omega), hdir, kvstoreHaskey_eq hc hdir hlen, hmap key]
  by_cases hm : key ∈ m
  · rw [if_pos hm, Finmap.lookup_isSome.mpr hm]
    simp
  · rw [if_neg hm, Finmap.lookup_eq_none.mpr hm]
    simp

/-- **Every call keeps the refinement**, and is answered alike. -/
theorem kvstoreCall_simulates (h : s.Refines hash m) {c : KvCall}
    (hlen : c.key.strlen ≤ maxKeyLen) : (kvstoreCall hash s c).1 = (mapCall m c).1
      ∧ (kvstoreCall hash s c).2.Refines hash (mapCall m c).2 := by
  cases c with
  | get key =>
    refine ⟨h.get (show key.strlen ≤ maxKeyLen from hlen), ?_⟩
    have hkeep : (mapCall m (.get key)).2 = m := by
      unfold mapCall
      dsimp only
      split <;> rfl
    rw [hkeep]
    exact h
  | put key value =>
    have hcheck : kvstorePutCheck s key value = _ := h.putCheck hlen
    unfold kvstoreCall mapCall
    dsimp only
    split
    · rename_i hlong
      rw [if_pos hlong] at hcheck
      rw [kvstorePut_of_check_ne (by rw [hcheck]; decide), hcheck]
      exact ⟨rfl, h⟩
    · rename_i hshort
      rw [if_neg hshort] at hcheck
      obtain ⟨hret, hwf, hmap⟩ := kvstorePut_spec h.1 hcheck
      refine ⟨congrArg KvReply.code hret, hwf, fun k => ?_⟩
      rw [hmap, lookup_insert_eq_update, h.toMap_eq]
  | del key =>
    have hlen : key.strlen ≤ maxKeyLen := hlen
    have hcheck := h.delCheck hlen
    unfold kvstoreCall mapCall
    dsimp only
    split
    · rename_i hmem
      rw [if_pos hmem] at hcheck
      obtain ⟨hret, hwf, hmap⟩ := kvstoreDel_spec h.1 hcheck
      refine ⟨congrArg KvReply.code hret, hwf, fun k => ?_⟩
      rw [hmap, lookup_erase_eq_update, h.toMap_eq]
    · rename_i hmem
      have hnone : s.toMap hash key = none := (h.2 key).trans (Finmap.lookup_eq_none.mpr hmem)
      unfold kvstoreDel
      rw [findEntry_of_none h.1.1 hlen hnone]
      exact ⟨rfl, h⟩

theorem refines_kvstoreInit (h : s.files = ∅) : (kvstoreInit s).Refines hash ∅ := by
  obtain ⟨hwf, hmap⟩ : (kvstoreInit s).WF hash ∧ _ := kvstoreInit_of_files_empty h
  refine ⟨hwf, fun key => ?_⟩
  rw [hmap, Finmap.lookup_empty]

/-- **The store refines a finite map with complete hash chains**: for every
hash function and every list of calls within the limits, a new store gives the
replies of the empty map, and the calls leave complete chains whose entries
are the pairs of the map; `kvstore_haskey` says what the map has. -/
theorem kvstore_refines_map (hash : CString → ℕ) (hfiles : s.files = ∅) (calls : List KvCall)
    (hcalls : ∀ c ∈ calls, c.Within) :
    let served := serve (kvstoreCall hash) (kvstoreInit s) calls
    let mapped := serve mapCall ∅ calls
    served.1 = mapped.1 ∧ served.2.Chained hash ∧ served.2.Represents mapped.2
      ∧ ∀ key : CString, key.strlen ≤ maxKeyLen →
        (kvstoreHaskey hash served.2 key = true ↔ key ∈ mapped.2) := by
  have hkey : ∀ c ∈ calls, c.key.strlen ≤ maxKeyLen := by
    intro c hc
    have := hcalls c hc
    cases c with
    | get key => exact this
    | put key value => exact this.1
    | del key => exact this
  have hcall : ∀ s m, ∀ c ∈ calls, KvStore.Refines hash s m →
      (kvstoreCall hash s c).1 = (mapCall m c).1
        ∧ (kvstoreCall hash s c).2.Refines hash (mapCall m c).2 :=
    fun s m c hc h => kvstoreCall_simulates h (hkey c hc)
  obtain ⟨hreplies, hrefines⟩ := serve_simulates hcall (refines_kvstoreInit hfiles)
  obtain ⟨hdir, chains, hc⟩ := hrefines.1
  refine ⟨hreplies, hc.chained, hrefines.represents, fun key hlen => ?_⟩
  rw [kvstoreHaskey_eq hc hdir hlen, hrefines.2 key, Finmap.lookup_isSome]

/-- The two keys collide; the second moves into the hole that the first
leaves. -/
def collidingCalls : List KvCall :=
  [.put letterA letterA, .put letterB letterB, .del letterA, .del letterA, .get letterB]

theorem kvstore_refines_map_colliding :
    (serve (kvstoreCall fun _ => 0) (kvstoreInit ⟨false, ∅⟩) collidingCalls).1
        = (serve mapCall ∅ collidingCalls).1
      ∧ (serve mapCall ∅ collidingCalls).1
        = [.code 0, .code 0, .code 0, .code errNoKey, .value letterB]
      ∧ (serve (kvstoreCall fun _ => 0) (kvstoreInit ⟨false, ∅⟩) collidingCalls).2.Chained
        fun _ => 0 := by
  have hrefines := kvstore_refines_map (s := ⟨false, ∅⟩) (fun _ => 0) rfl collidingCalls
    (by decide)
  exact ⟨hrefines.1, by decide +kernel, hrefines.2.1⟩

end

/-! ## The server -/

variable {server : KvServer} {m : Finmap fun _ : CString => CString}

/-- **A server refines a map**: its store does, and its cache is coherent. -/
def KvServer.Refines (server : KvServer) (m : Finmap fun _ : CString => CString) : Prop :=
  server.store.Refines hash m ∧ server.cache.Coherent (server.store.toMap hash)

theorem KvServer.Refines.cacheInv (h : server.Refines m) : server.CacheInv := ⟨h.1.1, h.2⟩

/-- `kvcache_put` succeeds within the limits. -/
theorem kvcachePut_code {c : KvCache} {key value : CString} (hkey : key.strlen ≤ maxKeyLen)
    (hvalue : value.strlen ≤ maxValLen) : (kvcachePut c key value).1 = 0 := by
  unfold kvcachePut
  rw [if_neg (by omega), if_neg (by omega)]
  unfold kvcachesetPut
  dsimp only
  split
  · rfl
  · split <;> rfl

theorem kvserverPut_code (h : server.CacheInv) (key value : CString) :
    (kvserverPut server key value).1 = kvstorePutCheck server.store key value := by
  unfold kvserverPut kvserverPutCheck
  by_cases hcheck : kvstorePutCheck server.store key value = 0
  · obtain ⟨hret, -, -⟩ := kvstorePut_spec h.wf hcheck
    obtain ⟨hkey, hvalue⟩ := (kvstorePutCheck_eq_zero_iff h.wf.1).mp hcheck
    simp only [hcheck, lt_self_iff_false, if_false, hret]
    exact kvcachePut_code hkey hvalue
  · rw [if_pos (kvstorePutCheck_neg_iff.mpr hcheck)]

/-- A key that is not cached is not there to delete. -/
theorem kvcacheDel_code {c : KvCache} {key : CString} (hkey : key.strlen ≤ maxKeyLen)
    (hnone : c.cached key = none) : (kvcacheDel c key).1 = errNoKey := by
  have hlookup : (getCacheSet c key).index.lookup key = none := Option.map_eq_none_iff.mp hnone
  unfold kvcacheDel
  rw [if_neg (by omega)]
  unfold kvcachesetDel
  dsimp only
  rw [hlookup]

/-- **`kvserver_del` returns what its check does**: a key that is not in the
store is not in a coherent cache either, so the cache's return code is the
store's. -/
theorem kvserverDel_code (h : server.Refines m) {key : CString} (hkey : key.strlen ≤ maxKeyLen) :
    (kvserverDel server key).2 = some (kvstoreDelCheck hash server.store key) := by
  unfold kvserverDel kvserverDelCheck
  rw [if_neg (by simp [kvcacheGetlock, hkey])]
  dsimp only
  by_cases hcheck : kvstoreDelCheck hash server.store key = 0
  · obtain ⟨hret, -, -⟩ := kvstoreDel_spec h.1.1 hcheck
    rw [if_pos hcheck, hcheck]
    exact congrArg some hret
  · rw [if_neg hcheck]
    have hcode := h.1.delCheck hkey
    have habsent : key ∉ m := by
      intro hmem
      rw [if_pos hmem] at hcode
      exact hcheck hcode
    rw [if_neg habsent] at hcode
    rw [hcode]
    refine congrArg some (kvcacheDel_code hkey ?_)
    by_contra hcached
    obtain ⟨value, hvalue⟩ := Option.ne_none_iff_exists'.mp hcached
    have hmap := h.2 key value hvalue
    rw [h.1.2 key, Finmap.lookup_eq_none.mpr habsent] at hmap
    cases hmap

/-- **Every call keeps the refinement**, and is answered alike. -/
theorem kvserverCall_simulates (h : server.Refines m) {c : KvCall}
    (hlen : c.key.strlen ≤ maxKeyLen) : (kvserverCall server c).1 = (mapCall m c).1
      ∧ (kvserverCall server c).2.Refines (mapCall m c).2 := by
  have hstore := kvstoreCall_simulates h.1 hlen
  cases c with
  | get key =>
    have hkey : ¬ key.strlen > maxKeyLen := not_lt.mpr hlen
    obtain ⟨cache, hget, hcoherent⟩ := kvserverGet_spec h.cacheInv key
    unfold kvserverCall mapCall
    dsimp only
    rw [hget, if_neg hkey, h.1.2 key]
    cases m.lookup key <;> exact ⟨rfl, h.1, hcoherent⟩
  | put key value =>
    obtain ⟨cache, hput, hcoherent⟩ := kvserverPut_spec h.cacheInv key value
    have hcode := (kvserverPut_code h.cacheInv key value).trans (h.1.putCheck hlen)
    refine ⟨?_, ?_⟩
    · show KvReply.code (kvserverPut server key value).1 = _
      rw [hcode]
      unfold mapCall
      dsimp only
      split <;> rfl
    · show (kvserverPut server key value).2.Refines _
      rw [hput]
      exact ⟨hstore.2, hcoherent⟩
  | del key =>
    have hkey : key.strlen ≤ maxKeyLen := hlen
    obtain ⟨cache, err, hdel, hcoherent⟩ := kvserverDel_spec h.cacheInv
      (show (Request.del key).takesNullLock = false from decide_eq_false (not_lt.mpr hkey))
    have hcode := kvserverDel_code h hkey
    have hcheck := h.1.delCheck hkey
    rw [hdel, hcheck] at hcode
    obtain rfl := Option.some.inj hcode
    unfold kvserverCall mapCall
    dsimp only
    rw [hdel]
    dsimp only
    split
    · rename_i hmem
      rw [if_pos hmem] at hcheck
      refine ⟨rfl, ?_, hcoherent⟩
      have hrefines : (kvstoreDel hash server.store key).2.Refines hash (mapCall m (.del key)).2 :=
        hstore.2
      rw [Request.run_del_of_check hcheck]
      simpa [mapCall, hmem] using hrefines
    · rename_i hmem
      rw [if_neg hmem] at hcheck
      refine ⟨rfl, ?_, hcoherent⟩
      rw [Request.run_of_check_ne (r := .del key) (by rw [Request.check, hcheck]; decide)]
      exact h.1

/-- A new server on an empty directory refines the empty map, for every
geometry of its cache. -/
theorem refines_kvserverInit {store : KvStore} {log : TpcLog} {numSets elemPerSet : ℕ}
    {useTpc : Bool} (hfiles : store.files = ∅)
    (hinit : kvserverInit store log numSets elemPerSet useTpc = .ok server) : server.Refines ∅ := by
  unfold kvserverInit at hinit
  split at hinit
  · cases hinit
  · rename_i cache hcache
    cases hinit
    exact ⟨refines_kvstoreInit hfiles, KvCache.coherent_kvcacheInit hcache _⟩

/-- **A cached server cannot be told from a map**: for every geometry of the
cache that the server accepts and every list of calls with keys within the
limit, a new server gives the replies of the empty map, and afterwards
`kvserver_del` succeeds exactly for the keys of the store. -/
theorem kvserver_refines_map {store : KvStore} {log : TpcLog} {numSets elemPerSet : ℕ}
    {useTpc : Bool} (hfiles : store.files = ∅)
    (hinit : kvserverInit store log numSets elemPerSet useTpc = .ok server)
    (calls : List KvCall) (hcalls : ∀ c ∈ calls, c.key.strlen ≤ maxKeyLen) :
    let served := serve kvserverCall server calls
    let mapped := serve mapCall ∅ calls
    served.1 = mapped.1 ∧ served.2.store.Represents mapped.2
      ∧ ∀ key : CString, key.strlen ≤ maxKeyLen →
        ((kvserverDel served.2 key).2 = some 0
          ↔ (served.2.store.toMap hash key).isSome = true) := by
  have hcall : ∀ server m, ∀ c ∈ calls, KvServer.Refines server m →
      (kvserverCall server c).1 = (mapCall m c).1
        ∧ (kvserverCall server c).2.Refines (mapCall m c).2 :=
    fun server m c hc h => kvserverCall_simulates h (hcalls c hc)
  obtain ⟨hreplies, hrefines⟩ := serve_simulates hcall (refines_kvserverInit hfiles hinit)
  refine ⟨hreplies, hrefines.1.represents, fun key hkey => ?_⟩
  rw [kvserverDel_code hrefines hkey, Option.some_inj,
    kvstoreDelCheck_eq_zero_iff hrefines.1.1]
  exact and_iff_right hkey

/-- A cache of one set with two entries, and three keys. -/
def evictingCalls : List KvCall :=
  [.put letterA letterA, .put letterB letterB, .put ⟨[], by decide⟩ letterA, .get letterA,
    .get letterB, .del letterB, .get letterB, .del letterB]

theorem kvserver_refines_map_evicting :
    (serve kvserverCall newServer evictingCalls).1 = (serve mapCall ∅ evictingCalls).1
      ∧ (serve mapCall ∅ evictingCalls).1
        = [.code 0, .code 0, .code 0, .value letterA, .value letterB, .code 0,
            .code errNoKey, .code errNoKey] := by
  have hrefines := kvserver_refines_map (show (⟨false, ∅⟩ : KvStore).files = ∅ from rfl)
    newServer_init evictingCalls (by decide)
  exact ⟨hrefines.1, by decide +kernel⟩

end Kv
