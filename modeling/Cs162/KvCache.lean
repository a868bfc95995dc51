import Cs162.KvStore

/-!
# The set-associative cache

A cache is an array of sets, and the hash of a key selects the set it may
be in. A set keeps its entries in a queue, for the second-chance
replacement, and in a hash index, for the lookups. The index is a map from
keys to entries and the queue is the order of their keys, so an entry that
is written through one is written in both, as the shared structures of the
code are.

What the server needs of a cache is little: a lookup answers what is cached
and changes no cached value, and after a put or a deletion everything cached
under another key was cached before. Which entry an eviction picks does not
matter to it. `KvCache.Coherent` says that the cached values are values of a
given map, and the three operations keep it along the map's own lookup,
update and erasure.
-/

namespace Kv

/-- **An entry of a cache set** (`struct kvcacheentry`), under its key. -/
structure KvCacheEntry where
  /-- The cached value. -/
  value : CString
  /-- Whether the entry was used since it was queued or last spared. -/
  refbit : Bool
  deriving DecidableEq

/-- **A cache set** (`kvcacheset_t`). -/
structure KvCacheSet where
  /-- The most entries the set may hold. -/
  elemPerSet : ℕ
  /-- The number of entries the set counts. -/
  numEntries : ℕ
  /-- The keys of the entries in queue order (`list_ptr`). -/
  queue : List CString
  /-- The entries by key (`hash_ptr`). -/
  index : Finmap (fun _ : CString => KvCacheEntry)

/-- `kvcacheset_init`, which asks for at least two elements. -/
def kvcachesetInit (elemPerSet : ℕ) : Except Int KvCacheSet :=
  if elemPerSet < 2 then .error (-1) else .ok ⟨elemPerSet, 0, [], ∅⟩

/-- `kvcacheset_get`: the cached value, and the set with its entry marked as
used. -/
def kvcachesetGet (cs : KvCacheSet) (key : CString) :
    Except Int CString × KvCacheSet :=
  match cs.index.lookup key with
  | none => (.error errNoKey, cs)
  | some e => (.ok e.value, { cs with index := cs.index.insert key { e with refbit := true } })

/-- The eviction loop of `kvcacheset_put`, a `DL_FOREACH_SAFE` over the
queue. Each round takes the entry at the front out of the queue; an entry
that was used loses its mark and goes to the back, and the first that was
not is dropped. The element of the next round is the one behind the front,
read before the front moves, so a queue of one element ends the loop. -/
def evictLoop : ℕ → List CString → Finmap (fun _ : CString => KvCacheEntry) →
    List CString × Finmap (fun _ : CString => KvCacheEntry)
  | 0, queue, index => (queue, index)
  | _ + 1, [], index => ([], index)
  | fuel + 1, elt :: rest, index =>
    match index.lookup elt with
    | none => (rest, index)
    | some e =>
      if e.refbit = false then (rest, index.erase elt)
      else
        let index := index.insert elt { e with refbit := false }
        if rest = [] then ([elt], index) else evictLoop fuel (rest ++ [elt]) index

/-- **`kvcacheset_put`**: overwrite the entry of the key, or queue a new one,
evicting where the set is full. -/
def kvcachesetPut (cs : KvCacheSet) (key value : CString) : Int × KvCacheSet :=
  match cs.index.lookup key with
  | some _ => (0, { cs with index := cs.index.insert key ⟨value, true⟩ })
  | none =>
    if cs.numEntries < cs.elemPerSet then
      (0, { cs with
            numEntries := cs.numEntries + 1
            queue := cs.queue ++ [key]
            index := cs.index.insert key ⟨value, false⟩ })
    else
      let evicted := evictLoop (cs.queue.length + 1) cs.queue cs.index
      (0, { cs with
            queue := evicted.1 ++ [key]
            index := evicted.2.insert key ⟨value, false⟩ })

/-- `kvcacheset_del`. -/
def kvcachesetDel (cs : KvCacheSet) (key : CString) : Int × KvCacheSet :=
  match cs.index.lookup key with
  | none => (errNoKey, cs)
  | some _ =>
    (0, { cs with
          numEntries := cs.numEntries - 1
          queue := cs.queue.erase key
          index := cs.index.erase key })

/-- **A cache** (`kvcache_t`). -/
structure KvCache where
  /-- The number of sets. -/
  numSets : ℕ
  /-- The sets, by number. -/
  sets : ℕ → KvCacheSet

/-- `kvcache_init`. -/
def kvcacheInit (numSets elemPerSet : ℕ) : Except Int KvCache :=
  if numSets = 0 ∨ elemPerSet = 0 then .error (-1)
  else
    match kvcachesetInit elemPerSet with
    | .error _ => .error (-1)
    | .ok cs => .ok ⟨numSets, fun _ => cs⟩

/-- The number of the set `get_cache_set` selects: the hash as a 32-bit
integer, modulo the number of sets. -/
def KvCache.setOf (c : KvCache) (key : CString) : ℕ := hash key % 2 ^ 32 % c.numSets

/-- `get_cache_set`. -/
def getCacheSet (c : KvCache) (key : CString) : KvCacheSet := c.sets (c.setOf key)

/-- The cache with the set of a key replaced. -/
def KvCache.withSet (c : KvCache) (key : CString) (cs : KvCacheSet) : KvCache :=
  { c with sets := Function.update c.sets (c.setOf key) cs }

/-- `kvcache_get`. -/
def kvcacheGet (c : KvCache) (key : CString) : Except Int CString × KvCache :=
  if key.strlen > maxKeyLen then (.error errKeyLen, c)
  else
    let r := kvcachesetGet (getCacheSet c key) key
    (r.1, c.withSet key r.2)

/-- `kvcache_put`. -/
def kvcachePut (c : KvCache) (key value : CString) : Int × KvCache :=
  if key.strlen > maxKeyLen then (errKeyLen, c)
  else if value.strlen > maxValLen then (errValLen, c)
  else
    let r := kvcachesetPut (getCacheSet c key) key value
    (r.1, c.withSet key r.2)

/-- `kvcache_del`. -/
def kvcacheDel (c : KvCache) (key : CString) : Int × KvCache :=
  if key.strlen > maxKeyLen then (errKeyLen, c)
  else
    let r := kvcachesetDel (getCacheSet c key) key
    (r.1, c.withSet key r.2)

/-- Whether `kvcache_getlock` returns a lock: it returns null for a key that
is too long. -/
def kvcacheGetlock (key : CString) : Bool := decide (key.strlen ≤ maxKeyLen)

/-! ## What is cached -/

/-- The value cached under a key in a set. -/
def KvCacheSet.cached (cs : KvCacheSet) (key : CString) : Option CString :=
  (cs.index.lookup key).map KvCacheEntry.value

/-- The value a lookup finds under a key. -/
def KvCache.cached (c : KvCache) (key : CString) : Option CString :=
  (getCacheSet c key).cached key

theorem map_value_insert_refbit {index : Finmap (fun _ : CString => KvCacheEntry)}
    {key : CString} {e : KvCacheEntry} (he : index.lookup key = some e) (b : Bool) (k : CString) :
    ((index.insert key { e with refbit := b }).lookup k).map KvCacheEntry.value
      = (index.lookup k).map KvCacheEntry.value := by
  by_cases hk : k = key
  · rw [hk, Finmap.lookup_insert, he]
    rfl
  · rw [Finmap.lookup_insert_of_ne _ hk]

/-- **An eviction adds nothing**: a value the index has after it was there
before. -/
theorem evictLoop_cached (fuel : ℕ) (queue : List CString)
    (index : Finmap (fun _ : CString => KvCacheEntry)) (k v : CString) :
    ((evictLoop fuel queue index).2.lookup k).map KvCacheEntry.value = some v →
      (index.lookup k).map KvCacheEntry.value = some v := by
  fun_induction evictLoop fuel queue index with
  | case1 queue index => exact id
  | case2 n index => exact id
  | case3 fuel elt rest index hnone => exact id
  | case4 fuel elt rest index e he href =>
    intro h
    by_cases hk : k = elt
    · rw [hk, Finmap.lookup_erase] at h
      exact absurd h (by simp)
    · rwa [Finmap.lookup_erase_ne hk] at h
  | case5 fuel elt index e he href index' =>
    intro h
    rwa [map_value_insert_refbit he] at h
  | case6 fuel elt rest index e he href index' hrest ih =>
    intro h
    have := ih h
    rwa [map_value_insert_refbit he] at this

theorem kvcachesetGet_fst (cs : KvCacheSet) (key : CString) : (kvcachesetGet cs key).1
      = match cs.cached key with
        | some value => .ok value
        | none => .error errNoKey := by
  unfold kvcachesetGet KvCacheSet.cached
  cases cs.index.lookup key <;> rfl

theorem kvcachesetGet_cached (cs : KvCacheSet) (key : CString) :
    (kvcachesetGet cs key).2.cached = cs.cached := by
  funext k
  unfold kvcachesetGet KvCacheSet.cached
  cases he : cs.index.lookup key with
  | none => rfl
  | some e => exact map_value_insert_refbit he true k

/-- Inserting an entry whose key is not to be found any more, or is
overwritten: what is cached under another key was cached before. -/
theorem cached_of_insert {index : Finmap (fun _ : CString => KvCacheEntry)}
    {key k v : CString} {e : KvCacheEntry}
    (h : ((index.insert key e).lookup k).map KvCacheEntry.value = some v) : k = key ∧ v = e.value
      ∨ k ≠ key ∧ (index.lookup k).map KvCacheEntry.value = some v := by
  by_cases hk : k = key
  · rw [hk, Finmap.lookup_insert] at h
    exact Or.inl ⟨hk, (Option.some.inj h).symm⟩
  · rw [Finmap.lookup_insert_of_ne _ hk] at h
    exact Or.inr ⟨hk, h⟩

/-- **A put caches its own value and nothing else that is new.** -/
theorem kvcachesetPut_cached (cs : KvCacheSet) (key value : CString) {k v : CString}
    (h : (kvcachesetPut cs key value).2.cached k = some v) :
    k = key ∧ v = value ∨ k ≠ key ∧ cs.cached k = some v := by
  unfold kvcachesetPut at h
  cases he : cs.index.lookup key with
  | some e =>
    rw [he] at h
    exact cached_of_insert h
  | none =>
    rw [he] at h
    dsimp only at h
    split at h
    · exact cached_of_insert h
    · rcases cached_of_insert h with h | ⟨hk, h⟩
      · exact Or.inl h
      · exact Or.inr ⟨hk, evictLoop_cached _ _ _ k v h⟩

theorem kvcachesetDel_cached (cs : KvCacheSet) (key k : CString) :
    (kvcachesetDel cs key).2.cached k = if k = key then none else cs.cached k := by
  unfold kvcachesetDel KvCacheSet.cached
  cases he : cs.index.lookup key with
  | none =>
    by_cases hk : k = key
    · rw [if_pos hk, hk, he]
      rfl
    · rw [if_neg hk]
  | some e =>
    dsimp only
    by_cases hk : k = key
    · rw [if_pos hk, hk, Finmap.lookup_erase]
      rfl
    · rw [if_neg hk, Finmap.lookup_erase_ne hk]

/-! ## Coherence -/

/-- **The cache is coherent with a map**: what it has cached is what the map
has. -/
def KvCache.Coherent (c : KvCache) (m : CString → Option CString) : Prop :=
  ∀ key value, c.cached key = some value → m key = some value

namespace KvCache

/-- Replacing the set of one key shows in the lookups of that set only. -/
theorem cached_withSet (c : KvCache) (key : CString) (cs : KvCacheSet) (k : CString) :
    (c.withSet key cs).cached k
      = if c.setOf k = c.setOf key then cs.cached k else c.cached k := by
  show (Function.update c.sets (c.setOf key) cs (c.setOf k)).cached k = _
  by_cases h : c.setOf k = c.setOf key
  · rw [h, Function.update_self, if_pos rfl]
  · rw [Function.update_of_ne h, if_neg h]
    rfl

/-- A new cache has nothing in it, and is coherent with every map. -/
theorem coherent_kvcacheInit {c : KvCache} {numSets elemPerSet : ℕ}
    (hinit : kvcacheInit numSets elemPerSet = .ok c) (m : CString → Option CString) :
    c.Coherent m := by
  unfold kvcacheInit kvcachesetInit at hinit
  intro key value hc
  split at hinit
  · cases hinit
  · split at hinit
    · cases hinit
    · rename_i cs hset
      split at hset
      · cases hset
      · cases hset
        cases hinit
        cases hc

variable {c : KvCache} {m : CString → Option CString}

/-- Nothing that a lookup of the cache finds has changed after a
`kvcache_get`. -/
theorem cached_kvcacheGet (c : KvCache) (key : CString) :
    (kvcacheGet c key).2.cached = c.cached := by
  funext k
  unfold kvcacheGet
  split
  · rfl
  · dsimp only
    rw [cached_withSet, kvcachesetGet_cached]
    split
    · rename_i hset
      show (c.sets (c.setOf key)).cached k = (c.sets (c.setOf k)).cached k
      rw [hset]
    · rfl

theorem Coherent.get (h : c.Coherent m) (key : CString) : (kvcacheGet c key).2.Coherent m := by
  unfold Coherent
  rw [cached_kvcacheGet]
  exact h

theorem Coherent.get_ok (h : c.Coherent m) {key value : CString}
    (hget : (kvcacheGet c key).1 = .ok value) : m key = some value := by
  refine h key value ?_
  unfold kvcacheGet at hget
  split at hget
  · exact absurd hget (by simp)
  · dsimp only at hget
    rw [kvcachesetGet_fst] at hget
    show (getCacheSet c key).cached key = some value
    cases hc : (getCacheSet c key).cached key with
    | none =>
      rw [hc] at hget
      exact absurd hget (by simp)
    | some v =>
      rw [hc] at hget
      exact congrArg some (Except.ok.inj hget)

/-- **A `kvcache_put` caches its own pair and nothing else that is new**;
within the limits it leaves nothing else under its key. -/
theorem cached_kvcachePut {key value k v : CString}
    (hc : (kvcachePut c key value).2.cached k = some v) : k = key ∧ v = value
      ∨ c.cached k = some v
        ∧ (key.strlen ≤ maxKeyLen → value.strlen ≤ maxValLen → k ≠ key) := by
  unfold kvcachePut at hc
  split at hc
  · exact .inr ⟨hc, fun hkey => by omega⟩
  · split at hc
    · exact .inr ⟨hc, fun _ hvalue => by omega⟩
    · dsimp only at hc
      rw [cached_withSet] at hc
      split at hc
      · rename_i hset
        refine (kvcachesetPut_cached _ _ _ hc).imp id ?_
        rintro ⟨hk, hc⟩
        refine ⟨?_, fun _ _ => hk⟩
        show (c.sets (c.setOf k)).cached k = some v
        rw [hset]
        exact hc
      · rename_i hset
        exact .inr ⟨hc, fun _ _ he => hset (congrArg c.setOf he)⟩

/-- **A `kvcache_del` caches nothing**, and uncaches its key. -/
theorem cached_kvcacheDel {key k v : CString} (hc : (kvcacheDel c key).2.cached k = some v) :
    c.cached k = some v ∧ (key.strlen ≤ maxKeyLen → k ≠ key) := by
  unfold kvcacheDel at hc
  split at hc
  · exact ⟨hc, fun hkey => by omega⟩
  · dsimp only at hc
    rw [cached_withSet] at hc
    split at hc
    · rename_i hset
      rw [kvcachesetDel_cached] at hc
      split at hc
      · exact absurd hc (by simp)
      · rename_i hk
        refine ⟨?_, fun _ => hk⟩
        show (c.sets (c.setOf k)).cached k = some v
        rw [hset]
        exact hc
    · rename_i hset
      exact ⟨hc, fun _ he => hset (congrArg c.setOf he)⟩

/-- **A `kvcache_put` follows an update of the map**, where it is for the
same key and value. -/
theorem Coherent.put (h : c.Coherent m) {key value : CString}
    (hkey : key.strlen ≤ maxKeyLen) (hvalue : value.strlen ≤ maxValLen) :
    (kvcachePut c key value).2.Coherent (Function.update m key (some value)) := by
  intro k v hc
  rcases cached_kvcachePut hc with ⟨rfl, rfl⟩ | ⟨hc, hk⟩
  · exact Function.update_self _ _ _
  · rw [Function.update_of_ne (hk hkey hvalue)]
    exact h k v hc

/-- **A `kvcache_del` follows an erasure of the map.** -/
theorem Coherent.del (h : c.Coherent m) {key : CString} (hkey : key.strlen ≤ maxKeyLen) :
    (kvcacheDel c key).2.Coherent (Function.update m key none) := by
  intro k v hc
  obtain ⟨hc, hk⟩ := cached_kvcacheDel hc
  rw [Function.update_of_ne (hk hkey)]
  exact h k v hc

/-- A `kvcache_del` of any key keeps the cache coherent with the same map. -/
theorem Coherent.del_self (h : c.Coherent m) (key : CString) : (kvcacheDel c key).2.Coherent m :=
  fun k v hc => h k v (cached_kvcacheDel hc).1

end KvCache

end Kv
