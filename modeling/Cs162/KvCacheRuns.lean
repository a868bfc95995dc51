import Cs162.KvCacheEntries

/-!
# Runs of the cache

The cache in memory refines `KvCache`: its sets represent the sets of a `KvCache` that is in
order, and every call does the same to both. Sets do not share entries, because the hash of
the key of an entry selects its set, so a call on one set is not seen by another.

Over a run, `latest` remembers for every key what was put last and not deleted since, and
the cache is coherent with it.
-/

namespace Kv

namespace EntryCache

variable {c c' : EntryCache} {k : KvCache}

/-- **A cache in memory refines a `KvCache`** that is in order. -/
structure Refines (c : EntryCache) (k : KvCache) : Prop where
  numSets : c.numSets = k.numSets
  sets : ∀ i, c.Represents i (k.sets i)
  ok : k.Ok

namespace Refines

theorem setOf (h : c.Refines k) (key : CString) : c.setOf key = k.setOf key := by
  unfold EntryCache.setOf KvCache.setOf
  rw [h.numSets]

/-- An entry of a set is in memory, and its key selects the set. -/
theorem exists_entry (h : c.Refines k) {i a : ℕ} (ha : a ∈ (c.sets i).list) :
    ∃ e, c.entries a = some e ∧ c.setOf e.key = i := by
  obtain ⟨e, he, hqueue, -⟩ := (h.sets i).holds.exists_entry ha
  exact ⟨e, he, (h.setOf e.key).trans (h.ok.setOf i e.key hqueue)⟩

/-- The set of a key changes, and its entries, and nothing else that is in use. -/
theorem withSet (h : c.Refines k) {key : CString} {cs : KvCacheSet} {addresses : Set ℕ}
    (hset : c'.Represents (k.setOf key) cs) (hkeep : c.Keeps (k.setOf key) addresses c')
    (haddresses : ∀ a ∈ addresses, a ∈ (c.sets (k.setOf key)).list ∨ c.entries a = none)
    (hok : (k.withSet key cs).Ok) : c'.Refines (k.withSet key cs) := by
  refine ⟨hkeep.numSets.trans h.numSets, fun j => ?_, hok⟩
  show c'.Represents j (Function.update k.sets (k.setOf key) cs j)
  by_cases hj : j = k.setOf key
  · rw [hj, Function.update_self]
    exact hset
  · rw [Function.update_of_ne hj]
    have hold := h.sets j
    have hsame : c'.sets j = c.sets j := hkeep.sets j hj
    -- An entry of another set is not among those that may have changed.
    have hentries : ∀ a ∈ (c.sets j).list, c'.entries a = c.entries a := by
      intro a ha
      refine hkeep.entries a fun hmem => ?_
      obtain ⟨e, he, hselects⟩ := h.exists_entry ha
      obtain hlist | hnone := haddresses a hmem
      · obtain ⟨f, hf, hselects'⟩ := h.exists_entry hlist
        rw [he, Option.some.injEq] at hf
        exact hj (hselects.symm.trans (hf ▸ hselects'))
      · rw [he] at hnone
        cases hnone
    refine ⟨?_, ?_, ?_⟩
    · rw [hsame]
      exact hold.elemPerSet
    · rw [hsame]
      exact hold.numEntries
    · rw [hsame]
      exact hold.holds.congr hentries

theorem of_init {numSets elemPerSet : ℕ} (h : kvcacheInit numSets elemPerSet = .ok c) :
    ∃ k, Kv.kvcacheInit numSets elemPerSet = .ok k ∧ c.Refines k := by
  unfold kvcacheInit kvcachesetInit at h
  split at h
  case isTrue => cases h
  case isFalse hpos =>
    by_cases htwo : elemPerSet < 2
    · rw [if_pos htwo] at h
      cases h
    · rw [if_neg htwo] at h
      cases h
      have hinit : Kv.kvcacheInit numSets elemPerSet =
          .ok ⟨numSets, fun _ => ⟨elemPerSet, 0, [], ∅⟩⟩ := by
        unfold Kv.kvcacheInit Kv.kvcachesetInit
        rw [if_neg hpos, if_neg htwo]
      refine ⟨_, hinit, rfl, fun i => ⟨rfl, rfl, .refl _, rfl, fun key e => ?_⟩,
        KvCache.Ok.of_init hinit⟩
      rw [Finmap.lookup_empty]
      exact iff_of_false nofun (by simp)

theorem get (h : c.Refines k) (key : CString) : c.Does (kvcacheGet key) fun r c' =>
      r = (Kv.kvcacheGet k key).1 ∧ c'.Refines (Kv.kvcacheGet k key).2 := by
  have hok := h.ok.get key
  unfold Kv.kvcacheGet at hok ⊢
  refine Command.Ensures.get_bind (Command.Ensures.ite ?_ ?_)
  · intro hlong
    rw [if_pos hlong]
    exact Command.Ensures.pure ⟨rfl, h⟩
  · intro hshort
    rw [if_neg hshort] at hok ⊢
    rw [h.setOf key]
    refine (kvcachesetGet_spec (h.sets _) (h.ok.sets _).tidy key).mono ?_
    rintro r c' ⟨hr, hset, hkeep⟩
    exact ⟨hr, h.withSet hset hkeep (fun _ => Or.inl) hok⟩

theorem put (h : c.Refines k) (key value : CString) {memory : ℕ}
    (hfresh : c.entries memory = none) : c.Does (kvcachePut key value memory) fun r c' =>
      r = (Kv.kvcachePut k key value).1 ∧ c'.Refines (Kv.kvcachePut k key value).2 := by
  have hok := h.ok.put key value
  unfold Kv.kvcachePut at hok ⊢
  refine Command.Ensures.get_bind (Command.Ensures.ite ?_ ?_)
  · intro hlong
    rw [if_pos hlong]
    exact Command.Ensures.pure ⟨rfl, h⟩
  · intro hshort
    rw [if_neg hshort] at hok ⊢
    refine Command.Ensures.ite ?_ ?_
    · intro hlong
      rw [if_pos hlong]
      exact Command.Ensures.pure ⟨rfl, h⟩
    · intro hshort
      rw [if_neg hshort] at hok ⊢
      rw [h.setOf key]
      refine (kvcachesetPut_spec (h.sets _) (h.ok.sets _).tidy key value hfresh).mono ?_
      rintro r c' ⟨hr, hset, hkeep⟩
      refine ⟨hr, h.withSet hset hkeep ?_ hok⟩
      rintro a (hlist | rfl)
      · exact .inl hlist
      · exact .inr hfresh

theorem del (h : c.Refines k) (key : CString) : c.Does (kvcacheDel key) fun r c' =>
      r = (Kv.kvcacheDel k key).1 ∧ c'.Refines (Kv.kvcacheDel k key).2 := by
  have hok := h.ok.del key
  unfold Kv.kvcacheDel at hok ⊢
  refine Command.Ensures.get_bind (Command.Ensures.ite ?_ ?_)
  · intro hlong
    rw [if_pos hlong]
    exact Command.Ensures.pure ⟨rfl, h⟩
  · intro hshort
    rw [if_neg hshort] at hok ⊢
    rw [h.setOf key]
    refine (kvcachesetDel_spec (h.sets _) (h.ok.sets _).tidy key).mono ?_
    rintro r c' ⟨hr, hset, hkeep⟩
    exact ⟨hr, h.withSet hset hkeep (fun _ => Or.inl) hok⟩

end Refines

end EntryCache

/-! ## Runs -/

/-- **A call**, with the memory for a new entry and what it returned. -/
inductive CacheEvent
  | get (key : CString) (result : Except Int CString)
  | put (key value : CString) (memory : ℕ) (result : Int)
  | del (key : CString) (result : Int)

/-- **A step**: a call that ends. The memory for an entry is not in use. -/
def CacheStep (c : EntryCache) : CacheEvent → EntryCache → Prop
  | .get key r, c' => EntryCache.kvcacheGet key c = .ok (r, c')
  | .put key value memory r, c' =>
    c.entries memory = none ∧ EntryCache.kvcachePut key value memory c = .ok (r, c')
  | .del key r, c' => EntryCache.kvcacheDel key c = .ok (r, c')

/-- What a call changes in the values put last. -/
def CacheEvent.remember (m : CString → Option CString) : CacheEvent → CString → Option CString
  | .get _ _ => m
  | .put key value _ r => if r = 0 then Function.update m key (some value) else m
  | .del key _ => Function.update m key none

/-- **The value of the most recent successful put** of a key, where no deletion of the key
came after it. -/
def latest (events : List CacheEvent) : CString → Option CString :=
  events.foldl CacheEvent.remember fun _ => none

theorem latest_append (events : List CacheEvent) (e : CacheEvent) :
    latest (events ++ [e]) = e.remember (latest events) := by
  unfold latest
  rw [List.foldl_append]
  rfl

/-- **What every run keeps**: the cache refines a `KvCache` that is coherent with the values
put last, and those have keys that are not too long. -/
def CacheInv (events : List CacheEvent) (c : EntryCache) : Prop :=
  ∃ k : KvCache, c.Refines k ∧ k.Coherent (latest events) ∧
    ∀ key value, latest events key = some value → key.strlen ≤ maxKeyLen

/-- **A put succeeds within the limits**, and changes nothing where it fails. -/
theorem kvcachePut_cases (k : KvCache) (key value : CString) :
    (key.strlen ≤ maxKeyLen ∧ value.strlen ≤ maxValLen ∧ (kvcachePut k key value).1 = 0) ∨
      ((kvcachePut k key value).1 ≠ 0 ∧ (kvcachePut k key value).2 = k) := by
  unfold kvcachePut
  split
  case isTrue => exact .inr ⟨show errKeyLen ≠ 0 by decide, rfl⟩
  case isFalse hkey =>
    split
    case isTrue => exact .inr ⟨show errValLen ≠ 0 by decide, rfl⟩
    case isFalse hvalue =>
      exact .inl ⟨Nat.le_of_not_lt hkey, Nat.le_of_not_lt hvalue, kvcachesetPut_fst _ key value⟩

theorem CacheInv.step {events : List CacheEvent} {c c' : EntryCache} {e : CacheEvent}
    (h : CacheInv events c) (hstep : CacheStep c e c') : CacheInv (events ++ [e]) c' := by
  obtain ⟨k, hrefines, hcoherent, hshort⟩ := h
  unfold CacheInv
  rw [latest_append]
  cases e with
  | get key r =>
    obtain ⟨-, hnext⟩ := (hrefines.get key).of_ok hstep
    exact ⟨_, hnext, hcoherent.get key, hshort⟩
  | put key value memory r =>
    obtain ⟨rfl, hnext⟩ := (hrefines.put key value hstep.1).of_ok hstep.2
    refine ⟨_, hnext, ?_⟩
    simp only [CacheEvent.remember]
    obtain ⟨hkey, hvalue, hdone⟩ | ⟨hfailed, hsame⟩ := kvcachePut_cases k key value
    · rw [if_pos hdone]
      refine ⟨hcoherent.put hkey hvalue, fun other v hv => ?_⟩
      by_cases hother : other = key
      · exact hother ▸ hkey
      · rw [Function.update_of_ne hother] at hv
        exact hshort other v hv
    · rw [if_neg hfailed, hsame]
      exact ⟨hcoherent, hshort⟩
  | del key r =>
    obtain ⟨-, hnext⟩ := (hrefines.del key).of_ok hstep
    refine ⟨_, hnext, fun other v hv => ?_, fun other v hv => ?_⟩
    · obtain ⟨hcached, hne⟩ := KvCache.cached_kvcacheDel hv
      have hlatest := hcoherent other v hcached
      -- A key that is too long to be deleted was never put.
      have hother : other ≠ key := by
        rintro rfl
        exact hne (hshort other v hlatest) rfl
      show Function.update (latest events) key none other = some v
      rw [Function.update_of_ne hother]
      exact hlatest
    · by_cases hother : other = key
      · change Function.update (latest events) key none other = some v at hv
        rw [hother, Function.update_self] at hv
        cases hv
      · change Function.update (latest events) key none other = some v at hv
        rw [Function.update_of_ne hother] at hv
        exact hshort other v hv

theorem CacheInv.of_run {numSets elemPerSet : ℕ} {c₀ c : EntryCache} {events : List CacheEvent}
    (hinit : EntryCache.kvcacheInit numSets elemPerSet = .ok c₀)
    (hrun : Transition.Run CacheStep c₀ events c) : CacheInv events c := by
  refine hrun.invariant (I := CacheInv) ?_ fun _ _ _ _ h hstep => h.step hstep
  obtain ⟨k, hk, hrefines⟩ := EntryCache.Refines.of_init hinit
  exact ⟨k, hrefines, KvCache.coherent_kvcacheInit hk _, fun _ _ => nofun⟩

theorem kvcacheGet_fst (k : KvCache) {key : CString} (hkey : key.strlen ≤ maxKeyLen) :
    (kvcacheGet k key).1 = .error errNoKey ∨
      ∃ value, (kvcacheGet k key).1 = .ok value ∧ k.cached key = some value := by
  unfold kvcacheGet
  rw [if_neg (Nat.not_lt.mpr hkey)]
  show (kvcachesetGet (getCacheSet k key) key).1 = _ ∨
    ∃ value, (kvcachesetGet (getCacheSet k key) key).1 = _ ∧
      (getCacheSet k key).cached key = some value
  rw [kvcachesetGet_fst]
  cases (getCacheSet k key).cached key with
  | none => exact .inl rfl
  | some value => exact .inr ⟨value, rfl, rfl⟩

/-- **The cache keeps its books and is never stale.** Along every run of calls from
`kvcache_init`, the list and the table of every set hold the same entries, no key is there
twice, an entry is in the set that the hash of its key selects, and the set counts its
entries and holds no more than it may. A lookup answers `ERRNOKEY` or the value that was put
last, where it was not deleted since; for a key that is too long it answers `ERRKEYLEN`. No
call goes wrong. -/
theorem kvcache_fresh {numSets elemPerSet : ℕ} {c₀ c : EntryCache} {events : List CacheEvent}
    (hinit : EntryCache.kvcacheInit numSets elemPerSet = .ok c₀)
    (hrun : Transition.Run CacheStep c₀ events c) :
    (∀ i, (c.sets i).hash.Perm (c.sets i).list ∧
      (∀ a ∈ (c.sets i).list, ∃ e, c.entries a = some e ∧ c.setOf e.key = i) ∧
      ((c.sets i).list.map (EntryCache.keyAt c.entries)).Nodup ∧
      (c.sets i).numEntries = (c.sets i).list.length ∧
      (c.sets i).numEntries ≤ (c.sets i).elemPerSet) ∧
    (∀ key, ∃ r c', EntryCache.kvcacheGet key c = .ok (r, c') ∧
      (key.strlen ≤ maxKeyLen →
        r = .error errNoKey ∨ ∃ value, r = .ok value ∧ latest events key = some value) ∧
      (maxKeyLen < key.strlen → r = .error errKeyLen)) ∧
    (∀ key value memory, c.entries memory = none →
      ∃ r c', EntryCache.kvcachePut key value memory c = .ok (r, c')) ∧
    ∀ key, ∃ r c', EntryCache.kvcacheDel key c = .ok (r, c') := by
  obtain ⟨k, hrefines, hcoherent, -⟩ := CacheInv.of_run hinit hrun
  refine ⟨fun i => ?_, fun key => ?_, fun key value memory hfresh => ?_, fun key => ?_⟩
  · have hset := hrefines.sets i
    have hok := hrefines.ok.sets i
    have hlength := congrArg List.length hset.holds.queue
    rw [List.length_map, List.length_map] at hlength
    refine ⟨hset.holds.hash, fun a => hrefines.exists_entry, hset.holds.nodup_map hok.nodup, ?_, ?_⟩
    · rw [hset.numEntries, hok.numEntries, hlength]
    · rw [hset.numEntries, hset.elemPerSet]
      exact hok.numEntries_le
  · obtain ⟨r, c', hget, rfl, -⟩ := (hrefines.get key).exists_ok
    refine ⟨_, c', hget, fun hkey => ?_, fun hlong => ?_⟩
    · refine (kvcacheGet_fst k hkey).imp id ?_
      rintro ⟨value, hvalue, hcached⟩
      exact ⟨value, hvalue, hcoherent key value hcached⟩
    · unfold kvcacheGet
      rw [if_pos hlong]
  · obtain ⟨r, c', hput, -⟩ := (hrefines.put key value hfresh).exists_ok
    exact ⟨r, c', hput⟩
  · obtain ⟨r, c', hdel, -⟩ := (hrefines.del key).exists_ok
    exact ⟨r, c', hdel⟩

/-- The state after a call that returns what it should. -/
def expect {α : Type} [DecidableEq α] (r : α) :
    Except CacheFault (α × EntryCache) → Option EntryCache
  | .ok (r', c) => if r' = r then some c else none
  | .error _ => none

theorem eq_ok_of_expect {α : Type} [DecidableEq α] {r : α}
    {result : Except CacheFault (α × EntryCache)} {c : EntryCache} (h : expect r result = some c) :
    result = .ok (r, c) := by
  unfold expect at h
  split at h
  · split at h
    · cases h
      subst r
      rfl
    · cases h
  · cases h

/-- A step, where there is one. -/
def CacheEvent.next (c : EntryCache) : CacheEvent → Option EntryCache
  | .get key r => expect r (EntryCache.kvcacheGet key c)
  | .put key value memory r =>
    if c.entries memory = none then expect r (EntryCache.kvcachePut key value memory c) else none
  | .del key r => expect r (EntryCache.kvcacheDel key c)

theorem cacheStep_of_next (c : EntryCache) (e : CacheEvent) (c' : EntryCache)
    (h : CacheEvent.next c e = some c') : CacheStep c e c' := by
  cases e with
  | get key r => exact eq_ok_of_expect h
  | put key value memory r =>
    by_cases hfresh : c.entries memory = none
    · exact ⟨hfresh, eq_ok_of_expect ((if_pos hfresh).symm.trans h)⟩
    · cases (if_neg hfresh).symm.trans h
  | del key r => exact eq_ok_of_expect h

/-- One-letter strings. -/
def letter (b : UInt8) (hb : b ≠ 0) : CString := ⟨[b], fun h => hb (List.mem_singleton.mp h).symm⟩

/-- Four puts into one set of two entries. The third finds the first key marked and drops the
second, the fourth overwrites the first. -/
def evictingEvents : List CacheEvent :=
  let a := letter 97 (by decide)
  let b := letter 98 (by decide)
  [.put a a 10 0, .put b b 11 0, .get a (.ok a), .put (letter 99 (by decide)) b 12 0,
    .get b (.error errNoKey), .put a b 11 0, .del (letter 100 (by decide)) errNoKey]

theorem kvcache_fresh_evicting :
    ∃ c₀ c, EntryCache.kvcacheInit 1 2 = .ok c₀ ∧
      Transition.Run CacheStep c₀ evictingEvents c ∧ (c.sets 0).list = [10, 12] ∧
      (c.sets 0).hash.Perm (c.sets 0).list ∧
      latest evictingEvents (letter 97 (by decide)) = some (letter 98 (by decide)) := by
  have hinit : EntryCache.kvcacheInit 1 2 = .ok ⟨1, fun _ => ⟨2, 0, [], []⟩, fun _ => none⟩ := rfl
  have hdone : ((evictingEvents.foldlM CacheEvent.next
      ⟨1, fun _ => ⟨2, 0, [], []⟩, fun _ => none⟩).map fun c => (c.sets 0).list) =
      some [10, 12] := by decide +kernel
  obtain ⟨c, hc, hlist⟩ := Option.map_eq_some_iff.mp hdone
  have hrun := Transition.Run.of_foldlM cacheStep_of_next hc
  obtain ⟨hsets, -⟩ := kvcache_fresh hinit hrun
  exact ⟨_, c, hinit, hrun, hlist, (hsets 0).1, by decide +kernel⟩

/-- A key of 1025 letters, one more than a key may have. -/
def longKey : CString where
  bytes := List.replicate 1025 97
  noNul h := absurd (List.eq_of_mem_replicate h) (by decide)

/-- **A key that is too long is not looked up**: the answer is neither `ERRNOKEY` nor a value. -/
theorem kvcacheGet_longKey :
    ∃ c₀ r c', EntryCache.kvcacheInit 1 2 = .ok c₀ ∧
      EntryCache.kvcacheGet longKey c₀ = .ok (r, c') ∧
      r ≠ .error errNoKey ∧ ∀ value, r ≠ .ok value := by
  have hlong : longKey.strlen > maxKeyLen := by
    show (List.replicate 1025 (97 : UInt8)).length > 1024
    rw [List.length_replicate]
    decide
  let c₀ : EntryCache := ⟨1, fun _ => ⟨2, 0, [], []⟩, fun _ => none⟩
  refine ⟨c₀, .error errKeyLen, c₀, rfl, ?_, ?_, nofun⟩
  · unfold EntryCache.kvcacheGet
    rw [Command.get_bind_apply, if_pos hlong]
    rfl
  · rw [Ne, Except.error.injEq]
    decide

end Kv
