import Cs162.KvCache

/-!
# The bookkeeping of a cache set

A cache set keeps its entries twice, in the queue and in the index, and counts them by
hand. `KvCacheSet.Ok` says that the three agree and that the set is not too full. The part
that is not obvious is the eviction: it goes round the queue and takes the marks off, so it
has to come to an entry without one, and it stops at the first. It would not on a queue of
one entry, since `DL_FOREACH_SAFE` ends there after a round; a set that is full has two.

That the queue and the index hold the same keys does not depend on the counter
(`KvCacheSet.Tidy`).
-/

namespace Kv

/-- **The queue, the index and the counter of a set agree**, and it holds no more than it
may. -/
structure KvCacheSet.Ok (cs : KvCacheSet) : Prop where
  two_le : 2 ≤ cs.elemPerSet
  nodup : cs.queue.Nodup
  mem_queue : ∀ key, key ∈ cs.queue ↔ key ∈ cs.index
  numEntries : cs.numEntries = cs.queue.length
  numEntries_le : cs.numEntries ≤ cs.elemPerSet

/-- **The queue and the index of a set hold the same keys.** -/
structure KvCacheSet.Tidy (cs : KvCacheSet) : Prop where
  nodup : cs.queue.Nodup
  mem_queue : ∀ key, key ∈ cs.queue ↔ key ∈ cs.index

theorem KvCacheSet.Ok.tidy {cs : KvCacheSet} (h : cs.Ok) : cs.Tidy := ⟨h.nodup, h.mem_queue⟩

/-- Whether the entry of a key is marked as used. -/
def entryMarked (index : Finmap (fun _ : CString => KvCacheEntry)) (key : CString) : Bool :=
  (index.lookup key).any KvCacheEntry.refbit

/-- Taking the mark off one entry of a queue leaves one marked entry less. -/
theorem countP_entryMarked_insert {index : Finmap (fun _ : CString => KvCacheEntry)} {key : CString}
    {rest : List CString} (hkey : key ∉ rest) (e : KvCacheEntry) :
    (rest ++ [key]).countP (entryMarked (index.insert key { e with refbit := false })) =
      rest.countP (entryMarked index) := by
  have hself : entryMarked (index.insert key { e with refbit := false }) key = false := by
    unfold entryMarked
    rw [Finmap.lookup_insert]
    rfl
  have hrest : rest.countP (entryMarked (index.insert key { e with refbit := false })) =
      rest.countP (entryMarked index) := by
    refine List.countP_congr fun k hk => ?_
    unfold entryMarked
    rw [Finmap.lookup_insert_of_ne _ (ne_of_mem_of_not_mem hk hkey)]
  rw [List.countP_append, hrest, List.countP_singleton, hself]
  simp

/-- **An eviction drops exactly one entry**, where it has enough rounds to take off all the
marks and the queue has more than one entry. -/
theorem evictLoop_evicts (fuel : ℕ) (queue : List CString)
    (index : Finmap (fun _ : CString => KvCacheEntry)) (hnodup : queue.Nodup)
    (htwo : 2 ≤ queue.length) (hmem : ∀ key ∈ queue, key ∈ index)
    (hfuel : queue.countP (entryMarked index) < fuel) :
    ∃ victim ∈ queue, (evictLoop fuel queue index).1.Perm (queue.erase victim) ∧
      ∀ key, key ∈ (evictLoop fuel queue index).2 ↔ key ≠ victim ∧ key ∈ index := by
  fun_induction evictLoop fuel queue index with
  | case1 queue index => exact absurd hfuel (Nat.not_lt_zero _)
  | case2 n index => exact absurd htwo (by simp)
  | case3 fuel elt rest index hnone =>
    obtain ⟨e, he⟩ := Finmap.mem_iff.mp (hmem elt List.mem_cons_self)
    rw [hnone] at he
    cases he
  | case4 fuel elt rest index e he href =>
    refine ⟨elt, List.mem_cons_self, ?_, fun key => Finmap.mem_erase⟩
    rw [List.erase_cons_head]
  | case5 fuel elt index e he href index' => exact absurd htwo (by simp)
  | case6 fuel elt rest index e he href index' hrest ih =>
    obtain ⟨hnot, hrestNodup⟩ := List.nodup_cons.mp hnodup
    have hperm : (rest ++ [elt]).Perm (elt :: rest) := List.perm_append_singleton elt rest
    have hmarked : entryMarked index elt = true := by
      unfold entryMarked
      rw [he]
      exact Bool.eq_true_of_not_eq_false href
    have hinsert : ∀ key, key ∈ index' ↔ key ∈ index := by
      intro key
      rw [Finmap.mem_insert, or_iff_right_of_imp]
      rintro rfl
      exact hmem key List.mem_cons_self
    have hmem' : ∀ key ∈ rest ++ [elt], key ∈ index' :=
      fun key hkey => (hinsert key).mpr (hmem key (hperm.mem_iff.mp hkey))
    -- The round has taken one mark off.
    have hmarks : (rest ++ [elt]).countP (entryMarked index') < fuel := by
      rw [countP_entryMarked_insert hnot e]
      rw [List.countP_cons, if_pos hmarked] at hfuel
      exact Nat.lt_of_succ_lt_succ hfuel
    obtain ⟨victim, hvictim, hleft, hindex⟩ :=
      ih (hperm.nodup_iff.mpr hnodup) (hperm.length_eq ▸ htwo) hmem' hmarks
    refine ⟨victim, hperm.mem_iff.mp hvictim, hleft.trans (hperm.erase victim), fun key => ?_⟩
    rw [hindex key, hinsert key]

/-- The keys that an eviction leaves in the queue and in the index are the same, and none is
new. -/
theorem evictLoop_tidy (fuel : ℕ) (queue : List CString)
    (index : Finmap (fun _ : CString => KvCacheEntry)) (hnodup : queue.Nodup)
    (hmem : ∀ key, key ∈ queue ↔ key ∈ index) :
    (evictLoop fuel queue index).1.Nodup ∧ (evictLoop fuel queue index).1 ⊆ queue ∧
      ∀ key, key ∈ (evictLoop fuel queue index).1 ↔ key ∈ (evictLoop fuel queue index).2 := by
  fun_induction evictLoop fuel queue index with
  | case1 queue index | case2 n index => exact ⟨hnodup, List.Subset.refl _, hmem⟩
  | case3 fuel elt rest index hnone =>
    exact absurd ((hmem elt).mp List.mem_cons_self) (Finmap.lookup_eq_none.mp hnone)
  | case4 fuel elt rest index e he href =>
    obtain ⟨hnot, hrest⟩ := List.nodup_cons.mp hnodup
    refine ⟨hrest, List.subset_cons_self elt rest, fun key => ?_⟩
    rw [Finmap.mem_erase, ← hmem key, List.mem_cons]
    exact ⟨fun hkey => ⟨ne_of_mem_of_not_mem hkey hnot, .inr hkey⟩,
      fun hkey => hkey.2.resolve_left hkey.1⟩
  | case5 fuel elt index e he href index' =>
    refine ⟨hnodup, List.Subset.refl _, fun key => ?_⟩
    rw [Finmap.mem_insert, ← hmem key, List.mem_singleton, or_self]
  | case6 fuel elt rest index e he href index' hrest ih =>
    have hperm : (rest ++ [elt]).Perm (elt :: rest) := List.perm_append_singleton elt rest
    obtain ⟨hleft, hsub, hsame⟩ := ih (hperm.nodup_iff.mpr hnodup) fun key => by
      rw [hperm.mem_iff, Finmap.mem_insert, hmem key, or_iff_right_of_imp]
      rintro rfl
      exact (hmem key).mp List.mem_cons_self
    exact ⟨hleft, fun key hkey => hperm.mem_iff.mp (hsub hkey), hsame⟩

theorem kvcachesetPut_fst (cs : KvCacheSet) (key value : CString) :
    (kvcachesetPut cs key value).1 = 0 := by
  unfold kvcachesetPut
  cases cs.index.lookup key with
  | some e => rfl
  | none =>
    dsimp only
    split <;> rfl

namespace KvCacheSet

variable {cs : KvCacheSet}

theorem Tidy.insert (h : cs.Tidy) {key : CString} (hkey : key ∈ cs.index) (e : KvCacheEntry) :
    KvCacheSet.Tidy { cs with index := cs.index.insert key e } := by
  refine ⟨h.nodup, fun k => ?_⟩
  rw [Finmap.mem_insert, or_iff_right_of_imp]
  · exact h.mem_queue k
  · rintro rfl
    exact hkey

theorem Tidy.get (h : cs.Tidy) (key : CString) : (kvcachesetGet cs key).2.Tidy := by
  unfold kvcachesetGet
  cases he : cs.index.lookup key with
  | none => exact h
  | some e => exact h.insert (Finmap.mem_of_lookup_eq_some he) _

theorem Tidy.append (h : cs.Tidy) {key : CString} (hnew : key ∉ cs.queue) (e : KvCacheEntry)
    (numEntries : ℕ) :
    KvCacheSet.Tidy ⟨cs.elemPerSet, numEntries, cs.queue ++ [key], cs.index.insert key e⟩ := by
  refine ⟨?_, fun k => ?_⟩
  · exact (List.perm_append_singleton key cs.queue).nodup_iff.mpr
      (List.nodup_cons.mpr ⟨hnew, h.nodup⟩)
  · rw [List.mem_append, List.mem_singleton, h.mem_queue k, Finmap.mem_insert, or_comm]

theorem Tidy.put (h : cs.Tidy) (key value : CString) : (kvcachesetPut cs key value).2.Tidy := by
  unfold kvcachesetPut
  cases he : cs.index.lookup key with
  | some e => exact h.insert (Finmap.mem_of_lookup_eq_some he) _
  | none =>
    have hqueue : key ∉ cs.queue := fun hmem =>
      Finmap.lookup_eq_none.mp he ((h.mem_queue key).mp hmem)
    dsimp only
    split
    case isTrue => exact h.append hqueue _ _
    case isFalse =>
      obtain ⟨hnodup, hsub, hsame⟩ :=
        evictLoop_tidy (cs.queue.length + 1) cs.queue cs.index h.nodup h.mem_queue
      have hleft : KvCacheSet.Tidy { cs with
          queue := (evictLoop (cs.queue.length + 1) cs.queue cs.index).1
          index := (evictLoop (cs.queue.length + 1) cs.queue cs.index).2 } := ⟨hnodup, hsame⟩
      exact hleft.append (fun hmem => hqueue (hsub hmem)) _ _

theorem Tidy.del (h : cs.Tidy) (key : CString) : (kvcachesetDel cs key).2.Tidy := by
  unfold kvcachesetDel
  cases he : cs.index.lookup key with
  | none => exact h
  | some e =>
    refine ⟨h.nodup.erase key, fun k => ?_⟩
    rw [h.nodup.mem_erase_iff, h.mem_queue k, Finmap.mem_erase]

theorem Ok.of_init {elemPerSet : ℕ} (h : kvcachesetInit elemPerSet = .ok cs) : cs.Ok := by
  unfold kvcachesetInit at h
  split at h
  case isTrue => cases h
  case isFalse htwo =>
    cases h
    refine ⟨Nat.le_of_not_lt htwo, List.nodup_nil, fun key => ?_, rfl, Nat.zero_le _⟩
    exact iff_of_false List.not_mem_nil Finmap.notMem_empty

theorem Ok.get (h : cs.Ok) (key : CString) : (kvcachesetGet cs key).2.Ok := by
  have htidy := h.tidy.get key
  unfold kvcachesetGet at htidy ⊢
  cases he : cs.index.lookup key with
  | none => exact h
  | some e =>
    rw [he] at htidy
    exact ⟨h.two_le, htidy.nodup, htidy.mem_queue, h.numEntries, h.numEntries_le⟩

theorem Ok.evict (h : cs.Ok) (hfull : ¬ cs.numEntries < cs.elemPerSet) : ∃ victim ∈ cs.queue,
      (evictLoop (cs.queue.length + 1) cs.queue cs.index).1.Perm (cs.queue.erase victim) ∧
      ∀ key, key ∈ (evictLoop (cs.queue.length + 1) cs.queue cs.index).2 ↔
        key ≠ victim ∧ key ∈ cs.index := by
  refine evictLoop_evicts _ _ _ h.nodup ?_ (fun key => (h.mem_queue key).mp)
    (Nat.lt_succ_of_le List.countP_le_length)
  have htwo := h.two_le
  have hlen := h.numEntries
  omega

theorem Ok.put (h : cs.Ok) (key value : CString) : (kvcachesetPut cs key value).2.Ok := by
  have htidy := h.tidy.put key value
  unfold kvcachesetPut at htidy ⊢
  cases he : cs.index.lookup key with
  | some e =>
    rw [he] at htidy
    exact ⟨h.two_le, htidy.nodup, htidy.mem_queue, h.numEntries, h.numEntries_le⟩
  | none =>
    rw [he] at htidy
    dsimp only at htidy ⊢
    split at htidy
    case isTrue hroom =>
      rw [if_pos hroom]
      refine ⟨h.two_le, htidy.nodup, htidy.mem_queue, ?_, hroom⟩
      show cs.numEntries + 1 = (cs.queue ++ [key]).length
      rw [List.length_append, h.numEntries, List.length_singleton]
    case isFalse hfull =>
      rw [if_neg hfull]
      obtain ⟨victim, hvictim, hleft, -⟩ := h.evict hfull
      refine ⟨h.two_le, htidy.nodup, htidy.mem_queue, ?_, h.numEntries_le⟩
      show cs.numEntries = ((evictLoop _ cs.queue cs.index).1 ++ [key]).length
      rw [List.length_append, hleft.length_eq, List.length_erase_of_mem hvictim,
        List.length_singleton, h.numEntries]
      have hpos := List.length_pos_of_mem hvictim
      omega

theorem Ok.del (h : cs.Ok) (key : CString) : (kvcachesetDel cs key).2.Ok := by
  have htidy := h.tidy.del key
  unfold kvcachesetDel at htidy ⊢
  cases he : cs.index.lookup key with
  | none => exact h
  | some e =>
    rw [he] at htidy
    have hkey : key ∈ cs.queue := (h.mem_queue key).mpr (Finmap.mem_of_lookup_eq_some he)
    refine ⟨h.two_le, htidy.nodup, htidy.mem_queue, ?_, (Nat.sub_le _ _).trans h.numEntries_le⟩
    show cs.numEntries - 1 = (cs.queue.erase key).length
    rw [List.length_erase_of_mem hkey, h.numEntries]

end KvCacheSet

/-! ## The sets of a cache -/

/-- **The sets of a cache are in order**, and hold only keys whose hash selects them. -/
structure KvCache.Ok (c : KvCache) : Prop where
  sets : ∀ i, (c.sets i).Ok
  setOf : ∀ i, ∀ key ∈ (c.sets i).queue, c.setOf key = i

namespace KvCache

variable {c : KvCache}

theorem Ok.of_init {numSets elemPerSet : ℕ} (h : kvcacheInit numSets elemPerSet = .ok c) :
    c.Ok := by
  unfold kvcacheInit at h
  split at h
  case isTrue => cases h
  case isFalse =>
    cases hset : kvcachesetInit elemPerSet with
    | error e =>
      rw [hset] at h
      cases h
    | ok cs =>
      rw [hset] at h
      cases h
      have hqueue : cs.queue = [] := by
        unfold kvcachesetInit at hset
        split at hset
        · cases hset
        · cases hset
          rfl
      refine ⟨fun _ => KvCacheSet.Ok.of_init hset, fun i key hkey => ?_⟩
      rw [show (KvCache.mk numSets fun _ => cs).sets i = cs from rfl, hqueue] at hkey
      cases hkey

theorem Ok.withSet (h : c.Ok) {key : CString} {cs : KvCacheSet} (hcs : cs.Ok)
    (hqueue : ∀ k ∈ cs.queue, k = key ∨ k ∈ (getCacheSet c key).queue) : (c.withSet key cs).Ok := by
  constructor
  case sets =>
    intro i
    show (Function.update c.sets (c.setOf key) cs i).Ok
    by_cases hi : i = c.setOf key
    · rw [hi, Function.update_self]
      exact hcs
    · rw [Function.update_of_ne hi]
      exact h.sets i
  case setOf =>
    intro i k hk
    show c.setOf k = i
    change k ∈ (Function.update c.sets (c.setOf key) cs i).queue at hk
    by_cases hi : i = c.setOf key
    · rw [hi, Function.update_self] at hk
      rw [hi]
      obtain rfl | hk := hqueue k hk
      · rfl
      · exact h.setOf _ k hk
    · rw [Function.update_of_ne hi] at hk
      exact h.setOf i k hk

theorem queue_kvcachesetGet (cs : KvCacheSet) (key : CString) :
    (kvcachesetGet cs key).2.queue = cs.queue := by
  unfold kvcachesetGet
  cases cs.index.lookup key <;> rfl

theorem mem_queue_kvcachesetPut {cs : KvCacheSet} (h : cs.Tidy) {key value k : CString}
    (hk : k ∈ (kvcachesetPut cs key value).2.queue) : k = key ∨ k ∈ cs.queue := by
  unfold kvcachesetPut at hk
  cases he : cs.index.lookup key with
  | some e =>
    rw [he] at hk
    exact .inr hk
  | none =>
    rw [he] at hk
    dsimp only at hk
    split at hk
    case isTrue => exact (List.mem_append.mp hk).symm.imp List.mem_singleton.mp id
    case isFalse =>
      obtain ⟨-, hsub, -⟩ :=
        evictLoop_tidy (cs.queue.length + 1) cs.queue cs.index h.nodup h.mem_queue
      exact (List.mem_append.mp hk).symm.imp List.mem_singleton.mp fun hk => hsub hk

theorem mem_queue_kvcachesetDel {cs : KvCacheSet} {key k : CString}
    (hk : k ∈ (kvcachesetDel cs key).2.queue) : k ∈ cs.queue := by
  unfold kvcachesetDel at hk
  cases he : cs.index.lookup key with
  | none =>
    rw [he] at hk
    exact hk
  | some e =>
    rw [he] at hk
    exact List.mem_of_mem_erase hk

theorem Ok.get (h : c.Ok) (key : CString) : (kvcacheGet c key).2.Ok := by
  unfold kvcacheGet
  split
  · exact h
  · refine h.withSet ((h.sets _).get key) fun k hk => .inr ?_
    rw [queue_kvcachesetGet] at hk
    exact hk

theorem Ok.put (h : c.Ok) (key value : CString) : (kvcachePut c key value).2.Ok := by
  unfold kvcachePut
  split
  · exact h
  · split
    · exact h
    · exact h.withSet ((h.sets _).put key value) fun k hk =>
        mem_queue_kvcachesetPut (h.sets _).tidy hk

theorem Ok.del (h : c.Ok) (key : CString) : (kvcacheDel c key).2.Ok := by
  unfold kvcacheDel
  split
  · exact h
  · exact h.withSet ((h.sets _).del key) fun k hk => .inr (mem_queue_kvcachesetDel hk)

end KvCache

end Kv
