import Cs162.KvCacheRuns
import Cs162.SecondChance

/-!
# Runs of one cache set

A cache set by itself, with all of its functions: the calls that can be made of it, their
answers, and the runs from `kvcacheset_init`. `kvcacheset_clear` goes over the hash table and
takes every entry out of both structures; the counter stays as it is.

The entries in queue order (`EntryCache.queued`) show what a put does to a set that has not
been cleared: it is what the reference of the second-chance policy does
(`kvcacheset_secondChance`).
-/

namespace Kv

open Command (Ensures)
open Transition (Run)
open SecondChance (secondChance rotate rotate_eq)

/-! ## Clearing a set -/

/-- `kvcacheset_clear`. -/
def kvcachesetClear (cs : KvCacheSet) : KvCacheSet := { cs with queue := [], index := ∅ }

namespace EntryCache

/-- The `HASH_ITER` of `kvcacheset_clear`, at its element `elt`. The next element is read
before this one is taken out. -/
def clearLoop (i : ℕ) : ℕ → Option ℕ → EntryM Unit
  | _, none => pure ()
  | 0, some _ => Command.stop .endless
  | fuel + 1, some elt => do
    let c ← Command.get
    let tmp := nextIn (c.sets i).hash elt
    hashDel i elt
    dlDelete i elt
    Command.modify fun c => c.withEntry elt none
    clearLoop i fuel tmp

/-- `kvcacheset_clear`. -/
def kvcachesetClear (i : ℕ) : EntryM Unit := do
  let c ← Command.get
  clearLoop i ((c.sets i).hash.length + 1) (c.sets i).hash.head?

variable {c c' : EntryCache} {i : ℕ}

theorem clearLoop_spec (i : ℕ) (fuel : ℕ) : ∀ {c : EntryCache} {queue : List CString}
    {index : Finmap (fun _ : CString => KvCacheEntry)},
    Holds c.entries (c.sets i).list (c.sets i).hash queue index → queue.Nodup →
    (c.sets i).hash.length < fuel → c.Does (clearLoop i fuel (c.sets i).hash.head?) fun _ c' =>
      Holds c'.entries (c'.sets i).list (c'.sets i).hash [] ∅ ∧
      (c'.sets i).elemPerSet = (c.sets i).elemPerSet ∧
      (c'.sets i).numEntries = (c.sets i).numEntries ∧
      c.Keeps i {a | a ∈ (c.sets i).list} c' := by
  induction fuel with
  | zero => exact fun _ _ hfuel => absurd hfuel (Nat.not_lt_zero _)
  | succ fuel ih =>
    intro c queue index h hnodup hfuel
    have hkeep := Keeps.refl c i {a | a ∈ (c.sets i).list}
    cases hhash : (c.sets i).hash with
    | nil =>
      have hlist : (c.sets i).list = [] := List.perm_nil.mp (hhash ▸ h.hash.symm)
      rw [List.head?_nil]
      refine .pure ⟨?_, rfl, rfl, hkeep⟩
      rw [hlist, hhash]
      exact ⟨.refl _, rfl, fun key e => iff_of_false (by simp) (by simp)⟩
    | cons elt rest =>
      have helt : elt ∈ (c.sets i).list := h.hash.mem_iff.mp (hhash ▸ List.mem_cons_self)
      obtain ⟨e, he, -, -⟩ := h.exists_entry helt
      have hnext : nextIn (c.sets i).hash elt = rest.head? := hhash ▸ nextIn_cons elt rest
      rw [List.head?_cons]
      refine Command.Ensures.get_bind (Command.Ensures.bind_ok
        (hashDel_apply (hhash ▸ List.mem_cons_self)) (Command.Ensures.bind_ok (dlDelete_apply ?_)
          (Command.Ensures.modify_bind ?_)))
      · rw [sets_withSet_self]
        exact helt
      set c₁ := ((c.withSet i { c.sets i with hash := (c.sets i).hash.erase elt }).withSet i
        { (c.withSet i { c.sets i with hash := (c.sets i).hash.erase elt }).sets i with
          list := ((c.withSet i { c.sets i with
            hash := (c.sets i).hash.erase elt }).sets i).list.erase elt }).withEntry elt none
      have hsets : c₁.sets i =
          { c.sets i with hash := rest, list := (c.sets i).list.erase elt } := by
        simp [c₁, hhash]
      have hholds : Holds c₁.entries (c₁.sets i).list (c₁.sets i).hash (queue.erase e.key)
          (index.erase e.key) := by
        have herased := h.erase hnodup helt he
        rw [hhash, List.erase_cons_head] at herased
        rw [hsets]
        exact herased
      have hkeep₁ : c.Keeps i {a | a ∈ (c.sets i).list} c₁ :=
        ((hkeep.withSet _).withSet _).withEntry helt none
      rw [hhash] at hfuel
      have hdoes := ih hholds (hnodup.erase _) (by rw [hsets]; exact Nat.lt_of_succ_lt_succ hfuel)
      rw [hsets] at hdoes
      rw [hnext]
      refine hdoes.mono ?_
      rintro _ c' ⟨hdone, helem, hnum, hkeep'⟩
      exact ⟨hdone, helem, hnum, hkeep₁.trans (hkeep'.mono fun a ha => List.mem_of_mem_erase ha)⟩

theorem kvcachesetClear_spec {cs : KvCacheSet} (h : c.Represents i cs) (hok : cs.Tidy) :
    c.Does (kvcachesetClear i) fun _ c' => c'.Represents i (Kv.kvcachesetClear cs) ∧
      c.Keeps i {a | a ∈ (c.sets i).list} c' := by
  refine Command.Ensures.get_bind ((clearLoop_spec i _ h.holds hok.nodup
    (Nat.lt_succ_self _)).mono ?_)
  rintro _ c' ⟨hholds, helem, hnum, hkeep⟩
  exact ⟨⟨helem.trans h.elemPerSet, hnum.trans h.numEntries, hholds⟩, hkeep⟩

end EntryCache

theorem KvCacheSet.Tidy.clear (cs : KvCacheSet) : (kvcachesetClear cs).Tidy :=
  ⟨List.nodup_nil, fun _ => iff_of_false List.not_mem_nil Finmap.notMem_empty⟩

/-! ## Calls -/

/-- **A call** of a function of `kvcacheset.c`. -/
inductive SetCall
  | get (key : CString)
  | put (key value : CString)
  | del (key : CString)
  | clear

/-- **What it returns.** -/
inductive SetAnswer
  | value (result : Except Int CString)
  | code (result : Int)
  | nothing
deriving DecidableEq

/-- A call on a set of `KvCache`. -/
def KvCacheSet.call (cs : KvCacheSet) : SetCall → SetAnswer × KvCacheSet
  | .get key => ((kvcachesetGet cs key).1 |> .value, (kvcachesetGet cs key).2)
  | .put key value => ((kvcachesetPut cs key value).1 |> .code, (kvcachesetPut cs key value).2)
  | .del key => ((kvcachesetDel cs key).1 |> .code, (kvcachesetDel cs key).2)
  | .clear => (.nothing, kvcachesetClear cs)

/-- A call on a set in memory. -/
def SetCall.exec (i memory : ℕ) : SetCall → EntryM SetAnswer
  | get key => do
    let result ← EntryCache.kvcachesetGet i key
    pure (.value result)
  | put key value => do
    let result ← EntryCache.kvcachesetPut i key value memory
    pure (.code result)
  | del key => do
    let result ← EntryCache.kvcachesetDel i key
    pure (.code result)
  | clear => do
    EntryCache.kvcachesetClear i
    pure .nothing

/-- A call, the address that `malloc` returns for an entry, and what the call returns. -/
structure SetEvent where
  call : SetCall
  memory : ℕ
  answer : SetAnswer

/-- **A step of a set**: a call, with unused memory for an entry. -/
def SetStep (i : ℕ) (c : EntryCache) (event : SetEvent) (c' : EntryCache) : Prop :=
  c.entries event.memory = none ∧ event.call.exec i event.memory c = .ok (event.answer, c')

theorem KvCacheSet.Tidy.call {cs : KvCacheSet} (h : cs.Tidy) (call : SetCall) :
    (cs.call call).2.Tidy := by
  cases call with
  | get key => exact h.get key
  | put key value => exact h.put key value
  | del key => exact h.del key
  | clear => exact .clear cs

theorem KvCacheSet.Ok.call {cs : KvCacheSet} (h : cs.Ok) {call : SetCall} (hcall : call ≠ .clear) :
    (cs.call call).2.Ok := by
  cases call with
  | get key => exact h.get key
  | put key value => exact h.put key value
  | del key => exact h.del key
  | clear => exact absurd rfl hcall

theorem KvCacheSet.elemPerSet_call (cs : KvCacheSet) (call : SetCall) :
    (cs.call call).2.elemPerSet = cs.elemPerSet := by
  cases call with
  | get key =>
    show (kvcachesetGet cs key).2.elemPerSet = _
    unfold kvcachesetGet
    split <;> rfl
  | put key value =>
    show (kvcachesetPut cs key value).2.elemPerSet = _
    unfold kvcachesetPut
    split
    · rfl
    · split <;> rfl
  | del key =>
    show (kvcachesetDel cs key).2.elemPerSet = _
    unfold kvcachesetDel
    split <;> rfl
  | clear => rfl

/-- **Every call does the same on both sides.** -/
theorem SetCall.exec_spec {c : EntryCache} {i memory : ℕ} {cs : KvCacheSet}
    (h : c.Represents i cs) (hok : cs.Tidy) (call : SetCall) (hfresh : c.entries memory = none) :
    c.Does (call.exec i memory) fun answer c' => answer = (cs.call call).1 ∧
      c'.Represents i (cs.call call).2 ∧
      c.Keeps i {a | a ∈ (c.sets i).list ∨ a = memory} c' := by
  cases call with
  | get key =>
    refine Ensures.bind (EntryCache.kvcachesetGet_spec h hok key) ?_
    rintro r c' ⟨rfl, hset, hkeep⟩
    exact .pure ⟨rfl, hset, hkeep.mono fun _ => Or.inl⟩
  | put key value =>
    refine Ensures.bind (EntryCache.kvcachesetPut_spec h hok key value hfresh) ?_
    rintro r c' ⟨rfl, hset, hkeep⟩
    exact .pure ⟨rfl, hset, hkeep⟩
  | del key =>
    refine Ensures.bind (EntryCache.kvcachesetDel_spec h hok key) ?_
    rintro r c' ⟨rfl, hset, hkeep⟩
    exact .pure ⟨rfl, hset, hkeep.mono fun _ => Or.inl⟩
  | clear =>
    refine Ensures.bind (EntryCache.kvcachesetClear_spec h hok) ?_
    rintro r c' ⟨hset, hkeep⟩
    exact .pure ⟨rfl, hset, hkeep.mono fun _ => Or.inl⟩

/-- A new set. -/
def KvCacheSet.new (elemPerSet : ℕ) : KvCacheSet := ⟨elemPerSet, 0, [], ∅⟩

/-- **A new set in memory** represents one. -/
theorem EntryCache.represents_of_init {c : EntryCache} {i elemPerSet : ℕ}
    (h : EntryCache.kvcachesetInit elemPerSet = .ok (c.sets i)) :
    c.Represents i (.new elemPerSet) ∧ (KvCacheSet.new elemPerSet).Ok := by
  unfold EntryCache.kvcachesetInit at h
  split at h
  · cases h
  · rename_i htwo
    have hset := (Except.ok.inj h).symm
    refine ⟨⟨?_, ?_, ?_⟩, ?_⟩
    · rw [hset]
      rfl
    · rw [hset]
      rfl
    · rw [hset]
      exact ⟨.refl _, rfl, fun key e => iff_of_false (by simp [KvCacheSet.new]) (by simp)⟩
    · have hinit : Kv.kvcachesetInit elemPerSet = .ok (.new elemPerSet) := if_neg htwo
      exact .of_init hinit

/-! ## The entries in queue order -/

/-- The entries of a queue. -/
def entryList (queue : List CString) (index : Finmap (fun _ : CString => KvCacheEntry)) :
    List CacheEntry :=
  queue.filterMap fun key => (index.lookup key).map fun e => ⟨key, e.value, e.refbit⟩

/-- **The entries of a set in memory**, in queue order. -/
def EntryCache.queued (c : EntryCache) (i : ℕ) : List CacheEntry :=
  (c.sets i).list.filterMap c.entries

/-- The mark is taken off. -/
def CacheEntry.spare (e : CacheEntry) : CacheEntry := { e with refbit := false }

/-- **The reference for `kvcacheset_put`**: an entry of the key is overwritten and marked; a new
entry goes to the end of the queue, and if the set is full the second-chance policy makes room
for it. -/
def referencePut (elemPerSet : ℕ) (queue : List CacheEntry) (key value : CString) :
    List CacheEntry :=
  if queue.any fun e => e.key = key then
    queue.map fun e => if e.key = key then ⟨key, value, true⟩ else e
  else if queue.length < elemPerSet then queue ++ [⟨key, value, false⟩]
  else (secondChance CacheEntry.refbit CacheEntry.spare queue).2 ++ [⟨key, value, false⟩]

section

variable {queue : List CString} {index : Finmap (fun _ : CString => KvCacheEntry)} {key : CString}

theorem entryList_congr {index' : Finmap (fun _ : CString => KvCacheEntry)}
    (h : ∀ key ∈ queue, index'.lookup key = index.lookup key) :
    entryList queue index' = entryList queue index := by
  refine List.filterMap_congr fun key hkey => ?_
  rw [h key hkey]

theorem entryList_cons {e : KvCacheEntry} (he : index.lookup key = some e) :
    entryList (key :: queue) index = ⟨key, e.value, e.refbit⟩ :: entryList queue index := by
  unfold entryList
  rw [List.filterMap_cons, he]
  rfl

theorem entryList_append (hkey : key ∉ queue) (e : KvCacheEntry) :
    entryList (queue ++ [key]) (index.insert key e)
      = entryList queue index ++ [⟨key, e.value, e.refbit⟩] := by
  have hold : entryList queue (index.insert key e) = entryList queue index :=
    entryList_congr fun k hk => Finmap.lookup_insert_of_ne _ (ne_of_mem_of_not_mem hk hkey)
  unfold entryList at hold ⊢
  rw [List.filterMap_append, hold, List.filterMap_cons, Finmap.lookup_insert]
  rfl

theorem length_entryList (hmem : ∀ key ∈ queue, key ∈ index) :
    (entryList queue index).length = queue.length := by
  unfold entryList
  rw [List.length_filterMap_eq_countP, List.countP_eq_length]
  intro key hkey
  rw [Option.isSome_map, Finmap.lookup_isSome]
  exact hmem key hkey

theorem countP_entryList :
    (entryList queue index).countP CacheEntry.refbit = queue.countP (entryMarked index) := by
  unfold entryList
  rw [List.countP_filterMap]
  refine List.countP_congr fun key _ => ?_
  unfold entryMarked
  cases index.lookup key <;> simp

theorem any_entryList (hmem : ∀ key ∈ queue, key ∈ index) :
    ((entryList queue index).any fun e => e.key = key) = true ↔ key ∈ queue := by
  rw [List.any_eq_true]
  unfold entryList
  constructor
  · rintro ⟨e, he, hkey⟩
    obtain ⟨k, hk, hentry⟩ := List.mem_filterMap.mp he
    obtain ⟨f, -, rfl⟩ := Option.map_eq_some_iff.mp hentry
    exact of_decide_eq_true hkey ▸ hk
  · intro hkey
    obtain ⟨e, he⟩ := Finmap.mem_iff.mp (hmem key hkey)
    exact ⟨⟨key, e.value, e.refbit⟩, List.mem_filterMap.mpr ⟨key, hkey, by rw [he]; rfl⟩,
      decide_eq_true rfl⟩

theorem entryList_insert {e : KvCacheEntry} (he : index.lookup key = some e) (f : KvCacheEntry) :
    entryList queue (index.insert key f)
      = (entryList queue index).map fun e =>
        if e.key = key then ⟨key, f.value, f.refbit⟩ else e := by
  unfold entryList
  rw [List.map_filterMap]
  refine List.filterMap_congr fun k _ => ?_
  by_cases hk : k = key
  · rw [hk, Finmap.lookup_insert, he]
    simp
  · rw [Finmap.lookup_insert_of_ne _ hk]
    cases index.lookup k <;> simp [hk]

/-- **An eviction goes round the entries.** -/
theorem entryList_evictLoop (fuel : ℕ) (queue : List CString)
    (index : Finmap (fun _ : CString => KvCacheEntry)) (hnodup : queue.Nodup)
    (htwo : 2 ≤ queue.length) (hmem : ∀ key ∈ queue, key ∈ index) :
    entryList (evictLoop fuel queue index).1 (evictLoop fuel queue index).2
      = rotate CacheEntry.refbit CacheEntry.spare fuel (entryList queue index) := by
  fun_induction evictLoop fuel queue index with
  | case1 queue index => rfl
  | case2 n index => exact absurd htwo (by simp)
  | case3 fuel elt rest index hnone =>
    exact absurd (hmem elt List.mem_cons_self) (Finmap.lookup_eq_none.mp hnone)
  | case4 fuel elt rest index e he href =>
    rw [entryList_cons he]
    simp only [rotate, href, Bool.false_eq_true, if_false]
    refine entryList_congr fun key hkey => Finmap.lookup_erase_ne ?_
    exact ne_of_mem_of_not_mem hkey (List.nodup_cons.mp hnodup).1
  | case5 fuel elt index e he href index' => exact absurd htwo (by simp)
  | case6 fuel elt rest index e he href index' hrest ih =>
    have hperm : (rest ++ [elt]).Perm (elt :: rest) := List.perm_append_singleton elt rest
    have hround := ih (hperm.nodup_iff.mpr hnodup) (hperm.length_eq ▸ htwo) fun key hkey => by
      rw [Finmap.mem_insert]
      exact .inr (hmem key (hperm.mem_iff.mp hkey))
    rw [hround, entryList_append (List.nodup_cons.mp hnodup).1, entryList_cons he]
    simp only [rotate, Bool.eq_true_of_not_eq_false href, if_true, CacheEntry.spare]

end

theorem EntryCache.Represents.queued_eq {c : EntryCache} {i : ℕ} {cs : KvCacheSet}
    (h : c.Represents i cs) : c.queued i = entryList cs.queue cs.index := by
  have hkeys : entryList cs.queue cs.index = (cs.queue.map some).filterMap fun key =>
      key.bind fun key => (cs.index.lookup key).map fun e => ⟨key, e.value, e.refbit⟩ := by
    unfold entryList
    rw [List.filterMap_map]
    rfl
  unfold EntryCache.queued
  rw [hkeys, ← h.holds.queue, List.filterMap_map]
  refine List.filterMap_congr fun a ha => ?_
  obtain ⟨e, he, -, hlookup⟩ := h.holds.exists_entry ha
  show c.entries a = (EntryCache.keyAt c.entries a).bind _
  unfold EntryCache.keyAt
  rw [he, Option.map_some, Option.bind_some, hlookup]
  rfl

/-- **A put is the reference**, on a set that counts its entries. -/
theorem entryList_kvcachesetPut {cs : KvCacheSet} (h : cs.Ok) (key value : CString) :
    entryList (kvcachesetPut cs key value).2.queue (kvcachesetPut cs key value).2.index
      = referencePut cs.elemPerSet (entryList cs.queue cs.index) key value := by
  have hmem : ∀ key ∈ cs.queue, key ∈ cs.index := fun key => (h.mem_queue key).mp
  unfold kvcachesetPut referencePut
  cases he : cs.index.lookup key with
  | some e =>
    have hkey : key ∈ cs.queue := (h.mem_queue key).mpr (Finmap.mem_of_lookup_eq_some he)
    rw [if_pos ((any_entryList hmem).mpr hkey)]
    exact entryList_insert he ⟨value, true⟩
  | none =>
    have hkey : key ∉ cs.queue := fun hkey =>
      Finmap.lookup_eq_none.mp he ((h.mem_queue key).mp hkey)
    have hcount := (length_entryList hmem).trans h.numEntries.symm
    rw [if_neg fun hany => hkey ((any_entryList hmem).mp hany), hcount]
    dsimp only
    split
    case isTrue => exact entryList_append hkey ⟨value, false⟩
    case isFalse hfull =>
      have htwo : 2 ≤ cs.queue.length :=
        h.numEntries ▸ h.two_le.trans (Nat.le_of_not_lt hfull)
      obtain ⟨-, hsub, -⟩ :=
        evictLoop_tidy (cs.queue.length + 1) cs.queue cs.index h.nodup h.mem_queue
      refine (entryList_append (fun hmem => hkey (hsub hmem)) ⟨value, false⟩).trans ?_
      have hrounds : (entryList cs.queue cs.index).countP CacheEntry.refbit
          < cs.queue.length + 1 := by
        rw [countP_entryList]
        exact Nat.lt_succ_of_le List.countP_le_length
      rw [entryList_evictLoop _ _ _ h.nodup htwo hmem, rotate_eq (fun _ => rfl) hrounds]

/-- **What every history without a clear leaves**: a set that counts its entries. -/
theorem represents_of_run {elemPerSet i : ℕ} {c₀ c : EntryCache} {events : List SetEvent}
    (hinit : EntryCache.kvcachesetInit elemPerSet = .ok (c₀.sets i))
    (hrun : Run (SetStep i) c₀ events c) (hcalls : ∀ event ∈ events, event.call ≠ .clear) :
    ∃ cs, c.Represents i cs ∧ cs.Ok ∧ cs.elemPerSet = elemPerSet := by
  obtain ⟨hnew, hok⟩ := EntryCache.represents_of_init hinit
  refine (hrun.of_labels hcalls).invariant
    (I := fun _ c => ∃ cs, c.Represents i cs ∧ cs.Ok ∧ cs.elemPerSet = elemPerSet)
    ⟨_, hnew, hok, rfl⟩ ?_
  rintro _ c event c' ⟨cs, hcs, hok, helem⟩ ⟨⟨hfresh, hexec⟩, hcall⟩
  obtain ⟨-, hset, -⟩ := (event.call.exec_spec hcs hok.tidy hfresh).of_ok hexec
  exact ⟨_, hset, hok.call hcall, (cs.elemPerSet_call event.call).trans helem⟩

/-- **Second-chance eviction is exact.** On every set reached from `kvcacheset_init` by gets,
puts and deletions, a put does to the entries in queue order, with their values and marks, what
the reference does: it overwrites an entry that is there, adds a new one at the end while there
is room, and otherwise drops the entry that the second-chance policy drops, and no other. The
hash table holds the same entries as the queue. -/
theorem kvcacheset_secondChance {elemPerSet i : ℕ} {c₀ c : EntryCache} {events : List SetEvent}
    (hinit : EntryCache.kvcachesetInit elemPerSet = .ok (c₀.sets i))
    (hrun : Run (SetStep i) c₀ events c) (hcalls : ∀ event ∈ events, event.call ≠ .clear)
    (key value : CString) {memory : ℕ} (hfresh : c.entries memory = none) :
    ∃ c', EntryCache.kvcachesetPut i key value memory c = .ok (0, c')
      ∧ c'.queued i = referencePut elemPerSet (c.queued i) key value
      ∧ (c'.sets i).hash.Perm (c'.sets i).list := by
  obtain ⟨cs, hcs, hok, rfl⟩ := represents_of_run hinit hrun hcalls
  obtain ⟨r, c', hput, rfl, hset, -⟩ :=
    (EntryCache.kvcachesetPut_spec hcs hok.tidy key value hfresh).exists_ok
  refine ⟨c', ?_, ?_, hset.holds.hash⟩
  · rw [hput, kvcachesetPut_fst]
  · rw [hset.queued_eq, hcs.queued_eq]
    exact entryList_kvcachesetPut hok key value

deriving instance DecidableEq for CacheEntry

/-- A step, where there is one. -/
def SetEvent.next (i : ℕ) (c : EntryCache) (event : SetEvent) : Option EntryCache :=
  if c.entries event.memory = none then expect event.answer (event.call.exec i event.memory c)
  else none

theorem setStep_of_next {i : ℕ} (c : EntryCache) (event : SetEvent) (c' : EntryCache)
    (h : event.next i c = some c') : SetStep i c event c' := by
  by_cases hfresh : c.entries event.memory = none
  · exact ⟨hfresh, eq_ok_of_expect ((if_pos hfresh).symm.trans h)⟩
  · cases (if_neg hfresh).symm.trans h

theorem a_ne_nul : (97 : UInt8) ≠ 0 := by decide

theorem b_ne_nul : (98 : UInt8) ≠ 0 := by decide

/-- Two keys are put, and the first one is looked up. -/
def lookedUp : List SetEvent :=
  let a := letter 97 a_ne_nul
  let b := letter 98 b_ne_nul
  [⟨.put a a, 10, .code 0⟩, ⟨.put b b, 11, .code 0⟩, ⟨.get a, 12, .value (.ok a)⟩]

theorem kvcacheset_secondChance_spares :
    ∃ c c', Run (SetStep 0) ⟨1, fun _ => ⟨2, 0, [], []⟩, fun _ => none⟩ lookedUp c
      ∧ EntryCache.kvcachesetPut 0 (letter 99 (by decide)) (letter 100 (by decide)) 12 c
        = .ok (0, c')
      ∧ c'.queued 0 = [⟨letter 97 (by decide), letter 97 (by decide), false⟩,
        ⟨letter 99 (by decide), letter 100 (by decide), false⟩] := by
  have hcomputed : (lookedUp.foldlM (fun c event => SetEvent.next 0 c event)
      ⟨1, fun _ => ⟨2, 0, [], []⟩, fun _ => none⟩).map (fun c => (c.queued 0, c.entries 12))
      = some ([⟨letter 97 (by decide), letter 97 (by decide), true⟩,
        ⟨letter 98 (by decide), letter 98 (by decide), false⟩], none) := by
    decide +kernel
  obtain ⟨c, hc, hresult⟩ := Option.map_eq_some_iff.mp hcomputed
  obtain ⟨hqueued, hfresh⟩ := Prod.mk.inj hresult
  have hrun := Run.of_foldlM setStep_of_next hc
  have hinit : EntryCache.kvcachesetInit 2 = .ok ⟨2, 0, [], []⟩ := rfl
  obtain ⟨c', hput, hafter, -⟩ := kvcacheset_secondChance hinit hrun (by simp [lookedUp])
    (letter 99 (by decide)) (letter 100 (by decide)) hfresh
  refine ⟨c, c', hrun, hput, ?_⟩
  rw [hafter, hqueued]
  decide +kernel

end Kv
