import Cs162.Command
import Cs162.KvCacheSets
import Cs162.Run

/-!
# The entries of the cache in memory

An entry of a cache set is a block of memory that hangs in two structures, a doubly linked
list and a hash table; the code takes it into and out of each by itself. Here both are
sequences of addresses: the list in its order, and the table as the entries that were added
to it, among which `HASH_FIND_STR` finds one with a given key. Nothing in this model says
that the two hold the same entries, or that a key is in them once.

`KvCache` has one entry for a key by construction. `Holds` relates the two: an entry in
memory stands for its key in the queue, and for its value and its mark in the index. Every
function does the same on both sides and never follows a pointer to an entry that is not
there, so what the cache does as a map it does in memory too.
-/

namespace Kv

/-- **An entry in memory** (`struct kvcacheentry`). -/
structure CacheEntry where
  key : CString
  value : CString
  refbit : Bool

/-- **A cache set in memory** (`kvcacheset_t`). -/
structure EntrySet where
  elemPerSet : ℕ
  numEntries : ℕ
  /-- `list_ptr`, by address. -/
  list : List ℕ
  /-- `hash_ptr`: the addresses that were added and not deleted. -/
  hash : List ℕ

/-- **A cache and the entries in memory.** -/
structure EntryCache where
  numSets : ℕ
  sets : ℕ → EntrySet
  entries : ℕ → Option CacheEntry

/-- What the code must not do. -/
inductive CacheFault
  /-- A pointer to an entry that does not exist. -/
  | wildPointer
  /-- Taking an entry out of a list or table that it is not in. -/
  | notListed
  /-- A loop that has not ended after a round more than there are entries. -/
  | endless

abbrev EntryM : Type → Type := Command CacheFault EntryCache

namespace EntryCache

/-- A change of one set. -/
def withSet (c : EntryCache) (i : ℕ) (s : EntrySet) : EntryCache :=
  { c with sets := Function.update c.sets i s }

/-- A change of one entry. -/
def withEntry (c : EntryCache) (a : ℕ) (e : Option CacheEntry) : EntryCache :=
  { c with entries := Function.update c.entries a e }

/-- The entry behind a pointer. -/
def entryAt (a : ℕ) : EntryM CacheEntry := do
  match (← Command.get).entries a with
  | some e => pure e
  | none => Command.stop .wildPointer

/-- The key of an entry. -/
def keyAt (entries : ℕ → Option CacheEntry) (a : ℕ) : Option CString :=
  (entries a).map CacheEntry.key

/-! ## utlist.h and uthash.h -/

/-- `HASH_FIND_STR`. -/
def hashFind (i : ℕ) (key : CString) : EntryM (Option ℕ) := do
  let c ← Command.get
  pure ((c.sets i).hash.find? fun a => keyAt c.entries a = some key)

/-- `HASH_ADD_KEYPTR`. -/
def hashAdd (i a : ℕ) : EntryM Unit :=
  Command.modify fun c => c.withSet i { c.sets i with hash := (c.sets i).hash ++ [a] }

/-- `HASH_DEL`. -/
def hashDel (i a : ℕ) : EntryM Unit := do
  let c ← Command.get
  if a ∈ (c.sets i).hash then
    Command.modify fun c => c.withSet i { c.sets i with hash := (c.sets i).hash.erase a }
  else Command.stop .notListed

/-- `DL_APPEND`. -/
def dlAppend (i a : ℕ) : EntryM Unit :=
  Command.modify fun c => c.withSet i { c.sets i with list := (c.sets i).list ++ [a] }

/-- `DL_DELETE`. -/
def dlDelete (i a : ℕ) : EntryM Unit := do
  let c ← Command.get
  if a ∈ (c.sets i).list then
    Command.modify fun c => c.withSet i { c.sets i with list := (c.sets i).list.erase a }
  else Command.stop .notListed

/-- The entry behind another in a list, its `next`. -/
def nextIn (list : List ℕ) (a : ℕ) : Option ℕ := (list.dropWhile (· ≠ a)).tail.head?

theorem nextIn_cons (a : ℕ) (rest : List ℕ) : nextIn (a :: rest) a = rest.head? := by
  unfold nextIn
  rw [List.dropWhile_cons_of_neg (by simp), List.tail_cons]

/-! ## kvcacheset.c -/

/-- `kvcacheset_init`. -/
def kvcachesetInit (elemPerSet : ℕ) : Except Int EntrySet :=
  if elemPerSet < 2 then .error (-1) else .ok ⟨elemPerSet, 0, [], []⟩

/-- `kvcacheset_get`. -/
def kvcachesetGet (i : ℕ) (key : CString) : EntryM (Except Int CString) := do
  match ← hashFind i key with
  | none => pure (.error errNoKey)
  | some entry => do
    let e ← entryAt entry
    Command.modify fun c => c.withEntry entry (some { e with refbit := true })
    pure (.ok e.value)

/-- The first part of `kvcacheset_put`, down to the copy of the value: the entry of the key,
or a new one at the address `malloc` returns. -/
def prepareEntry (i : ℕ) (key value : CString) (memory : ℕ) : EntryM ℕ := do
  match ← hashFind i key with
  | some entry => do
    let e ← entryAt entry
    Command.modify fun c => c.withEntry entry (some ⟨e.key, value, true⟩)
    pure entry
  | none => do
    Command.modify fun c => c.withEntry memory (some ⟨key, value, false⟩)
    pure memory

/-- The `DL_FOREACH_SAFE` of `kvcacheset_put`, at its element `elt`. The element of the next
round is the one behind `elt`, read before `elt` moves. -/
def evict (i : ℕ) : ℕ → Option ℕ → EntryM Unit
  | _, none => pure ()
  | 0, some _ => Command.stop .endless
  | fuel + 1, some elt => do
    let c ← Command.get
    let tmp := nextIn (c.sets i).list elt
    dlDelete i elt
    let e ← entryAt elt
    if e.refbit = false then do
      hashDel i elt
      Command.modify fun c => c.withEntry elt none
    else do
      Command.modify fun c => c.withEntry elt (some { e with refbit := false })
      dlAppend i elt
      evict i fuel tmp

/-- Where `kvcacheset_put` makes room for a new entry. -/
def makeRoom (i : ℕ) : EntryM Unit := do
  let c ← Command.get
  if (c.sets i).numEntries < (c.sets i).elemPerSet then
    Command.modify fun c => c.withSet i { c.sets i with numEntries := (c.sets i).numEntries + 1 }
  else evict i ((c.sets i).list.length + 1) (c.sets i).list.head?

/-- **`kvcacheset_put`.** -/
def kvcachesetPut (i : ℕ) (key value : CString) (memory : ℕ) : EntryM Int := do
  let entry ← prepareEntry i key value memory
  let e ← entryAt entry
  if e.refbit = false then do
    makeRoom i
    dlAppend i entry
    hashAdd i entry
    pure 0
  else pure 0

/-- `kvcacheset_del`. -/
def kvcachesetDel (i : ℕ) (key : CString) : EntryM Int := do
  match ← hashFind i key with
  | none => pure errNoKey
  | some elt => do
    hashDel i elt
    dlDelete i elt
    Command.modify fun c => c.withEntry elt none
    Command.modify fun c => c.withSet i { c.sets i with numEntries := (c.sets i).numEntries - 1 }
    pure 0

/-! ## kvcache.c -/

/-- `kvcache_init`. -/
def kvcacheInit (numSets elemPerSet : ℕ) : Except Int EntryCache :=
  if numSets = 0 ∨ elemPerSet = 0 then .error (-1)
  else
    match kvcachesetInit elemPerSet with
    | .error _ => .error (-1)
    | .ok s => .ok ⟨numSets, fun _ => s, fun _ => none⟩

/-- The number of the set `get_cache_set` selects. -/
def setOf (c : EntryCache) (key : CString) : ℕ := hash key % 2 ^ 32 % c.numSets

/-- `kvcache_get`. -/
def kvcacheGet (key : CString) : EntryM (Except Int CString) := do
  let c ← Command.get
  if key.strlen > maxKeyLen then pure (.error errKeyLen)
  else kvcachesetGet (c.setOf key) key

/-- `kvcache_put`, with the address that `malloc` returns for an entry. -/
def kvcachePut (key value : CString) (memory : ℕ) : EntryM Int := do
  let c ← Command.get
  if key.strlen > maxKeyLen then pure errKeyLen
  else if value.strlen > maxValLen then pure errValLen
  else kvcachesetPut (c.setOf key) key value memory

/-- `kvcache_del`. -/
def kvcacheDel (key : CString) : EntryM Int := do
  let c ← Command.get
  if key.strlen > maxKeyLen then pure errKeyLen
  else kvcachesetDel (c.setOf key) key

/-! ## Entries that stand for a queue and an index -/

/-- **Entries in memory hold a queue and an index.** -/
structure Holds (entries : ℕ → Option CacheEntry) (list hash : List ℕ) (queue : List CString)
    (index : Finmap (fun _ : CString => KvCacheEntry)) : Prop where
  hash : hash.Perm list
  queue : list.map (keyAt entries) = queue.map some
  index : ∀ key e, index.lookup key = some e ↔
    ∃ a ∈ list, entries a = some ⟨key, e.value, e.refbit⟩

namespace Holds

variable {entries : ℕ → Option CacheEntry} {list hash : List ℕ} {queue : List CString}
  {index : Finmap (fun _ : CString => KvCacheEntry)}

/-- An entry of the list is in memory, and its key in the queue. -/
theorem exists_entry (h : Holds entries list hash queue index) {a : ℕ} (ha : a ∈ list) :
    ∃ e, entries a = some e ∧ e.key ∈ queue ∧ index.lookup e.key = some ⟨e.value, e.refbit⟩ := by
  have hkey : keyAt entries a ∈ queue.map some := h.queue ▸ List.mem_map_of_mem ha
  obtain ⟨key, hmem, hkey⟩ := List.mem_map.mp hkey
  obtain ⟨e, he, rfl⟩ := Option.map_eq_some_iff.mp hkey.symm
  exact ⟨e, he, hmem, (h.index _ _).mpr ⟨a, ha, he⟩⟩

theorem nodup_map (h : Holds entries list hash queue index) (hnodup : queue.Nodup) :
    (list.map (keyAt entries)).Nodup := by
  rw [h.queue]
  exact hnodup.map (Option.some_injective _)

theorem inj (h : Holds entries list hash queue index) (hnodup : queue.Nodup) {a b : ℕ}
    (ha : a ∈ list) (hb : b ∈ list) (hkey : keyAt entries a = keyAt entries b) : a = b :=
  List.inj_on_of_nodup_map (h.nodup_map hnodup) ha hb hkey

theorem nodup (h : Holds entries list hash queue index) (hnodup : queue.Nodup) : list.Nodup :=
  List.Nodup.of_map _ (h.nodup_map hnodup)

theorem congr (h : Holds entries list hash queue index) {entries' : ℕ → Option CacheEntry}
    (heq : ∀ a ∈ list, entries' a = entries a) : Holds entries' list hash queue index := by
  refine ⟨h.hash, ?_, fun key e => ?_⟩
  · rw [← h.queue]
    refine List.map_congr_left fun a ha => ?_
    unfold keyAt
    rw [heq a ha]
  · rw [h.index key e]
    refine exists_congr fun a => and_congr_right fun ha => ?_
    rw [heq a ha]

/-- **An entry is overwritten**, under the same key. -/
theorem overwrite (h : Holds entries list hash queue index) (hnodup : queue.Nodup) {a : ℕ}
    {e : CacheEntry} (ha : a ∈ list) (he : entries a = some e) (value : CString) (refbit : Bool) :
    Holds (Function.update entries a (some ⟨e.key, value, refbit⟩)) list hash queue
      (index.insert e.key ⟨value, refbit⟩) := by
  have hkeys : ∀ b, keyAt (Function.update entries a (some ⟨e.key, value, refbit⟩)) b =
      keyAt entries b := by
    intro b
    unfold keyAt
    by_cases hb : b = a
    · rw [hb, Function.update_self, he]
      rfl
    · rw [Function.update_of_ne hb]
  refine ⟨h.hash, ?_, fun key f => ?_⟩
  · rw [← h.queue]
    exact List.map_congr_left fun b _ => hkeys b
  by_cases hkey : key = e.key
  · rw [hkey, Finmap.lookup_insert]
    constructor
    · rintro ⟨⟩
      exact ⟨a, ha, Function.update_self ..⟩
    · rintro ⟨b, hb, hentry⟩
      have hba : b = a := by
        refine h.inj hnodup hb ha ?_
        rw [← hkeys b, keyAt, hentry, keyAt, he]
        rfl
      rw [hba, Function.update_self, Option.some.injEq] at hentry
      cases hentry
      rfl
  · rw [Finmap.lookup_insert_of_ne _ hkey, h.index key f]
    refine exists_congr fun b => and_congr_right fun _ => ?_
    by_cases hb : b = a
    · rw [hb, Function.update_self, he]
      refine iff_of_false ?_ ?_ <;>
      · rintro ⟨⟩
        exact hkey rfl
    · rw [Function.update_of_ne hb]

theorem rotate {a : ℕ} {key : CString} (h : Holds entries (a :: list) hash (key :: queue) index) :
    Holds entries (list ++ [a]) hash (queue ++ [key]) index := by
  have hperm : (list ++ [a]).Perm (a :: list) := List.perm_append_singleton a list
  refine ⟨h.hash.trans hperm.symm, ?_, fun k e => ?_⟩
  · have hqueue := h.queue
    rw [List.map_cons, List.map_cons, List.cons.injEq] at hqueue
    rw [List.map_append, List.map_append, hqueue.2, List.map_singleton, List.map_singleton,
      hqueue.1]
  · rw [h.index k e]
    exact exists_congr fun b => and_congr_left' hperm.mem_iff.symm

/-- Taking an element out before or after a map that tells it apart. -/
theorem map_erase_of_inj {α β : Type} [BEq α] [LawfulBEq α] [BEq β] [LawfulBEq β] {f : α → β}
    {a : α} :
    ∀ {l : List α}, (∀ b ∈ l, f b = f a → b = a) → (l.erase a).map f = (l.map f).erase (f a) := by
  intro l
  induction l with
  | nil => exact fun _ => rfl
  | cons b l ih =>
    intro hinj
    by_cases hb : b = a
    · rw [hb, List.erase_cons_head, List.map_cons, List.erase_cons_head]
    · have hf : f b ≠ f a := fun hf => hb (hinj b List.mem_cons_self hf)
      rw [List.erase_cons_tail (by simpa using hb), List.map_cons, List.map_cons,
        List.erase_cons_tail (by simpa using hf),
        ih fun c hc => hinj c (List.mem_cons_of_mem _ hc)]

/-- **An entry is taken out** of both structures, and its memory freed. -/
theorem erase (h : Holds entries list hash queue index) (hnodup : queue.Nodup) {a : ℕ}
    {e : CacheEntry} (ha : a ∈ list) (he : entries a = some e) :
    Holds (Function.update entries a none) (list.erase a) (hash.erase a) (queue.erase e.key)
      (index.erase e.key) := by
  have hlist := h.nodup hnodup
  have hsame : ∀ b ∈ list.erase a, Function.update entries a none b = entries b :=
    fun b hb => Function.update_of_ne (hlist.mem_erase_iff.mp hb).1 ..
  have hkeyAt : keyAt entries a = some e.key := by
    unfold keyAt
    rw [he]
    rfl
  have hleft : ∀ b ∈ list.erase a, keyAt entries b ≠ some e.key := by
    intro b hb hkey
    obtain ⟨hne, hb⟩ := hlist.mem_erase_iff.mp hb
    exact hne (h.inj hnodup hb ha (hkey.trans hkeyAt.symm))
  refine ⟨h.hash.erase a, ?_, fun key f => ?_⟩
  · calc (list.erase a).map (keyAt (Function.update entries a none))
        = (list.erase a).map (keyAt entries) := by
          refine List.map_congr_left fun b hb => ?_
          unfold keyAt
          rw [hsame b hb]
      _ = (list.map (keyAt entries)).erase (keyAt entries a) :=
          map_erase_of_inj fun b hb hkey => h.inj hnodup hb ha hkey
      _ = (queue.map some).erase (some e.key) := by rw [h.queue, hkeyAt]
      _ = (queue.erase e.key).map some :=
          (map_erase_of_inj fun _ _ heq => Option.some_injective _ heq).symm
  by_cases hkey : key = e.key
  · rw [hkey, Finmap.lookup_erase]
    refine iff_of_false (by simp) ?_
    rintro ⟨b, hb, hentry⟩
    refine hleft b hb ?_
    unfold keyAt
    rw [← hsame b hb, hentry]
    rfl
  · rw [Finmap.lookup_erase_ne hkey, h.index key f]
    constructor
    · rintro ⟨b, hb, hentry⟩
      have hne : b ≠ a := by
        rintro rfl
        rw [he] at hentry
        cases hentry
        exact hkey rfl
      have hb' : b ∈ list.erase a := hlist.mem_erase_iff.mpr ⟨hne, hb⟩
      exact ⟨b, hb', (hsame b hb').trans hentry⟩
    · rintro ⟨b, hb, hentry⟩
      exact ⟨b, List.mem_of_mem_erase hb, (hsame b hb).symm.trans hentry⟩

/-- **A new entry** at the end of both structures, under a key they do not have. -/
theorem append (h : Holds entries list hash queue index) {a : ℕ} {e : CacheEntry}
    (he : entries a = some e) (hnew : e.key ∉ index) :
    Holds entries (list ++ [a]) (hash ++ [a]) (queue ++ [e.key])
      (index.insert e.key ⟨e.value, e.refbit⟩) := by
  refine ⟨h.hash.append_right [a], ?_, fun key f => ?_⟩
  · have hkeyAt : keyAt entries a = some e.key := by
      unfold keyAt
      rw [he]
      rfl
    rw [List.map_append, List.map_append, h.queue, List.map_singleton, List.map_singleton, hkeyAt]
  have hsplit : (∃ b ∈ list ++ [a], entries b = some ⟨key, f.value, f.refbit⟩) ↔
      (∃ b ∈ list, entries b = some ⟨key, f.value, f.refbit⟩) ∨
        entries a = some ⟨key, f.value, f.refbit⟩ := by
    simp only [List.mem_append, List.mem_singleton, or_and_right, exists_or, exists_eq_left]
  rw [hsplit, ← h.index key f]
  by_cases hkey : key = e.key
  · rw [hkey, Finmap.lookup_insert, Finmap.lookup_eq_none.mpr hnew, he]
    constructor
    · rintro ⟨⟩
      exact .inr rfl
    · rintro (hnone | hentry)
      · cases hnone
      · rw [Option.some.inj hentry]
  · rw [Finmap.lookup_insert_of_ne _ hkey, he]
    refine (or_iff_left ?_).symm
    rintro ⟨⟩
    exact hkey rfl

/-- **The table finds the entry of a key**, or the index has none. -/
theorem find (h : Holds entries list hash queue index) (key : CString) :
    match hash.find? fun a => keyAt entries a = some key with
    | some a => a ∈ list ∧ ∃ e, entries a = some e ∧ e.key = key
    | none => index.lookup key = none := by
  cases hfind : hash.find? fun a => keyAt entries a = some key with
  | some a =>
    refine ⟨h.hash.mem_iff.mp (List.mem_of_find?_eq_some hfind), ?_⟩
    have hkey : keyAt entries a = some key := by simpa using List.find?_some hfind
    exact Option.map_eq_some_iff.mp hkey
  | none =>
    rw [Option.eq_none_iff_forall_ne_some]
    intro e he
    obtain ⟨a, ha, hentry⟩ := (h.index key e).mp he
    refine List.find?_eq_none.mp hfind a (h.hash.mem_iff.mpr ha) ?_
    unfold keyAt
    rw [hentry]
    simp

end Holds

/-! ## The functions do the same on both sides -/

/-- A set in memory represents a set of `KvCache`. -/
structure Represents (c : EntryCache) (i : ℕ) (cs : KvCacheSet) : Prop where
  elemPerSet : (c.sets i).elemPerSet = cs.elemPerSet
  numEntries : (c.sets i).numEntries = cs.numEntries
  holds : Holds c.entries (c.sets i).list (c.sets i).hash cs.queue cs.index

/-- What a function on one set leaves alone: the other sets, and the entries at addresses
other than these. -/
structure Keeps (c : EntryCache) (i : ℕ) (addresses : Set ℕ) (c' : EntryCache) : Prop where
  numSets : c'.numSets = c.numSets
  sets : ∀ j ≠ i, c'.sets j = c.sets j
  entries : ∀ a ∉ addresses, c'.entries a = c.entries a

/-- A command that ends, in a state with a property. -/
abbrev Does {α : Type} (c : EntryCache) (command : EntryM α) (Q : α → EntryCache → Prop) : Prop :=
  Command.Ensures (fun _ => False) c command Q

variable {c c' c'' : EntryCache} {i : ℕ} {addresses : Set ℕ}

@[simp]
theorem sets_withSet_self (c : EntryCache) (i : ℕ) (s : EntrySet) : (c.withSet i s).sets i = s :=
  Function.update_self ..

@[simp]
theorem entries_withSet (c : EntryCache) (i : ℕ) (s : EntrySet) :
    (c.withSet i s).entries = c.entries := rfl

@[simp]
theorem sets_withEntry (c : EntryCache) (a : ℕ) (e : Option CacheEntry) :
    (c.withEntry a e).sets = c.sets := rfl

@[simp]
theorem entries_withEntry (c : EntryCache) (a : ℕ) (e : Option CacheEntry) :
    (c.withEntry a e).entries = Function.update c.entries a e := rfl

namespace Keeps

theorem refl (c : EntryCache) (i : ℕ) (addresses : Set ℕ) : c.Keeps i addresses c :=
  ⟨rfl, fun _ _ => rfl, fun _ _ => rfl⟩

theorem withSet (h : c.Keeps i addresses c') (s : EntrySet) :
    c.Keeps i addresses (c'.withSet i s) := by
  refine ⟨h.numSets, fun j hj => ?_, h.entries⟩
  show Function.update c'.sets i s j = c.sets j
  rw [Function.update_of_ne hj, h.sets j hj]

theorem withEntry (h : c.Keeps i addresses c') {a : ℕ} (ha : a ∈ addresses)
    (e : Option CacheEntry) : c.Keeps i addresses (c'.withEntry a e) := by
  refine ⟨h.numSets, h.sets, fun b hb => ?_⟩
  show Function.update c'.entries a e b = c.entries b
  rw [Function.update_of_ne (ne_of_mem_of_not_mem ha hb).symm, h.entries b hb]

theorem trans (h : c.Keeps i addresses c') (h' : c'.Keeps i addresses c'') :
    c.Keeps i addresses c'' :=
  ⟨h'.numSets.trans h.numSets, fun j hj => (h'.sets j hj).trans (h.sets j hj),
    fun a ha => (h'.entries a ha).trans (h.entries a ha)⟩

theorem mono (h : c.Keeps i addresses c') {more : Set ℕ} (hsub : addresses ⊆ more) :
    c.Keeps i more c' :=
  ⟨h.numSets, h.sets, fun a ha => h.entries a fun hmem => ha (hsub hmem)⟩

end Keeps

theorem entryAt_apply {a : ℕ} {e : CacheEntry} (h : c.entries a = some e) :
    entryAt a c = .ok (e, c) := by
  unfold entryAt
  rw [Command.get_bind_apply]
  simp only [h]
  rfl

theorem hashDel_apply {a : ℕ} (h : a ∈ (c.sets i).hash) : hashDel i a c =
      .ok ((), c.withSet i { c.sets i with hash := (c.sets i).hash.erase a }) := by
  unfold hashDel
  rw [Command.get_bind_apply, if_pos h]
  rfl

theorem dlDelete_apply {a : ℕ} (h : a ∈ (c.sets i).list) : dlDelete i a c =
      .ok ((), c.withSet i { c.sets i with list := (c.sets i).list.erase a }) := by
  unfold dlDelete
  rw [Command.get_bind_apply, if_pos h]
  rfl

/-- The first entry of a list is taken out, loses its mark and goes to the back. -/
def spared (c : EntryCache) (i elt : ℕ) (e : CacheEntry) (rest : List ℕ) : EntryCache :=
  (c.withEntry elt (some { e with refbit := false })).withSet i
    { c.sets i with list := rest ++ [elt] }

theorem spared_eq {elt : ℕ} {e : CacheEntry} {rest : List ℕ}
    (hlist : (c.sets i).list = elt :: rest) :
    let c₁ := (c.withSet i { c.sets i with list := (c.sets i).list.erase elt }).withEntry elt
      (some { e with refbit := false })
    c₁.withSet i { c₁.sets i with list := (c₁.sets i).list ++ [elt] } = c.spared i elt e rest := by
  simp only [spared, withSet, withEntry, Function.update_self, Function.update_idem, hlist,
    List.erase_cons_head]

theorem Holds.spared {queue : List CString} {index : Finmap (fun _ : CString => KvCacheEntry)}
    {elt : ℕ} {e : CacheEntry} {rest : List ℕ}
    (h : Holds c.entries (c.sets i).list (c.sets i).hash (e.key :: queue) index)
    (hnodup : (e.key :: queue).Nodup) (hlist : (c.sets i).list = elt :: rest)
    (he : c.entries elt = some e) :
    Holds (c.spared i elt e rest).entries ((c.spared i elt e rest).sets i).list
      ((c.spared i elt e rest).sets i).hash (queue ++ [e.key])
      (index.insert e.key ⟨e.value, false⟩) := by
  have hmoved := h.overwrite hnodup (hlist ▸ List.mem_cons_self) he e.value false
  rw [hlist] at hmoved
  simpa [EntryCache.spared] using hmoved.rotate

/-- **The loop of the code is the eviction of `KvCache`**, and ends. Its element is the first
of the list at every round, since the one before has gone to the back. -/
theorem evict_spec (i : ℕ) (fuel : ℕ) : ∀ {c : EntryCache} {queue : List CString}
    {index : Finmap (fun _ : CString => KvCacheEntry)},
    Holds c.entries (c.sets i).list (c.sets i).hash queue index → queue.Nodup →
    queue.countP (entryMarked index) < fuel →
    c.Does (evict i fuel (c.sets i).list.head?) fun _ c' =>
      Holds c'.entries (c'.sets i).list (c'.sets i).hash (evictLoop fuel queue index).1
        (evictLoop fuel queue index).2 ∧
      (c'.sets i).elemPerSet = (c.sets i).elemPerSet ∧
      (c'.sets i).numEntries = (c.sets i).numEntries ∧
      c.Keeps i {a | a ∈ (c.sets i).list} c' := by
  induction fuel with
  | zero => exact fun _ _ hfuel => absurd hfuel (Nat.not_lt_zero _)
  | succ fuel ih =>
    intro c queue index h hnodup hfuel
    have hkeep := Keeps.refl c i {a | a ∈ (c.sets i).list}
    have hlength := congrArg List.length h.queue
    rw [List.length_map, List.length_map] at hlength
    cases hlist : (c.sets i).list with
    | nil =>
      rw [hlist, List.length_nil, eq_comm, List.length_eq_zero_iff] at hlength
      subst hlength
      exact .pure ⟨h, rfl, rfl, hlist ▸ hkeep⟩
    | cons elt rest =>
    have helt : elt ∈ (c.sets i).list := hlist ▸ List.mem_cons_self
    obtain ⟨e, he, -, hlookup⟩ := h.exists_entry helt
    obtain ⟨queue, rfl⟩ : ∃ queue', queue = e.key :: queue' := by
      have hqueue := h.queue
      rw [hlist, List.map_cons, keyAt, he] at hqueue
      obtain ⟨key, queue', rfl, hkey, -⟩ := List.map_eq_cons_iff.mp hqueue.symm
      cases hkey
      exact ⟨queue', rfl⟩
    have hnext : nextIn (c.sets i).list elt = rest.head? := hlist ▸ nextIn_cons elt rest
    rw [List.head?_cons]
    refine Command.Ensures.get_bind (Command.Ensures.bind_ok (dlDelete_apply helt)
      (Command.Ensures.bind_ok (entryAt_apply he) (Command.Ensures.ite ?_ ?_)))
    · intro href
      have hhash : elt ∈ (c.sets i).hash := h.hash.mem_iff.mpr helt
      refine Command.Ensures.bind_ok (hashDel_apply ?_) (Command.Ensures.modify ⟨?_, ?_, ?_, ?_⟩)
      · rw [sets_withSet_self]
        exact hhash
      · have hloop : evictLoop (fuel + 1) (e.key :: queue) index =
            (queue, index.erase e.key) := by
          rw [evictLoop, hlookup]
          exact if_pos href
        have hdone := h.erase hnodup helt he
        rw [List.erase_cons_head] at hdone
        rw [hloop]
        simpa using hdone
      · simp
      · simp
      · rw [← hlist]
        exact ((hkeep.withSet _).withSet _).withEntry helt none
    · intro href
      have hspared := h.spared hnodup hlist he
      have hsets : (c.spared i elt e rest).sets i = { c.sets i with list := rest ++ [elt] } :=
        sets_withSet_self ..
      have hkeeps : c.Keeps i {a | a ∈ elt :: rest} (c.spared i elt e rest) :=
        ((Keeps.refl c i _).withEntry List.mem_cons_self _).withSet _
      refine Command.Ensures.modify_bind (Command.Ensures.modify_bind ?_)
      rw [spared_eq hlist, hnext]
      cases rest with
      | nil =>
        -- The list has one entry, and the loop ends with it.
        rw [hlist, List.length_singleton, List.length_cons, eq_comm, Nat.add_eq_right,
          List.length_eq_zero_iff] at hlength
        subst hlength
        have hloop : evictLoop (fuel + 1) [e.key] index =
            ([e.key], index.insert e.key ⟨e.value, false⟩) := by
          rw [evictLoop, hlookup]
          exact (if_neg href).trans (if_pos rfl)
        have hend : evict i fuel none = pure () := by cases fuel <;> rfl
        rw [List.head?_nil, hend, hloop]
        exact .pure ⟨hspared, by rw [hsets], by rw [hsets], hkeeps⟩
      | cons next rest =>
        have hqueue : queue ≠ [] := by
          rintro rfl
          rw [hlist] at hlength
          cases hlength
        have hloop : evictLoop (fuel + 1) (e.key :: queue) index =
            evictLoop fuel (queue ++ [e.key]) (index.insert e.key ⟨e.value, false⟩) := by
          rw [evictLoop, hlookup]
          exact (if_neg href).trans (if_neg hqueue)
        have hperm : (queue ++ [e.key]).Perm (e.key :: queue) :=
          List.perm_append_singleton e.key queue
        have hmarks : (queue ++ [e.key]).countP
            (entryMarked (index.insert e.key ⟨e.value, false⟩)) < fuel := by
          rw [countP_entryMarked_insert (List.nodup_cons.mp hnodup).1 ⟨e.value, e.refbit⟩]
          have hmarked : entryMarked index e.key = true := by
            unfold entryMarked
            rw [hlookup]
            exact Bool.eq_true_of_not_eq_false href
          rw [List.countP_cons, if_pos hmarked] at hfuel
          exact Nat.lt_of_succ_lt_succ hfuel
        have hdoes := ih hspared (hperm.nodup_iff.mpr hnodup) hmarks
        rw [hsets] at hdoes
        refine hdoes.mono ?_
        rintro _ c' ⟨hholds, helem, hnum, hkeeps'⟩
        rw [hloop]
        refine ⟨hholds, helem, hnum, hkeeps.trans (hkeeps'.mono fun a ha => ?_)⟩
        exact (List.perm_append_singleton elt (next :: rest)).mem_iff.mp ha

/-- `HASH_FIND_STR` finds the entry of a key, and the index has it; or neither does. -/
theorem hashFind_spec {cs : KvCacheSet} (h : c.Represents i cs) (key : CString) :
    c.Does (hashFind i key) fun r c' => c' = c ∧
      match r with
      | none => cs.index.lookup key = none
      | some a => a ∈ (c.sets i).list ∧ ∃ e, c.entries a = some e ∧ e.key = key ∧
          cs.index.lookup key = some ⟨e.value, e.refbit⟩ := by
  refine Command.Ensures.get_bind (Command.Ensures.pure ⟨rfl, ?_⟩)
  have hfind := h.holds.find key
  cases hcase : (c.sets i).hash.find? fun a => keyAt c.entries a = some key with
  | none =>
    rw [hcase] at hfind
    exact hfind
  | some a =>
    rw [hcase] at hfind
    obtain ⟨ha, e, he, rfl⟩ := hfind
    exact ⟨ha, e, he, rfl, (h.holds.index _ _).mpr ⟨a, ha, he⟩⟩

theorem kvcachesetGet_spec {cs : KvCacheSet} (h : c.Represents i cs) (hok : cs.Tidy)
    (key : CString) : c.Does (kvcachesetGet i key) fun r c' => r = (Kv.kvcachesetGet cs key).1 ∧
      c'.Represents i (Kv.kvcachesetGet cs key).2 ∧ c.Keeps i {a | a ∈ (c.sets i).list} c' := by
  have hkeep := Keeps.refl c i {a | a ∈ (c.sets i).list}
  refine Command.Ensures.bind (hashFind_spec h key) ?_
  rintro (_ | a) _ ⟨rfl, hfound⟩
  · have hget : Kv.kvcachesetGet cs key = (.error errNoKey, cs) := by
      unfold Kv.kvcachesetGet
      rw [hfound]
    rw [hget]
    exact Command.Ensures.pure ⟨rfl, h, hkeep⟩
  · obtain ⟨ha, e, he, rfl, hlookup⟩ := hfound
    have hget : Kv.kvcachesetGet cs e.key =
        (.ok e.value, { cs with index := cs.index.insert e.key ⟨e.value, true⟩ }) := by
      unfold Kv.kvcachesetGet
      rw [hlookup]
    rw [hget]
    refine Command.Ensures.bind_ok (entryAt_apply he)
      (Command.Ensures.modify_bind (Command.Ensures.pure ⟨rfl, ?_, hkeep.withEntry ha _⟩))
    exact ⟨h.elemPerSet, h.numEntries, h.holds.overwrite hok.nodup ha he e.value true⟩

theorem kvcachesetDel_spec {cs : KvCacheSet} (h : c.Represents i cs) (hok : cs.Tidy)
    (key : CString) : c.Does (kvcachesetDel i key) fun r c' => r = (Kv.kvcachesetDel cs key).1 ∧
      c'.Represents i (Kv.kvcachesetDel cs key).2 ∧ c.Keeps i {a | a ∈ (c.sets i).list} c' := by
  have hkeep := Keeps.refl c i {a | a ∈ (c.sets i).list}
  refine Command.Ensures.bind (hashFind_spec h key) ?_
  rintro (_ | a) _ ⟨rfl, hfound⟩
  · have hdel : Kv.kvcachesetDel cs key = (errNoKey, cs) := by
      unfold Kv.kvcachesetDel
      rw [hfound]
    rw [hdel]
    exact Command.Ensures.pure ⟨rfl, h, hkeep⟩
  · obtain ⟨ha, e, he, rfl, hlookup⟩ := hfound
    have hdel : Kv.kvcachesetDel cs e.key =
        (0, { cs with
          numEntries := cs.numEntries - 1
          queue := cs.queue.erase e.key
          index := cs.index.erase e.key }) := by
      unfold Kv.kvcachesetDel
      rw [hlookup]
    rw [hdel]
    refine Command.Ensures.bind_ok (hashDel_apply (h.holds.hash.mem_iff.mpr ha))
      (Command.Ensures.bind_ok (dlDelete_apply ?_)
      (Command.Ensures.modify_bind (Command.Ensures.modify_bind (Command.Ensures.pure
        ⟨rfl, ⟨?_, ?_, ?_⟩, ?_⟩))))
    · rw [sets_withSet_self]
      exact ha
    · simpa using h.elemPerSet
    · simp [h.numEntries]
    · simpa using h.holds.erase hok.nodup ha he
    · exact (((hkeep.withSet _).withSet _).withEntry ha none).withSet _

/-- A set of `KvCache` with room for a new entry, which is already counted. -/
def roomFor (cs : KvCacheSet) : KvCacheSet :=
  if cs.numEntries < cs.elemPerSet then { cs with numEntries := cs.numEntries + 1 }
  else
    { cs with
      queue := (evictLoop (cs.queue.length + 1) cs.queue cs.index).1
      index := (evictLoop (cs.queue.length + 1) cs.queue cs.index).2 }

/-- A put of a new key goes in two steps. -/
theorem kvcachesetPut_of_new {cs : KvCacheSet} {key : CString} (value : CString)
    (hnone : cs.index.lookup key = none) : Kv.kvcachesetPut cs key value =
      (0, { roomFor cs with
        queue := (roomFor cs).queue ++ [key]
        index := (roomFor cs).index.insert key ⟨value, false⟩ }) := by
  unfold Kv.kvcachesetPut roomFor
  rw [hnone]
  dsimp only
  split <;> rfl

theorem notMem_roomFor {cs : KvCacheSet} (hok : cs.Tidy) {key : CString}
    (hnone : cs.index.lookup key = none) : key ∉ (roomFor cs).index := by
  have hnew : key ∉ cs.index := Finmap.lookup_eq_none.mp hnone
  unfold roomFor
  split
  case isTrue => exact hnew
  case isFalse =>
    obtain ⟨-, hsub, hsame⟩ :=
      evictLoop_tidy (cs.queue.length + 1) cs.queue cs.index hok.nodup hok.mem_queue
    exact fun hmem => hnew ((hok.mem_queue key).mp (hsub ((hsame key).mpr hmem)))

theorem makeRoom_spec {cs : KvCacheSet} (h : c.Represents i cs) (hok : cs.Tidy) :
    c.Does (makeRoom i) fun _ c' =>
      c'.Represents i (roomFor cs) ∧ c.Keeps i {a | a ∈ (c.sets i).list} c' := by
  unfold roomFor
  have hkeep := Keeps.refl c i {a | a ∈ (c.sets i).list}
  refine Command.Ensures.get_bind ?_
  rw [h.numEntries, h.elemPerSet]
  refine Command.Ensures.ite ?_ ?_
  · intro hroom
    rw [if_pos hroom]
    refine Command.Ensures.modify ⟨⟨?_, ?_, ?_⟩, hkeep.withSet _⟩
    · simpa using h.elemPerSet
    · simp [h.numEntries]
    · simpa using h.holds
  · intro hfull
    rw [if_neg hfull]
    have hlength : (c.sets i).list.length = cs.queue.length := by
      have hlength := congrArg List.length h.holds.queue
      rwa [List.length_map, List.length_map] at hlength
    rw [hlength]
    refine (evict_spec i _ h.holds hok.nodup (Nat.lt_succ_of_le List.countP_le_length)).mono ?_
    rintro _ c' ⟨hholds, helem, hnum, hkeeps⟩
    exact ⟨⟨helem.trans h.elemPerSet, hnum.trans h.numEntries, hholds⟩, hkeeps⟩

/-- **`kvcacheset_put` in memory**, with unused memory for an entry. -/
theorem kvcachesetPut_spec {cs : KvCacheSet} (h : c.Represents i cs) (hok : cs.Tidy)
    (key value : CString) {memory : ℕ} (hfresh : c.entries memory = none) :
    c.Does (kvcachesetPut i key value memory) fun r c' =>
      r = (Kv.kvcachesetPut cs key value).1 ∧
      c'.Represents i (Kv.kvcachesetPut cs key value).2 ∧
      c.Keeps i {a | a ∈ (c.sets i).list ∨ a = memory} c' := by
  have hkeep := Keeps.refl c i {a | a ∈ (c.sets i).list ∨ a = memory}
  have hprepare : c.Does (prepareEntry i key value memory) fun a c' =>
      (a ∈ (c.sets i).list ∧ ∃ e, c.entries a = some e ∧ e.key = key ∧
        cs.index.lookup key = some ⟨e.value, e.refbit⟩ ∧
        c' = c.withEntry a (some ⟨e.key, value, true⟩)) ∨
      (a = memory ∧ cs.index.lookup key = none ∧
        c' = c.withEntry memory (some ⟨key, value, false⟩)) := by
    refine Command.Ensures.bind (hashFind_spec h key) ?_
    rintro (_ | a) _ ⟨rfl, hfound⟩
    · exact Command.Ensures.modify_bind (Command.Ensures.pure (.inr ⟨rfl, hfound, rfl⟩))
    · obtain ⟨ha, e, he, hkey, hlookup⟩ := hfound
      exact Command.Ensures.bind_ok (entryAt_apply he) (Command.Ensures.modify_bind
        (Command.Ensures.pure (.inl ⟨ha, e, he, hkey, hlookup, rfl⟩)))
  refine Command.Ensures.bind hprepare ?_
  rintro a c₁ (⟨ha, e, he, rfl, hlookup, rfl⟩ | ⟨rfl, hnone, rfl⟩)
  · have hput : Kv.kvcachesetPut cs e.key value =
        (0, { cs with index := cs.index.insert e.key ⟨value, true⟩ }) := by
      unfold Kv.kvcachesetPut
      rw [hlookup]
    rw [hput]
    have hself : (c.withEntry a (some ⟨e.key, value, true⟩)).entries a =
        some ⟨e.key, value, true⟩ := Function.update_self ..
    refine Command.Ensures.bind_ok (entryAt_apply hself) (Command.Ensures.pure
      ⟨rfl, ?_, hkeep.withEntry (.inl ha) _⟩)
    exact ⟨h.elemPerSet, h.numEntries, h.holds.overwrite hok.nodup ha he value true⟩
  · rw [kvcachesetPut_of_new value hnone]
    set c₁ := c.withEntry a (some ⟨key, value, false⟩)
    have hself : c₁.entries a = some ⟨key, value, false⟩ := Function.update_self ..
    have hunused : a ∉ (c.sets i).list := by
      intro ha
      obtain ⟨e, he, -⟩ := h.holds.exists_entry ha
      rw [hfresh] at he
      cases he
    have h₁ : c₁.Represents i cs := ⟨h.elemPerSet, h.numEntries, h.holds.congr fun b hb =>
      Function.update_of_ne (ne_of_mem_of_not_mem hb hunused) ..⟩
    refine Command.Ensures.bind_ok (entryAt_apply hself)
      (Command.Ensures.bind (makeRoom_spec h₁ hok) ?_)
    rintro _ c₂ ⟨h₂, hkeep₂⟩
    have hentry : c₂.entries a = some ⟨key, value, false⟩ :=
      (hkeep₂.entries a hunused).trans hself
    refine Command.Ensures.modify_bind (Command.Ensures.modify_bind (Command.Ensures.pure
      ⟨rfl, ⟨?_, ?_, ?_⟩, ?_⟩))
    · simpa using h₂.elemPerSet
    · simpa using h₂.numEntries
    · simpa using h₂.holds.append hentry (notMem_roomFor hok hnone)
    · have hkeep₁ := (hkeep.withEntry (.inr rfl) (some ⟨key, value, false⟩)).trans
        (hkeep₂.mono fun b hb => Or.inl hb)
      exact (hkeep₁.withSet _).withSet _

end EntryCache

end Kv
