import Cs162.Numbered
import Cs162.KvMessage

/-!
# The persistent store

A `KvStore` keeps each entry in a file named by the hash of its key and a
position in the chain of that hash, `hash(key)-chainpos.entry`. Nothing
records how long a chain is: lookups probe the positions from `0` until a
file is missing, an insertion takes the first missing position, and a
deletion moves the last entry of the chain into the hole.

The functions are generic in the hash, since every result about them is;
the code's own is `hash`, the djb2 hash. `find_entry` takes the read lock
and gives it back before `kvstore_put` and `kvstore_del` take the write
lock, so the two halves are separate definitions here.

`ChainInv` is the representation invariant: per hash value, the files are
exactly a list of distinct keys with that hash, without a gap. Under it the
store is a finite map, `toMap`, and `findEntry`, `kvstorePut` and
`kvstoreDel` are its lookup, update and erasure.
-/

namespace Kv

/-- The int a `char` is promoted to, modulo `2^64`: bytes from `128` on are
negative. -/
def promoteChar (c : UInt8) : ℕ :=
  if c.toNat < 128 then c.toNat else 2 ^ 64 - 256 + c.toNat

/-- **The djb2 hash**, on unsigned 64-bit words. -/
def hash (str : CString) : ℕ :=
  str.bytes.foldl
    (fun hash c => (((hash <<< 5) + hash) + promoteChar c) % 2 ^ 64) 5381

/-- **An entry file** (`kventry_t`): the length of its data, and the data,
which is the key and the value, each with its terminator. -/
structure KvEntry where
  /-- The length of the data, terminators included. -/
  length : ℕ
  /-- The key and the value. -/
  data : List UInt8
  deriving DecidableEq

namespace KvEntry

/-- The entry `kvstore_put` writes. -/
def make (key value : CString) : KvEntry where
  length := key.strlen + value.strlen + 2
  data := key.stored ++ value.stored

/-- The bytes `find_entry` reads: as many as the header says. -/
def read (e : KvEntry) : List UInt8 := e.data.take e.length

/-- The key of an entry: the string at `entry->data`. -/
def key (e : KvEntry) : CString := CString.ofData e.read 0

/-- The value of an entry: the string after the key. -/
def value (e : KvEntry) : CString := CString.ofData e.read (e.key.strlen + 1)

@[simp] theorem read_make (k v : CString) : (make k v).read = k.stored ++ v.stored := by
  refine List.take_of_length_le ?_
  show (k.stored ++ v.stored).length ≤ k.strlen + v.strlen + 2
  rw [List.length_append, CString.length_stored, CString.length_stored]
  omega

@[simp] theorem key_make (k v : CString) : (make k v).key = k := by
  rw [key, read_make, CString.ofData_stored]

@[simp] theorem value_make (k v : CString) : (make k v).value = v := by
  rw [value, key_make, read_make, CString.ofData_stored_append]

end KvEntry

/-- **A store**: whether its directory exists, and its entry files, named by
a hash value and a chain position. -/
structure KvStore where
  /-- Whether the directory of the store exists. -/
  dirExists : Bool
  /-- The entry files. -/
  files : Finmap (fun _ : ℕ × ℕ => KvEntry)

namespace KvStore

/-- The chain of a hash value: its files by position. -/
def chain (s : KvStore) (h i : ℕ) : Option KvEntry := s.files.lookup (h, i)

/-- Enough probes for any chain: a chain has no more entries than the store
has files. -/
def fuel (s : KvStore) : ℕ := s.files.keys.card + 1

end KvStore

/-- `kvstore_init`: the directory is created where it does not exist, and
kept with its files where it does. -/
def kvstoreInit (s : KvStore) : KvStore := { s with dirExists := true }

section

variable (hash : CString → ℕ)

/-- **`find_entry`**: the position and the value of the entry with the given
key, or an error code. -/
def findEntry (s : KvStore) (key : CString) : Except Int (ℕ × CString) :=
  if key.strlen > maxKeyLen then .error errKeyLen
  else if s.dirExists = false then .error errFilAccess
  else
    match Numbered.findFrom (s.chain (hash key)) (fun e => key = e.key) s.fuel 0 with
    | some (counter, e) => .ok (counter, e.value)
    | none => .error errNoKey

/-- `kvstore_haskey`. -/
def kvstoreHaskey (s : KvStore) (key : CString) : Bool :=
  (findEntry hash s key).toBool

/-- `kvstore_get`. -/
def kvstoreGet (s : KvStore) (key : CString) : Except Int CString :=
  (findEntry hash s key).map Prod.snd

/-- `kvstore_put_check`. -/
def kvstorePutCheck (s : KvStore) (key value : CString) : Int :=
  if key.strlen > maxKeyLen then errKeyLen
  else if value.strlen > maxValLen then errValLen
  else if s.dirExists = false then errFilAccess
  else 0

/-- The half of `kvstore_put` under the write lock: overwrite the entry at
the position `find_entry` returned, or write at the end of the chain. -/
def kvstorePutAt (s : KvStore) (key value : CString)
    (found : Except Int (ℕ × CString)) : KvStore :=
  let counter := match found with
    | .ok (counter, _) => counter
    | .error _ => Numbered.firstFree (s.chain (hash key)) s.fuel 0
  { s with files := s.files.insert (hash key, counter) (KvEntry.make key value) }

/-- **`kvstore_put`**. -/
def kvstorePut (s : KvStore) (key value : CString) : Int × KvStore :=
  let check := kvstorePutCheck s key value
  if check < 0 then (check, s)
  else (0, kvstorePutAt hash s key value (findEntry hash s key))

/-- `kvstore_del_check`. -/
def kvstoreDelCheck (s : KvStore) (key : CString) : Int :=
  if key.strlen > maxKeyLen then errKeyLen
  else if s.dirExists = false then errFilAccess
  else if kvstoreHaskey hash s key = false then errNoKey
  else 0

/-- The half of `kvstore_del` under the write lock: remove the file at the
position `find_entry` returned, and move the last entry of the chain there
if it is another one. -/
def kvstoreDelAt (s : KvStore) (key : CString) (chainpos : ℕ) : Int × KvStore :=
  let h := hash key
  let counter := Numbered.firstFree (s.chain h) s.fuel (chainpos + 1)
  if counter = chainpos + 1 then
    match s.chain h chainpos with
    | none => (enoent, s)
    | some _ => (0, { s with files := s.files.erase (h, chainpos) })
  else
    match s.chain h (counter - 1) with
    | none => (enoent, s)
    | some e =>
      (0, { s with files :=
              (s.files.erase (h, counter - 1)).insert (h, chainpos) e })

/-- **`kvstore_del`**. -/
def kvstoreDel (s : KvStore) (key : CString) : Int × KvStore :=
  match findEntry hash s key with
  | .error e => (e, s)
  | .ok (chainpos, _) => kvstoreDelAt hash s key chainpos

/-! ## The map a store represents -/

/-- **The map a store represents**: what the probe of `find_entry` finds. -/
def KvStore.toMap (s : KvStore) (key : CString) : Option CString :=
  (Numbered.findFrom (s.chain (hash key)) (fun e => key = e.key) s.fuel 0).map
    (fun r => r.2.value)

/-- **The representation invariant.** `chains` lists, per hash value, the
keys and values of the chain in order: the files are exactly those entries,
every key has the hash of its chain, and no key occurs twice. -/
structure ChainInv (s : KvStore) (chains : ℕ → List (CString × CString)) : Prop where
  /-- The files of a hash value are its chain, without a gap. -/
  holds : ∀ h, Numbered.Holds (s.chain h)
    ((chains h).map (fun p => KvEntry.make p.1 p.2))
  /-- Every entry sits in the chain of its key's hash. -/
  hashed : ∀ h, ∀ p ∈ chains h, hash p.1 = h
  /-- No key occurs twice. -/
  nodup : ∀ h, ((chains h).map Prod.fst).Nodup

/-- **A well-formed store**: its directory exists and its files form complete
chains. -/
def KvStore.WF (s : KvStore) : Prop :=
  s.dirExists = true ∧ ∃ chains, ChainInv hash s chains

variable {hash} {s : KvStore} {chains : ℕ → List (CString × CString)}

/-- **A store without files** is well formed once initialised, and represents
the empty map. -/
theorem kvstoreInit_of_files_empty (h : s.files = ∅) :
    (kvstoreInit s).WF hash ∧ (kvstoreInit s).toMap hash = fun _ => none := by
  have hchain : ∀ k i, (kvstoreInit s).chain k i = none := by
    intro k i
    show s.files.lookup (k, i) = none
    rw [h]
    rfl
  refine ⟨⟨rfl, fun _ => [], fun k i => hchain k i, ?_, ?_⟩, ?_⟩
  · intro k p hp
    cases hp
  · exact fun _ => List.nodup_nil
  · funext key
    unfold KvStore.toMap KvStore.fuel
    rw [Numbered.findFrom, hchain]
    rfl

namespace ChainInv

/-- A chain has fewer entries than the probes are given fuel. -/
theorem length_lt_fuel (hc : ChainInv hash s chains) (h : ℕ) : (chains h).length < s.fuel := by
  have hinj : Function.Injective (fun i : ℕ => (h, i)) :=
    fun i j hij => congrArg Prod.snd hij
  have hle := (show Numbered.Holds (fun i => s.files.lookup (h, i)) _ from
    hc.holds h).length_le_card hinj
  rw [List.length_map] at hle
  exact Nat.lt_succ_of_le hle

/-- The end of a chain is found by probing, from any position in it. -/
theorem firstFree_chain (hc : ChainInv hash s chains) (h : ℕ) {i : ℕ} (hi : i ≤ (chains h).length) :
    Numbered.firstFree (s.chain h) s.fuel i = (chains h).length := by
  have hlt := hc.length_lt_fuel h
  have := (hc.holds h).firstFree_eq s.fuel i (by rwa [List.length_map])
    (by rw [List.length_map]; omega)
  rwa [List.length_map] at this

theorem eq_of_key_eq (hc : ChainInv hash s chains) {h : ℕ}
    {p q : CString × CString} (hp : p ∈ chains h) (hq : q ∈ chains h) (hk : p.1 = q.1) : p = q :=
  List.inj_on_of_nodup_map (hc.nodup h) hp hq hk

/-- **What the probe of `find_entry` returns**: a position of the chain, with
the entry of the key there. -/
theorem findFrom_some (hc : ChainInv hash s chains) {key : CString} {r : ℕ × KvEntry}
    (hr : Numbered.findFrom (s.chain (hash key)) (fun e => key = e.key) s.fuel 0
      = some r) : (chains (hash key))[r.1]? = some (key, r.2.value) := by
  obtain ⟨hget, hkey⟩ := (hc.holds (hash key)).findFrom_eq_some _ _ _ hr
  rw [List.getElem?_map, Option.map_eq_some_iff] at hget
  obtain ⟨p, hp, hpe⟩ := hget
  rw [decide_eq_true_eq, ← hpe, KvEntry.key_make] at hkey
  rw [hp, ← hpe, KvEntry.value_make, hkey]

/-- **The map of a store is read off its chains.** -/
theorem toMap_eq_some_iff (hc : ChainInv hash s chains) {key value : CString} :
    s.toMap hash key = some value ↔ (key, value) ∈ chains (hash key) := by
  unfold KvStore.toMap
  rw [Option.map_eq_some_iff]
  constructor
  · rintro ⟨r, hr, rfl⟩
    exact List.mem_of_getElem? (hc.findFrom_some hr)
  · intro hmem
    obtain ⟨j, hj⟩ := List.getElem?_of_mem hmem
    have hj' : ((chains (hash key)).map (fun p => KvEntry.make p.1 p.2))[j]?
        = some (KvEntry.make key value) := by
      rw [List.getElem?_map, hj]
      rfl
    obtain ⟨r, hr⟩ := (hc.holds (hash key)).exists_findFrom
      (fun e => key = e.key) s.fuel
      (by rw [List.length_map]; exact hc.length_lt_fuel _) hj' (by simp)
    refine ⟨r, hr, ?_⟩
    have hmem' := List.mem_of_getElem? (hc.findFrom_some hr)
    exact congrArg Prod.snd (hc.eq_of_key_eq hmem' hmem rfl)

/-- A key the map does not have is in no entry of its chain. -/
theorem toMap_eq_none_iff (hc : ChainInv hash s chains) {key : CString} :
    s.toMap hash key = none ↔ key ∉ (chains (hash key)).map Prod.fst := by
  rw [Option.eq_none_iff_forall_ne_some]
  constructor
  · intro h hmem
    obtain ⟨p, hp, rfl⟩ := List.mem_map.mp hmem
    exact h p.2 (hc.toMap_eq_some_iff.mpr hp)
  · intro h value hv
    exact h (List.mem_map.mpr ⟨_, hc.toMap_eq_some_iff.mp hv, rfl⟩)

/-- The map after a change that rewrites one chain: a key of another hash is
read as before. -/
theorem toMap_update_of_ne {s' : KvStore} {h : ℕ} {l : List (CString × CString)}
    (hc : ChainInv hash s chains)
    (hc' : ChainInv hash s' (Function.update chains h l)) {key : CString}
    (hne : hash key ≠ h) : s'.toMap hash key = s.toMap hash key := by
  refine Option.ext (fun value => ?_)
  rw [hc'.toMap_eq_some_iff, hc.toMap_eq_some_iff, Function.update_of_ne hne]

/-- Rewriting the files of one hash value keeps the invariant, where the new
chain is well formed. -/
theorem update (hc : ChainInv hash s chains) {s' : KvStore} (h : ℕ) {l : List (CString × CString)}
    (hother : ∀ h' i, h' ≠ h → s'.chain h' i = s.chain h' i)
    (hholds : Numbered.Holds (s'.chain h) (l.map (fun p => KvEntry.make p.1 p.2)))
    (hhash : ∀ p ∈ l, hash p.1 = h) (hnd : (l.map Prod.fst).Nodup) :
    ChainInv hash s' (Function.update chains h l) where
  holds h' := by
    by_cases hh : h' = h
    · subst hh
      rwa [Function.update_self]
    · rw [Function.update_of_ne hh]
      intro i
      rw [hother h' i hh]
      exact hc.holds h' i
  hashed h' := by
    by_cases hh : h' = h
    · subst hh
      rwa [Function.update_self]
    · rw [Function.update_of_ne hh]
      exact hc.hashed h'
  nodup h' := by
    by_cases hh : h' = h
    · subst hh
      rwa [Function.update_self]
    · rw [Function.update_of_ne hh]
      exact hc.nodup h'

end ChainInv

/-! ## Lookup -/

/-- **`find_entry` looks the key up in the map.** -/
theorem findEntry_map (key : CString) (hlen : key.strlen ≤ maxKeyLen) (hdir : s.dirExists = true) :
    (findEntry hash s key).map Prod.snd
      = match s.toMap hash key with
        | some value => .ok value
        | none => .error errNoKey := by
  unfold findEntry KvStore.toMap
  rw [if_neg (by omega), if_neg (by rw [hdir]; simp)]
  cases Numbered.findFrom (s.chain (hash key)) (fun e => key = e.key) s.fuel 0 <;> rfl

/-- A key the map has is found, at its position in the chain. -/
theorem findEntry_of_some (hc : ChainInv hash s chains) (hdir : s.dirExists = true)
    {key value : CString} (hlen : key.strlen ≤ maxKeyLen) (hm : s.toMap hash key = some value) :
    ∃ pos, findEntry hash s key = .ok (pos, value)
      ∧ (chains (hash key))[pos]? = some (key, value) := by
  obtain ⟨r, hr, rfl⟩ := Option.map_eq_some_iff.mp hm
  refine ⟨r.1, ?_, hc.findFrom_some hr⟩
  unfold findEntry
  rw [if_neg (by omega), if_neg (by rw [hdir]; simp), hr]

theorem findEntry_of_none {key : CString} (hdir : s.dirExists = true)
    (hlen : key.strlen ≤ maxKeyLen) (hm : s.toMap hash key = none) :
    findEntry hash s key = .error errNoKey := by
  unfold findEntry
  rw [if_neg (by omega), if_neg (by rw [hdir]; simp), Option.map_eq_none_iff.mp hm]

theorem findEntry_of_long {key : CString} (hlen : maxKeyLen < key.strlen) :
    findEntry hash s key = .error errKeyLen := by
  rw [findEntry, if_pos hlen]

theorem kvstoreHaskey_eq (hc : ChainInv hash s chains) (hdir : s.dirExists = true)
    {key : CString} (hlen : key.strlen ≤ maxKeyLen) :
    kvstoreHaskey hash s key = (s.toMap hash key).isSome := by
  unfold kvstoreHaskey
  cases hm : s.toMap hash key with
  | none => rw [findEntry_of_none hdir hlen hm]; rfl
  | some value =>
    obtain ⟨pos, hpos, -⟩ := findEntry_of_some hc hdir hlen hm
    rw [hpos]
    rfl

/-! ## Update -/

/-- `kvstore_put_check` accepts exactly the keys and values within the
limits, while the directory exists. -/
theorem kvstorePutCheck_eq_zero_iff (hdir : s.dirExists = true) {key value : CString} :
    kvstorePutCheck s key value = 0
      ↔ key.strlen ≤ maxKeyLen ∧ value.strlen ≤ maxValLen := by
  unfold kvstorePutCheck
  rw [hdir]
  by_cases hk : key.strlen > maxKeyLen
  · simp only [hk, if_true]
    exact ⟨fun h => absurd h (by decide), fun h => absurd h.1 (by omega)⟩
  · by_cases hv : value.strlen > maxValLen
    · simp only [hk, hv, if_true, if_false]
      exact ⟨fun h => absurd h (by decide), fun h => absurd h.2 (by omega)⟩
    · simp only [hk, hv, if_false, Bool.true_eq_false, true_iff]
      omega

theorem kvstorePutCheck_neg_iff {key value : CString} :
    kvstorePutCheck s key value < 0 ↔ kvstorePutCheck s key value ≠ 0 := by
  unfold kvstorePutCheck
  split
  · decide
  · split
    · decide
    · split
      · decide
      · simp

/-- The write of `kvstore_put` puts the entry in the chain of its key: over
the entry of the key where there is one, at the end otherwise. -/
theorem chainInv_kvstorePutAt (hc : ChainInv hash s chains)
    (hdir : s.dirExists = true) {key : CString} (hlen : key.strlen ≤ maxKeyLen) (value : CString) :
    ∃ l, ChainInv hash (kvstorePutAt hash s key value (findEntry hash s key))
        (Function.update chains (hash key) l)
      ∧ ∀ p : CString × CString,
        p ∈ l ↔ p = (key, value) ∨ p ∈ chains (hash key) ∧ p.1 ≠ key := by
  have hother : ∀ (pos h' i : ℕ), h' ≠ hash key →
      (s.files.insert (hash key, pos) (KvEntry.make key value)).lookup (h', i)
        = s.files.lookup (h', i) :=
    fun pos h' i hne => Finmap.lookup_insert_of_ne _
      (fun he => hne (congrArg Prod.fst he))
  have hslot : ∀ pos j : ℕ,
      (s.files.insert (hash key, pos) (KvEntry.make key value)).lookup (hash key, j)
        = if j = pos then some (KvEntry.make key value)
          else s.chain (hash key) j := by
    intro pos j
    split
    · rename_i hj
      rw [hj, Finmap.lookup_insert]
    · rename_i hj
      exact Finmap.lookup_insert_of_ne _ (fun he => hj (congrArg Prod.snd he))
  cases hm : s.toMap hash key with
  | some old =>
    -- the key is there: its entry is overwritten in place
    obtain ⟨pos, hfind, hpos⟩ := findEntry_of_some hc hdir hlen hm
    have hlt := (List.getElem?_eq_some_iff.mp hpos).1
    refine ⟨(chains (hash key)).set pos (key, value), ?_,
      Numbered.mem_set_iff (hc.nodup _) hpos value⟩
    rw [hfind]
    refine hc.update (hash key) (hother pos) ?_ ?_ ?_
    · rw [List.map_set]
      exact (hc.holds (hash key)).set (by rwa [List.length_map]) _ (hslot pos)
    · intro p hp
      rcases List.mem_or_eq_of_mem_set hp with hp | rfl
      · exact hc.hashed _ p hp
      · rfl
    · rw [Numbered.map_fst_set hpos]
      exact hc.nodup _
  | none =>
    -- the key is new: the entry goes to the first free position
    have hnew := hc.toMap_eq_none_iff.mp hm
    refine ⟨chains (hash key) ++ [(key, value)], ?_, fun p => ?_⟩
    · rw [findEntry_of_none hdir hlen hm]
      have hend := hc.firstFree_chain (hash key) (Nat.zero_le _)
      refine hc.update (hash key) (hother _) ?_ ?_ ?_
      · rw [List.map_append]
        refine (hc.holds (hash key)).append _ (fun j => ?_)
        rw [List.length_map, ← hend]
        exact hslot _ j
      · intro p hp
        rcases List.mem_append.mp hp with hp | hp
        · exact hc.hashed _ p hp
        · rw [List.mem_singleton.mp hp]
      · rw [List.map_append]
        refine (hc.nodup _).append (List.nodup_singleton _) ?_
        intro k hk hk'
        rw [List.map_cons, List.map_nil, List.mem_singleton] at hk'
        rw [hk'] at hk
        exact hnew hk
    · rw [List.mem_append, List.mem_singleton]
      constructor
      · rintro (hp | rfl)
        · refine Or.inr ⟨hp, fun hkey => hnew ?_⟩
          exact List.mem_map.mpr ⟨p, hp, hkey⟩
        · exact Or.inl rfl
      · rintro (rfl | ⟨hp, -⟩)
        · exact Or.inr rfl
        · exact Or.inl hp

/-- **`kvstore_put` updates the map.** -/
theorem kvstorePut_spec (hwf : s.WF hash) {key value : CString}
    (hcheck : kvstorePutCheck s key value = 0) : (kvstorePut hash s key value).1 = 0
      ∧ (kvstorePut hash s key value).2.WF hash
      ∧ (kvstorePut hash s key value).2.toMap hash
        = Function.update (s.toMap hash) key (some value) := by
  obtain ⟨hdir, chains, hc⟩ := hwf
  have hlen := ((kvstorePutCheck_eq_zero_iff hdir).mp hcheck).1
  obtain ⟨l, hc', hl⟩ := chainInv_kvstorePutAt hc hdir hlen value
  have hput : kvstorePut hash s key value
      = (0, kvstorePutAt hash s key value (findEntry hash s key)) := by
    unfold kvstorePut
    simp only [hcheck, lt_self_iff_false, if_false]
  rw [hput]
  refine ⟨rfl, ⟨hdir, _, hc'⟩, ?_⟩
  funext k
  by_cases hk : k = key
  · subst hk
    rw [Function.update_self, hc'.toMap_eq_some_iff, Function.update_self, hl]
    exact Or.inl rfl
  · rw [Function.update_of_ne hk]
    by_cases hh : hash k = hash key
    · refine Option.ext (fun v => ?_)
      rw [hc'.toMap_eq_some_iff, hc.toMap_eq_some_iff, hh, Function.update_self, hl]
      constructor
      · rintro (he | ⟨hp, -⟩)
        · exact absurd (congrArg Prod.fst he) hk
        · exact hp
      · exact fun hp => Or.inr ⟨hp, hk⟩
    · exact hc.toMap_update_of_ne hc' hh

/-- A `kvstore_put` that fails its check changes nothing. -/
theorem kvstorePut_of_check_ne {key value : CString} (hcheck : kvstorePutCheck s key value ≠ 0) :
    kvstorePut hash s key value = (kvstorePutCheck s key value, s) := by
  unfold kvstorePut
  rw [if_pos (kvstorePutCheck_neg_iff.mpr hcheck)]

/-- **Putting a pair the store already holds rewrites the same file with the
same bytes.** -/
theorem kvstorePut_of_toMap_eq (hwf : s.WF hash) {key value : CString}
    (hcheck : kvstorePutCheck s key value = 0)
    (hm : s.toMap hash key = some value) : (kvstorePut hash s key value).2 = s := by
  obtain ⟨hdir, chains, hc⟩ := hwf
  have hlen := ((kvstorePutCheck_eq_zero_iff hdir).mp hcheck).1
  obtain ⟨pos, hfind, hpos⟩ := findEntry_of_some hc hdir hlen hm
  have hfile : s.files.lookup (hash key, pos) = some (KvEntry.make key value) := by
    have := hc.holds (hash key) pos
    rwa [List.getElem?_map, hpos] at this
  have hsame : s.files.insert (hash key, pos) (KvEntry.make key value) = s.files := by
    refine Finmap.ext_lookup (fun name => ?_)
    by_cases hname : name = (hash key, pos)
    · rw [hname, Finmap.lookup_insert, hfile]
    · exact Finmap.lookup_insert_of_ne _ hname
  unfold kvstorePut
  simp only [hcheck, lt_self_iff_false, if_false]
  unfold kvstorePutAt
  rw [hfind]
  dsimp only
  rw [hsame]

/-! ## Deletion -/

/-- `kvstore_del_check` accepts exactly the keys within the limit that the
map has. -/
theorem kvstoreDelCheck_eq_zero_iff (hwf : s.WF hash) {key : CString} :
    kvstoreDelCheck hash s key = 0
      ↔ key.strlen ≤ maxKeyLen ∧ (s.toMap hash key).isSome := by
  obtain ⟨hdir, chains, hc⟩ := hwf
  unfold kvstoreDelCheck
  rw [hdir]
  by_cases hk : key.strlen > maxKeyLen
  · rw [if_pos hk]
    exact ⟨fun h => absurd h (by decide), fun h => absurd h.1 (by omega)⟩
  · have hlen : key.strlen ≤ maxKeyLen := by omega
    rw [if_neg hk, if_neg (by simp), kvstoreHaskey_eq hc hdir hlen]
    cases hm : s.toMap hash key with
    | none =>
      rw [if_pos (by simp)]
      exact ⟨fun h => absurd h (by decide), fun h => absurd h.2 (by simp)⟩
    | some value => simp [hlen]

/-- Removing an entry leaves the chain without its key. -/
theorem chainInv_kvstoreDelAt (hc : ChainInv hash s chains) {key value : CString} {pos : ℕ}
    (hpos : (chains (hash key))[pos]? = some (key, value)) : (kvstoreDelAt hash s key pos).1 = 0
      ∧ (kvstoreDelAt hash s key pos).2.dirExists = s.dirExists
      ∧ ChainInv hash (kvstoreDelAt hash s key pos).2
        (Function.update chains (hash key)
          (Numbered.swapRemove (chains (hash key)) pos)) := by
  have hlt := (List.getElem?_eq_some_iff.mp hpos).1
  have hslot : ∀ j, s.chain (hash key) j
      = ((chains (hash key)).map (fun p => KvEntry.make p.1 p.2))[j]? :=
    hc.holds (hash key)
  have hhash : ∀ p ∈ Numbered.swapRemove (chains (hash key)) pos,
      hash p.1 = hash key := fun p hp =>
    hc.hashed _ p ((Numbered.mem_swapRemove_iff (hc.nodup _) hpos p).mp hp).1
  have hnd := Numbered.nodup_swapRemove (hc.nodup (hash key)) hlt
  unfold kvstoreDelAt
  dsimp only
  rw [hc.firstFree_chain (hash key) hlt]
  by_cases hlast : (chains (hash key)).length = pos + 1
  · -- the entry is the last of its chain, and its file is removed
    rw [if_pos hlast, hslot pos, List.getElem?_map, hpos]
    refine ⟨rfl, rfl, hc.update (hash key) ?_ ?_ hhash hnd⟩
    · intro h' i hne
      exact Finmap.lookup_erase_ne (fun he => hne (congrArg Prod.fst he))
    · rw [Numbered.swapRemove_last _ hlast.symm, List.map_dropLast]
      refine (hc.holds (hash key)).dropLast (fun j => ?_)
      rw [List.length_map, hlast]
      show (s.files.erase (hash key, pos)).lookup (hash key, j) = _
      by_cases hj : j = pos
      · rw [if_pos (by omega), hj, Finmap.lookup_erase]
      · rw [if_neg (by omega)]
        exact Finmap.lookup_erase_ne (fun he => hj (congrArg Prod.snd he))
  · -- the last entry of the chain is moved into the hole
    have hlt' : pos + 1 < (chains (hash key)).length := by omega
    have hmoved := hslot ((chains (hash key)).length - 1)
    rw [List.getElem?_map, List.getElem?_eq_getElem (by omega)] at hmoved
    rw [if_neg hlast, hmoved]
    dsimp only [Option.map_some]
    refine ⟨rfl, rfl, hc.update (hash key) ?_ ?_ hhash hnd⟩
    · intro h' i hne
      refine (Finmap.lookup_insert_of_ne _ (fun he => hne (congrArg Prod.fst he))).trans ?_
      exact Finmap.lookup_erase_ne (fun he => hne (congrArg Prod.fst he))
    · rw [← Numbered.swapRemove_map]
      refine (hc.holds (hash key)).swapRemove (by rwa [List.length_map]) (fun j => ?_)
      rw [List.length_map, hmoved]
      by_cases hj : j = pos
      · rw [if_pos hj, hj]
        exact Finmap.lookup_insert _
      · rw [if_neg hj]
        refine (Finmap.lookup_insert_of_ne _ (fun he => hj (congrArg Prod.snd he))).trans ?_
        by_cases hj' : j = (chains (hash key)).length - 1
        · rw [if_pos hj', hj']
          exact Finmap.lookup_erase _ _
        · rw [if_neg hj']
          exact Finmap.lookup_erase_ne (fun he => hj' (congrArg Prod.snd he))

/-- **`kvstore_del` erases the key from the map**, where it is there. -/
theorem kvstoreDel_spec (hwf : s.WF hash) {key : CString}
    (hcheck : kvstoreDelCheck hash s key = 0) : (kvstoreDel hash s key).1 = 0
      ∧ (kvstoreDel hash s key).2.WF hash
      ∧ (kvstoreDel hash s key).2.toMap hash
        = Function.update (s.toMap hash) key none := by
  obtain ⟨hlen, hsome⟩ := (kvstoreDelCheck_eq_zero_iff hwf).mp hcheck
  obtain ⟨hdir, chains, hc⟩ := hwf
  obtain ⟨value, hm⟩ := Option.isSome_iff_exists.mp hsome
  obtain ⟨pos, hfind, hpos⟩ := findEntry_of_some hc hdir hlen hm
  obtain ⟨hret, hdir', hc'⟩ := chainInv_kvstoreDelAt hc hpos
  have hmem := Numbered.mem_swapRemove_iff (hc.nodup (hash key)) hpos
  unfold kvstoreDel
  rw [hfind]
  refine ⟨hret, ⟨hdir'.trans hdir, _, hc'⟩, ?_⟩
  funext k
  by_cases hk : k = key
  · subst hk
    rw [Function.update_self, Option.eq_none_iff_forall_ne_some]
    intro v hv
    rw [hc'.toMap_eq_some_iff, Function.update_self, hmem] at hv
    exact hv.2 rfl
  · rw [Function.update_of_ne hk]
    by_cases hh : hash k = hash key
    · refine Option.ext (fun v => ?_)
      rw [hc'.toMap_eq_some_iff, hc.toMap_eq_some_iff, hh, Function.update_self, hmem]
      exact and_iff_left hk
    · exact hc.toMap_update_of_ne hc' hh

/-- Where the key is not there, `kvstore_del` changes nothing. -/
theorem kvstoreDel_of_check_ne (hwf : s.WF hash) {key : CString}
    (hcheck : kvstoreDelCheck hash s key ≠ 0) : (kvstoreDel hash s key).2 = s := by
  rw [Ne, kvstoreDelCheck_eq_zero_iff hwf, not_and, Option.not_isSome_iff_eq_none] at hcheck
  unfold kvstoreDel
  by_cases hlen : key.strlen ≤ maxKeyLen
  · rw [findEntry_of_none hwf.1 hlen (hcheck hlen)]
  · rw [findEntry_of_long (not_le.mp hlen)]

end

end Kv
