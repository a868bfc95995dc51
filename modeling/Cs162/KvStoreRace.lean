import Cs162.KvRefinement
import Cs162.Run

/-!
# Concurrent calls on one store

`kvstore_put` and `kvstore_del` look the key up under the read lock and write
under the write lock, and give the one back before they take the other. The
position that was found may be stale when it is used: another call may have
inserted the key, moved an entry into the position, or shortened the chain.

A call is therefore two steps here, with the result of `find_entry` kept in
between (`CallPhase`), and the calls of any number of clients take their steps
in any order (`raceNext`). Two clients that insert one key both find it
missing, and the chain then has it twice (`stalePuts_duplicate`). Where every
write finds the position as its lookup left it, or in one of the two other
ways that do no harm (`Race.Fresh`), a write does to the map of the store what
the sequential call does, and the chains stay complete (`race_keeps_chains`).
-/

namespace Kv

open Transition

/-- **Where a call stands**: not begun, between its two halves with what
`find_entry` returned, or done. -/
inductive CallPhase where
  | idle
  | found (result : Except Int (ℕ × CString))
  | returned (code : Int)
  deriving DecidableEq

namespace Request

/-- The half of a call under the read lock, with the checks before it. -/
def lookup (hash : CString → ℕ) (s : KvStore) : Request → CallPhase
  | put key value =>
    let check := kvstorePutCheck s key value
    if check < 0 then .returned check else .found (findEntry hash s key)
  | del key =>
    match findEntry hash s key with
    | .error e => .returned e
    | .ok r => .found (.ok r)

/-- The half of a call under the write lock. -/
def write (hash : CString → ℕ) (s : KvStore) (found : Except Int (ℕ × CString)) :
    Request → Int × KvStore
  | put key value => (0, kvstorePutAt hash s key value found)
  | del key =>
    match found with
    | .error e => (e, s)
    | .ok (chainpos, _) => kvstoreDelAt hash s key chainpos

end Request

/-- **A store and the calls in progress on it.** -/
structure Race (ι : Type) where
  store : KvStore
  phase : ι → CallPhase

section

variable {ι : Type} [DecidableEq ι] (hash : CString → ℕ) (calls : ι → Request)

/-- The calls of all clients before their first steps. -/
def Race.start (s : KvStore) : Race ι := ⟨s, fun _ => .idle⟩

/-- **The next half of a call.** -/
def raceNext (c : Race ι) (i : ι) : Option (Race ι) :=
  match c.phase i with
  | .idle =>
    some { c with phase := Function.update c.phase i ((calls i).lookup hash c.store) }
  | .found found =>
    let (code, store) := (calls i).write hash c.store found
    some ⟨store, Function.update c.phase i (.returned code)⟩
  | .returned _ => none

/-- The file at a position of the key's chain has the key. -/
def KvStore.HasAt (s : KvStore) (key : CString) (pos : ℕ) : Prop :=
  (s.chain (hash key) pos).map KvEntry.key = some key

/-- A position is the first free one of the key's chain. -/
def KvStore.EndsAt (s : KvStore) (key : CString) (pos : ℕ) : Prop :=
  s.chain (hash key) pos = none ∧ ∀ j < pos, (s.chain (hash key) j).isSome = true

/-- A write with the result of an earlier lookup does no harm: the key is where
it was found, or it is still missing. Harmless besides are a PUT at the end of
the chain after its key was deleted, and a DEL of a file that is gone. -/
def Request.Fresh (s : KvStore) : Request → Except Int (ℕ × CString) → Prop
  | put key _, .ok (pos, _) =>
    s.HasAt hash key pos ∨ s.toMap hash key = none ∧ s.EndsAt hash key pos
  | put key _, .error _ => s.toMap hash key = none
  | del key, .ok (pos, _) => s.HasAt hash key pos ∨ s.chain (hash key) pos = none
  | del _, .error _ => True

/-- **The condition on a step**: a write does no harm. -/
def Race.Fresh (c : Race ι) (i : ι) : Prop :=
  match c.phase i with
  | .found found => (calls i).Fresh hash c.store found
  | _ => True

instance (s : KvStore) (key : CString) (pos : ℕ) : Decidable (s.HasAt hash key pos) :=
  inferInstanceAs (Decidable (_ = _))

instance (s : KvStore) (key : CString) (pos : ℕ) : Decidable (s.EndsAt hash key pos) :=
  inferInstanceAs (Decidable (_ ∧ ∀ j < pos, _))

instance (s : KvStore) (r : Request) (found : Except Int (ℕ × CString)) :
    Decidable (r.Fresh hash s found) := by
  unfold Request.Fresh
  split <;> infer_instance

instance (c : Race ι) (i : ι) : Decidable (c.Fresh hash calls i) := by
  unfold Race.Fresh
  split <;> infer_instance

/-- A step of a race. -/
def RaceStep (c : Race ι) (i : ι) (c' : Race ι) : Prop := raceNext hash calls c i = some c'

/-- A step of a race that meets the condition. -/
def FreshStep (c : Race ι) (i : ι) (c' : Race ι) : Prop :=
  RaceStep hash calls c i c' ∧ c.Fresh hash calls i

end

section

variable {hash : CString → ℕ} {s : KvStore} {chains : ℕ → List (CString × CString)}
  {key value : CString} {pos : ℕ}

/-! ## Writes that do no harm -/

/-- The key is found where it is. -/
theorem findEntry_of_hasAt (hc : ChainInv hash s chains) (hdir : s.dirExists = true)
    (hlen : key.strlen ≤ maxKeyLen) (hpos : s.HasAt hash key pos) :
    ∃ value, findEntry hash s key = .ok (pos, value)
      ∧ (chains (hash key))[pos]? = some (key, value) := by
  obtain ⟨e, he, hkey⟩ := Option.map_eq_some_iff.mp hpos
  rw [hc.holds, List.getElem?_map, Option.map_eq_some_iff] at he
  obtain ⟨⟨k, value⟩, hp, rfl⟩ := he
  rw [KvEntry.key_make] at hkey
  subst hkey
  have hmap := hc.toMap_eq_some_iff.mpr (List.mem_of_getElem? hp)
  obtain ⟨pos', hfind, hpos'⟩ := findEntry_of_some hc hdir hlen hmap
  have hsame : pos = pos' := by
    refine (List.getElem?_inj (l := (chains (hash k)).map Prod.fst) ?_ (hc.nodup _)).mp ?_
    · rw [List.length_map]
      exact (List.getElem?_eq_some_iff.mp hp).1
    · rw [List.getElem?_map, List.getElem?_map, hp, hpos']
  exact ⟨value, hsame ▸ hfind, hp⟩

/-- The first free position is where an insertion writes. -/
theorem firstFree_of_endsAt (hc : ChainInv hash s chains) (hpos : s.EndsAt hash key pos) :
    Numbered.firstFree (s.chain (hash key)) s.fuel 0 = pos := by
  rw [hc.firstFree_chain (hash key) (Nat.zero_le _)]
  have hnone := hpos.1
  rw [hc.holds, List.getElem?_eq_none_iff, List.length_map] at hnone
  refine le_antisymm hnone ?_
  by_contra hlt
  have hsome := hpos.2 _ (not_le.mp hlt)
  rw [hc.holds, List.getElem?_map, List.getElem?_eq_none le_rfl] at hsome
  cases hsome

/-- **A harmless PUT writes what the sequential one does.** -/
theorem kvstorePutAt_of_fresh (hwf : s.WF hash) (hlen : key.strlen ≤ maxKeyLen)
    {found : Except Int (ℕ × CString)} (hfresh : (Request.put key value).Fresh hash s found) :
    kvstorePutAt hash s key value found
      = kvstorePutAt hash s key value (findEntry hash s key) := by
  obtain ⟨hdir, chains, hc⟩ := hwf
  cases found with
  | error e =>
    rw [findEntry_of_none hdir hlen hfresh]
    rfl
  | ok r =>
    rcases hfresh with hpos | ⟨hnone, hend⟩
    · obtain ⟨old, hfind, -⟩ := findEntry_of_hasAt hc hdir hlen hpos
      rw [hfind]
      rfl
    · rw [findEntry_of_none hdir hlen hnone]
      unfold kvstorePutAt
      dsimp only
      rw [firstFree_of_endsAt hc hend]

/-- **A harmless DEL removes the key, or nothing.** -/
theorem kvstoreDelAt_of_fresh (hwf : s.WF hash) (hlen : key.strlen ≤ maxKeyLen)
    (hfresh : s.HasAt hash key pos ∨ s.chain (hash key) pos = none) :
    (kvstoreDelAt hash s key pos).2.WF hash
      ∧ ((kvstoreDelAt hash s key pos).2.toMap hash = Function.update (s.toMap hash) key none
        ∨ (kvstoreDelAt hash s key pos).2 = s) := by
  obtain ⟨hdir, chains, hc⟩ := hwf
  rcases hfresh with hpos | hnone
  · obtain ⟨value, hfind, hp⟩ := findEntry_of_hasAt hc hdir hlen hpos
    have hsome : s.toMap hash key = some value :=
      hc.toMap_eq_some_iff.mpr (List.mem_of_getElem? hp)
    have hcheck : kvstoreDelCheck hash s key = 0 :=
      (kvstoreDelCheck_eq_zero_iff ⟨hdir, chains, hc⟩).mpr ⟨hlen, by rw [hsome]; rfl⟩
    obtain ⟨-, hwf', hmap⟩ := kvstoreDel_spec ⟨hdir, chains, hc⟩ hcheck
    unfold kvstoreDel at hwf' hmap
    rw [hfind] at hwf' hmap
    exact ⟨hwf', .inl hmap⟩
  · have hbeyond : s.chain (hash key) (pos + 1) = none := by
      rw [hc.holds, List.getElem?_eq_none_iff] at hnone ⊢
      exact le_trans hnone (Nat.le_succ pos)
    have hfree : Numbered.firstFree (s.chain (hash key)) s.fuel (pos + 1) = pos + 1 := by
      unfold KvStore.fuel
      rw [Numbered.firstFree, hbeyond]
      rfl
    have hsame : kvstoreDelAt hash s key pos = (enoent, s) := by
      unfold kvstoreDelAt
      simp only [hfree, if_true, hnone]
    rw [hsame]
    exact ⟨⟨hdir, chains, hc⟩, .inr rfl⟩

/-- The key, and the value of a PUT, are within their limits. -/
def Request.Within : Request → Prop
  | .put key value => key.strlen ≤ maxKeyLen ∧ value.strlen ≤ maxValLen
  | .del key => key.strlen ≤ maxKeyLen

/-- **What a harmless write can do**: a PUT maps its key to its value, a DEL
may unmap its key, and every other key is mapped as before. -/
structure Request.Writes (r : Request) (m m' : KvMap) : Prop where
  put : ∀ key value, r = .put key value → m' key = some value
  other : ∀ key, m' key = m key ∨ (∃ value, r = .put key value) ∨ r = .del key ∧ m' key = none

theorem Request.write_of_fresh (hwf : s.WF hash) {r : Request}
    {found : Except Int (ℕ × CString)} (hwithin : r.Within) (hfresh : r.Fresh hash s found) :
    (r.write hash s found).2.WF hash
      ∧ r.Writes (s.toMap hash) ((r.write hash s found).2.toMap hash) := by
  cases r with
  | put key value =>
    have hcheck : kvstorePutCheck s key value = 0 :=
      (kvstorePutCheck_eq_zero_iff hwf.1).mpr hwithin
    have hput : (kvstorePut hash s key value).2 = kvstorePutAt hash s key value found := by
      unfold kvstorePut
      simp only [hcheck, lt_self_iff_false, if_false]
      exact (kvstorePutAt_of_fresh hwf hwithin.1 hfresh).symm
    obtain ⟨-, hwf', hmap⟩ := kvstorePut_spec hwf hcheck
    rw [hput] at hwf' hmap
    refine ⟨hwf', fun k v hr => ?_, fun k => ?_⟩
    · cases hr
      exact (congrFun hmap key).trans (Function.update_self ..)
    · by_cases hk : k = key
      · exact .inr (.inl ⟨value, by rw [hk]⟩)
      · exact .inl ((congrFun hmap k).trans (Function.update_of_ne hk ..))
  | del key =>
    cases found with
    | error e => exact ⟨hwf, nofun, fun k => .inl rfl⟩
    | ok r =>
      obtain ⟨hwf', hmap⟩ := kvstoreDelAt_of_fresh hwf hwithin hfresh
      refine ⟨hwf', nofun, fun k => ?_⟩
      show (kvstoreDelAt hash s key r.1).2.toMap hash k = _ ∨ _
      rcases hmap with hmap | hsame
      · by_cases hk : k = key
        · refine .inr (.inr ⟨by rw [hk], ?_⟩)
          exact (congrFun hmap k).trans (hk ▸ Function.update_self ..)
        · exact .inl ((congrFun hmap k).trans (Function.update_of_ne hk ..))
      · exact .inl (congrArg (fun s => s.toMap hash k) hsame)

/-! ## Races -/

variable {ι : Type} {calls : ι → Request} {s₀ : KvStore} {c c' : Race ι} {i : ι}

/-- A lookup that is followed by a write has a call within the limits, and one
that is not returns an error. -/
theorem Request.lookup_cases (hash : CString → ℕ) (hdir : s.dirExists = true) (r : Request) :
    (∃ found, r.lookup hash s = .found found ∧ r.Within)
      ∨ ∃ code, r.lookup hash s = .returned code ∧ ∀ key value, r = .put key value → code ≠ 0 := by
  cases r with
  | put key value =>
    unfold lookup
    dsimp only
    split
    · rename_i hneg
      exact .inr ⟨_, rfl, fun _ _ _ => kvstorePutCheck_neg_iff.mp hneg⟩
    · rename_i hok
      refine .inl ⟨_, rfl, (kvstorePutCheck_eq_zero_iff hdir).mp ?_⟩
      by_contra hne
      exact hok (kvstorePutCheck_neg_iff.mpr hne)
  | del key =>
    unfold lookup
    dsimp only
    split
    · exact .inr ⟨_, rfl, nofun⟩
    · rename_i r hfind
      refine .inl ⟨_, rfl, ?_⟩
      by_contra hlong
      rw [findEntry_of_long (not_le.mp hlong)] at hfind
      cases hfind

/-- **The invariant of a race**, from the store it starts with. -/
structure RaceInv (hash : CString → ℕ) (calls : ι → Request) (s₀ : KvStore) (c : Race ι) :
    Prop where
  wf : c.store.WF hash
  within : ∀ i found, c.phase i = .found found → (calls i).Within
  /-- A key that no call deletes stays, and so does one that was put. -/
  kept : ∀ key, (∀ i, calls i ≠ .del key) →
    ((s₀.toMap hash key).isSome = true
      ∨ ∃ i value, calls i = .put key value ∧ c.phase i = .returned 0) →
    (c.store.toMap hash key).isSome = true
  /-- What a key is mapped to was there or was put under it. -/
  origin : ∀ key value, c.store.toMap hash key = some value →
    s₀.toMap hash key = some value ∨ ∃ i, calls i = .put key value

theorem RaceInv.start (hwf : s₀.WF hash) : RaceInv hash calls s₀ (Race.start s₀) where
  wf := hwf
  within i found h := by cases h
  kept key _ h := by
    rcases h with h | ⟨i, value, -, h⟩
    · exact h
    · cases h
  origin key value h := .inl h

variable [DecidableEq ι]

theorem RaceInv.lookup (h : RaceInv hash calls s₀ c) (i : ι) : RaceInv hash calls s₀
      { c with phase := Function.update c.phase i ((calls i).lookup hash c.store) } := by
  have hcases := (calls i).lookup_cases hash h.wf.1
  refine ⟨h.wf, fun j found hj => ?_, fun key hdel hor => ?_, h.origin⟩
  · have hj : Function.update c.phase i ((calls i).lookup hash c.store) j = .found found := hj
    rw [Function.update_apply] at hj
    split at hj
    · rename_i heq
      rcases hcases with ⟨found', -, hwithin⟩ | ⟨code, hret, -⟩
      · exact heq ▸ hwithin
      · rw [hret] at hj
        cases hj
    · exact h.within j found hj
  · refine h.kept key hdel (hor.imp id ?_)
    rintro ⟨j, value, hput, hj⟩
    refine ⟨j, value, hput, ?_⟩
    have hj : Function.update c.phase i ((calls i).lookup hash c.store) j = .returned 0 := hj
    rw [Function.update_apply] at hj
    split at hj
    · rename_i heq
      rcases hcases with ⟨found', hfound, -⟩ | ⟨code, hret, hne⟩
      · rw [hfound] at hj
        cases hj
      · rw [hret] at hj
        cases hj
        exact absurd rfl (hne key value (heq ▸ hput))
    · exact hj

theorem RaceInv.write (h : RaceInv hash calls s₀ c) {found : Except Int (ℕ × CString)}
    (hphase : c.phase i = .found found) (hfresh : (calls i).Fresh hash c.store found) :
    RaceInv hash calls s₀ ⟨((calls i).write hash c.store found).2,
      Function.update c.phase i (.returned ((calls i).write hash c.store found).1)⟩ := by
  obtain ⟨hwf, hwrites⟩ :=
    Request.write_of_fresh h.wf (h.within i found hphase) hfresh
  refine ⟨hwf, fun j found' hj => ?_, fun key hdel hor => ?_, fun key value hmap => ?_⟩
  · have hj : Function.update c.phase i _ j = .found found' := hj
    rw [Function.update_apply] at hj
    split at hj
    · cases hj
    · exact h.within j found' hj
  · by_cases hput : ∃ value, calls i = .put key value
    · obtain ⟨value, hput⟩ := hput
      rw [hwrites.put key value hput]
      rfl
    · rcases hwrites.other key with hsame | hput' | ⟨hdel', -⟩
      · rw [hsame]
        refine h.kept key hdel (hor.imp id ?_)
        rintro ⟨j, value, hputj, hj⟩
        refine ⟨j, value, hputj, ?_⟩
        have hj : Function.update c.phase i _ j = .returned 0 := hj
        rw [Function.update_apply] at hj
        split at hj
        · rename_i heq
          exact absurd ⟨value, heq ▸ hputj⟩ hput
        · exact hj
      · exact absurd hput' hput
      · exact absurd hdel' (hdel i)
  · have hmap : ((calls i).write hash c.store found).2.toMap hash key = some value := hmap
    by_cases hput : ∃ value', calls i = .put key value'
    · obtain ⟨value', hput⟩ := hput
      rw [hwrites.put key value' hput] at hmap
      exact .inr ⟨i, by rw [hput, Option.some.inj hmap]⟩
    · rcases hwrites.other key with hsame | hput' | ⟨-, hnone⟩
      · exact h.origin key value (hsame ▸ hmap)
      · exact absurd hput' hput
      · rw [hnone] at hmap
        cases hmap

/-- **Every step that meets the condition keeps the invariant.** -/
theorem RaceInv.step (h : RaceInv hash calls s₀ c) (hstep : FreshStep hash calls c i c') :
    RaceInv hash calls s₀ c' := by
  obtain ⟨hnext, hfresh⟩ := hstep
  unfold RaceStep raceNext at hnext
  unfold Race.Fresh at hfresh
  split at hnext
  · exact Option.some.inj hnext ▸ h.lookup i
  · rename_i found hphase
    rw [hphase] at hfresh
    exact Option.some.inj hnext ▸ h.write hphase hfresh
  · cases hnext

/-- **The store stays a map under concurrent clients** whose writes do no
harm: in every state of every run the chains are complete and no key occurs
twice, a key that no call deletes is there if it was there at the start or a
PUT of it has returned, and every entry was there at the start or was put
under its key. -/
theorem race_keeps_chains (hwf : s₀.WF hash) {steps : List ι}
    (hrun : Run (FreshStep hash calls) (Race.start s₀) steps c) :
    c.store.Chained hash
      ∧ (∀ key, (∀ i, calls i ≠ .del key) →
        ((s₀.toMap hash key).isSome = true
          ∨ ∃ i value, calls i = .put key value ∧ c.phase i = .returned 0) →
        (c.store.toMap hash key).isSome = true)
      ∧ ∀ h pos e, c.store.chain h pos = some e →
        s₀.toMap hash e.key = some e.value ∨ ∃ i, calls i = .put e.key e.value := by
  have hinv : RaceInv hash calls s₀ c := hrun.invariant
    (I := fun _ c => RaceInv hash calls s₀ c) (RaceInv.start hwf)
    fun _ _ _ _ h hstep => h.step hstep
  obtain ⟨-, chains, hc⟩ := hinv.wf
  refine ⟨hc.chained, hinv.kept, fun h pos e he => hinv.origin _ _ ?_⟩
  have hhash := hc.chained.hashed h pos e he
  rw [hc.holds h pos, List.getElem?_map, Option.map_eq_some_iff] at he
  obtain ⟨p, hp, rfl⟩ := he
  rw [hc.toMap_eq_some_iff, hhash, KvEntry.key_make, KvEntry.value_make]
  exact List.mem_of_getElem? hp

end

/-- Two clients put different values under one key. -/
def twoClients : Bool → Request
  | false => .put letterA letterA
  | true => .put letterA letterB

/-- One after the other they leave one entry. -/
theorem race_keeps_chains_inTurn :
    ∃ c, Run (FreshStep hash twoClients) (Race.start ⟨true, ∅⟩)
        [false, false, true, true] c
      ∧ c.store.toMap hash letterA = some letterB ∧ c.store.Chained hash := by
  have hrun : ([false, false, true, true].foldlM (fun (c : Race Bool) i =>
      if c.Fresh hash twoClients i then raceNext hash twoClients c i else none)
      (Race.start ⟨true, ∅⟩)).any
      (fun c => c.store.toMap hash letterA = some letterB) = true := by
    decide +kernel
  obtain ⟨c, hc, hstate⟩ := (Option.any_eq_true _ _).mp hrun
  have hrun : Run (FreshStep hash twoClients) (Race.start ⟨true, ∅⟩)
      [false, false, true, true] c := by
    refine Run.of_foldlM (fun c i c' h => ?_) hc
    split at h
    · rename_i hfresh
      exact ⟨h, hfresh⟩
    · cases h
  have hwf : (⟨true, ∅⟩ : KvStore).WF hash :=
    (kvstoreInit_of_files_empty (s := ⟨false, ∅⟩) rfl).1
  exact ⟨c, hrun, of_decide_eq_true hstate, (race_keeps_chains hwf hrun).1⟩

/-- **A key occurs twice**: both clients look the key up before either writes,
and both insert it. -/
theorem stalePuts_duplicate :
    ∃ c, Run (RaceStep hash twoClients) (Race.start ⟨true, ∅⟩)
        [false, true, false, true] c
      ∧ (∀ i, c.phase i = .returned 0) ∧ ¬ c.store.Chained hash := by
  have hrun : ([false, true, false, true].foldlM (raceNext hash twoClients)
      (Race.start ⟨true, ∅⟩)).any (fun c => (∀ i, c.phase i = .returned 0)
        ∧ (c.store.chain (hash letterA) 0).map KvEntry.key = some letterA
        ∧ (c.store.chain (hash letterA) 1).map KvEntry.key = some letterA) = true := by
    decide +kernel
  obtain ⟨c, hc, hstate⟩ := (Option.any_eq_true _ _).mp hrun
  have hrun : Run (RaceStep hash twoClients) (Race.start ⟨true, ∅⟩)
      [false, true, false, true] c :=
    Run.of_foldlM (fun _ _ _ h => h) hc
  obtain ⟨hreturned, hfirst, hsecond⟩ := of_decide_eq_true hstate
  refine ⟨c, hrun, hreturned, fun hchained => ?_⟩
  obtain ⟨e, he, hkey⟩ := Option.map_eq_some_iff.mp hfirst
  obtain ⟨e', he', hkey'⟩ := Option.map_eq_some_iff.mp hsecond
  have := (hchained.distinct _ 0 e _ 1 e' he he' (hkey.trans hkey'.symm)).2
  cases this

end Kv
