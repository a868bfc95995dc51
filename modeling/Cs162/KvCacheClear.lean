import Cs162.KvCacheSetRuns

/-!
# A cleared cache set

`kvcacheset_clear` takes out all entries and leaves the counter. A set with entries that is
cleared goes on counting them: it starts to evict before it is full, and of as many keys as it
has room for it does not keep the first. So a cleared set is like a new one exactly if it
counted no entries (`kvcachesetClear_fresh_iff`).

A set in memory answers as the set of `KvCache` that it represents, whatever addresses `malloc`
returns, so that the question is one about sets of `KvCache`.
-/

namespace Kv

open Transition (Run)

/-! ## Sequences of calls -/

/-- The answers to a sequence of calls. -/
def KvCacheSet.answers : KvCacheSet → List SetCall → List SetAnswer
  | _, [] => []
  | cs, call :: calls => (cs.call call).1 :: (cs.call call).2.answers calls

/-- The set after a sequence of calls. -/
def KvCacheSet.after (cs : KvCacheSet) (calls : List SetCall) : KvCacheSet :=
  calls.foldl (fun cs call => (cs.call call).2) cs

namespace KvCacheSet

variable {cs : KvCacheSet}

theorem after_concat (cs : KvCacheSet) (calls : List SetCall) (call : SetCall) :
    cs.after (calls ++ [call]) = ((cs.after calls).call call).2 := List.foldl_concat ..

theorem answers_concat (cs : KvCacheSet) (calls : List SetCall) (call : SetCall) :
    cs.answers (calls ++ [call]) = cs.answers calls ++ [((cs.after calls).call call).1] := by
  induction calls generalizing cs with
  | nil => rfl
  | cons first calls ih =>
    show (cs.call first).1 :: (cs.call first).2.answers (calls ++ [call]) = _
    rw [ih]
    rfl

theorem elemPerSet_after (cs : KvCacheSet) (calls : List SetCall) :
    (cs.after calls).elemPerSet = cs.elemPerSet := by
  induction calls generalizing cs with
  | nil => rfl
  | cons call calls ih => exact (ih _).trans (cs.elemPerSet_call call)

theorem Tidy.after (h : cs.Tidy) (calls : List SetCall) : (cs.after calls).Tidy := by
  induction calls generalizing cs with
  | nil => exact h
  | cons call calls ih => exact ih (h.call call)

end KvCacheSet

/-- **The keys that a set in memory retains**, in queue order. -/
def EntryCache.retained (c : EntryCache) (i : ℕ) : List CString :=
  (c.sets i).list.filterMap (EntryCache.keyAt c.entries)

section

variable {c c' : EntryCache} {i : ℕ} {cs : KvCacheSet} {events : List SetEvent}

theorem EntryCache.Represents.retained_eq (h : c.Represents i cs) : c.retained i = cs.queue := by
  have hkeys : (c.sets i).list.filterMap (EntryCache.keyAt c.entries)
      = ((c.sets i).list.map (EntryCache.keyAt c.entries)).filterMap id := by
    rw [List.filterMap_map]
    rfl
  unfold EntryCache.retained
  rw [hkeys, h.holds.queue, List.filterMap_map]
  exact List.filterMap_some

/-- **A run in memory** gives the answers of the set that is represented. -/
theorem EntryCache.Represents.of_run (h : c.Represents i cs) (hok : cs.Tidy)
    (hrun : Run (SetStep i) c events c') :
    events.map SetEvent.answer = cs.answers (events.map SetEvent.call)
      ∧ c'.Represents i (cs.after (events.map SetEvent.call)) := by
  refine hrun.invariant (I := fun events c' =>
    events.map SetEvent.answer = cs.answers (events.map SetEvent.call)
      ∧ c'.Represents i (cs.after (events.map SetEvent.call))) ⟨rfl, h⟩ ?_
  rintro events c event c' ⟨hanswers, hcs⟩ ⟨hfresh, hexec⟩
  obtain ⟨hanswer, hset, -⟩ := (event.call.exec_spec hcs (hok.after _) hfresh).of_ok hexec
  rw [List.map_append, List.map_append, List.map_singleton, List.map_singleton,
    KvCacheSet.answers_concat, KvCacheSet.after_concat, hanswers, hanswer]
  exact ⟨rfl, hset⟩

theorem EntryCache.Keeps.finite (memory : ℕ)
    (h : c.Keeps i {a | a ∈ (c.sets i).list ∨ a = memory} c')
    (hmemory : {a | c.entries a ≠ none}.Finite) : {a | c'.entries a ≠ none}.Finite := by
  have hlist : {a | a ∈ (c.sets i).list}.Finite := List.finite_toSet _
  refine ((hmemory.union hlist).union (Set.finite_singleton memory)).subset fun a ha => ?_
  by_cases hchanged : a ∈ (c.sets i).list ∨ a = memory
  · exact hchanged.elim (fun hmem => .inl (.inr hmem)) .inr
  · refine .inl (.inl ?_)
    rw [Set.mem_ofPred_eq, ← h.entries a hchanged]
    exact ha

theorem EntryCache.Represents.finite_of_run (h : c.Represents i cs) (hok : cs.Tidy)
    (hmemory : {a | c.entries a ≠ none}.Finite) (hrun : Run (SetStep i) c events c') :
    {a | c'.entries a ≠ none}.Finite := by
  refine (hrun.invariant (I := fun _ c' => (∃ cs, c'.Represents i cs ∧ cs.Tidy)
    ∧ {a | c'.entries a ≠ none}.Finite) ⟨⟨cs, h, hok⟩, hmemory⟩ ?_).2
  rintro _ c event c' ⟨⟨cs, hcs, hok⟩, hmemory⟩ ⟨hfresh, hexec⟩
  obtain ⟨-, hset, hkeep⟩ := (event.call.exec_spec hcs hok hfresh).of_ok hexec
  exact ⟨⟨_, hset, hok.call _⟩, hkeep.finite _ hmemory⟩

/-- **Every sequence of calls can be made**, as long as there is unused memory. -/
theorem EntryCache.Represents.exists_run (h : c.Represents i cs) (hok : cs.Tidy)
    (hmemory : {a | c.entries a ≠ none}.Finite) (calls : List SetCall) :
    ∃ events c', Run (SetStep i) c events c' ∧ events.map SetEvent.call = calls := by
  induction calls generalizing c cs with
  | nil => exact ⟨[], c, .nil, rfl⟩
  | cons call calls ih =>
    obtain ⟨memory, hunused⟩ := hmemory.exists_notMem
    have hfresh : c.entries memory = none := not_not.mp hunused
    obtain ⟨answer, c₁, hexec, -, hset, hkeep⟩ := (call.exec_spec h hok hfresh).exists_ok
    have hmemory₁ := hkeep.finite _ hmemory
    obtain ⟨events, c', hrun, hcalls⟩ := ih hset (hok.call call) hmemory₁
    have hstep : SetStep i c ⟨call, memory, answer⟩ c₁ := ⟨hfresh, hexec⟩
    exact ⟨_ :: events, c', hrun.cons hstep, by rw [List.map_cons, hcalls]⟩

end

/-! ## The counter -/

/-- **A set counts at least the entries that it has**, and no more than it may hold. -/
structure KvCacheSet.Counted (cs : KvCacheSet) : Prop where
  two_le : 2 ≤ cs.elemPerSet
  length_le : cs.queue.length ≤ cs.numEntries
  numEntries_le : cs.numEntries ≤ cs.elemPerSet

theorem length_evictLoop_le (fuel : ℕ) (queue : List CString)
    (index : Finmap (fun _ : CString => KvCacheEntry)) :
    (evictLoop fuel queue index).1.length ≤ queue.length := by
  fun_induction evictLoop fuel queue index with
  | case1 queue index => exact le_rfl
  | case2 n index => exact le_rfl
  | case3 fuel elt rest index hnone => exact Nat.le_succ _
  | case4 fuel elt rest index e he href => exact Nat.le_succ _
  | case5 fuel elt index e he href index' => exact le_rfl
  | case6 fuel elt rest index e he href index' hrest ih =>
    exact ih.trans_eq (List.perm_append_singleton elt rest).length_eq

namespace KvCacheSet

variable {cs : KvCacheSet}

theorem Tidy.new (elemPerSet : ℕ) : (new elemPerSet).Tidy :=
  ⟨List.nodup_nil, fun _ => iff_of_false List.not_mem_nil Finmap.notMem_empty⟩

theorem Counted.new {elemPerSet : ℕ} (h : 2 ≤ elemPerSet) : (new elemPerSet).Counted :=
  ⟨h, le_rfl, Nat.zero_le _⟩

/-- An eviction makes room in a set of two entries or more, and a smaller set has room. -/
theorem Tidy.length_evictLoop (h : cs.Tidy) (htwo : 2 ≤ cs.elemPerSet)
    (hle : cs.queue.length ≤ cs.elemPerSet) :
    (evictLoop (cs.queue.length + 1) cs.queue cs.index).1.length + 1 ≤ cs.elemPerSet := by
  by_cases hmany : 2 ≤ cs.queue.length
  · obtain ⟨victim, hvictim, hleft, -⟩ := evictLoop_evicts (cs.queue.length + 1) cs.queue cs.index
      h.nodup hmany (fun key => (h.mem_queue key).mp) (Nat.lt_succ_of_le List.countP_le_length)
    rw [hleft.length_eq, List.length_erase_of_mem hvictim]
    omega
  · have := length_evictLoop_le (cs.queue.length + 1) cs.queue cs.index
    omega

/-- **No call loses count**: in particular a deletion never counts below zero. -/
theorem Counted.call (h : cs.Counted) (hok : cs.Tidy) (call : SetCall) :
    (cs.call call).2.Counted := by
  obtain ⟨htwo, hlength, hle⟩ := h
  cases call with
  | get key =>
    show (kvcachesetGet cs key).2.Counted
    unfold kvcachesetGet
    split <;> exact ⟨htwo, hlength, hle⟩
  | put key value =>
    show (kvcachesetPut cs key value).2.Counted
    unfold kvcachesetPut
    split
    · exact ⟨htwo, hlength, hle⟩
    · dsimp only
      split
      case isTrue hroom =>
        refine ⟨htwo, ?_, hroom⟩
        rw [List.length_append, List.length_singleton]
        exact Nat.succ_le_succ hlength
      case isFalse hfull =>
        refine ⟨htwo, ?_, hle⟩
        rw [List.length_append, List.length_singleton]
        exact (hok.length_evictLoop htwo (hlength.trans hle)).trans (Nat.le_of_not_lt hfull)
  | del key =>
    show (kvcachesetDel cs key).2.Counted
    unfold kvcachesetDel
    cases he : cs.index.lookup key with
    | none => exact ⟨htwo, hlength, hle⟩
    | some e =>
      have hkey : key ∈ cs.queue := (hok.mem_queue key).mpr (Finmap.mem_of_lookup_eq_some he)
      refine ⟨htwo, ?_, (Nat.sub_le _ _).trans hle⟩
      show (cs.queue.erase key).length ≤ cs.numEntries - 1
      rw [List.length_erase_of_mem hkey]
      exact Nat.sub_le_sub_right hlength 1
  | clear => exact ⟨htwo, Nat.zero_le _, hle⟩

theorem Counted.after (h : cs.Counted) (hok : cs.Tidy) (calls : List SetCall) :
    (cs.after calls).Counted := by
  induction calls generalizing cs with
  | nil => exact h
  | cons call calls ih => exact ih (h.call hok call) (hok.call call)

/-! ## As many keys as there is room for -/

/-- Puts of pairs of keys and values. -/
def puts (pairs : List (CString × CString)) : List SetCall := pairs.map fun p => .put p.1 p.2

theorem after_puts_concat (cs : KvCacheSet) (pairs : List (CString × CString))
    (pair : CString × CString) : cs.after (puts (pairs ++ [pair]))
      = (kvcachesetPut (cs.after (puts pairs)) pair.1 pair.2).2 := by
  unfold puts
  rw [List.map_append, List.map_singleton, after_concat]
  rfl

theorem Tidy.put_of_room (h : cs.Tidy) {key : CString} (hkey : key ∉ cs.queue)
    (hroom : cs.numEntries < cs.elemPerSet) (value : CString) :
    (kvcachesetPut cs key value).2 = { cs with
      numEntries := cs.numEntries + 1
      queue := cs.queue ++ [key]
      index := cs.index.insert key ⟨value, false⟩ } := by
  have hnone : cs.index.lookup key = none :=
    Finmap.lookup_eq_none.mpr fun hmem => hkey ((h.mem_queue key).mpr hmem)
  unfold kvcachesetPut
  rw [hnone]
  exact congrArg Prod.snd (if_pos hroom)

/-- **A set that has counted no entries** keeps as many keys as it has room for. -/
theorem queue_after_puts {elemPerSet : ℕ} {pairs : List (CString × CString)}
    (hnodup : (pairs.map Prod.fst).Nodup) (hlength : pairs.length ≤ elemPerSet) :
    ((new elemPerSet).after (puts pairs)).queue = pairs.map Prod.fst
      ∧ ((new elemPerSet).after (puts pairs)).numEntries = pairs.length
      ∧ ((new elemPerSet).after (puts pairs)).elemPerSet = elemPerSet := by
  induction pairs using List.reverseRecOn with
  | nil => exact ⟨rfl, rfl, rfl⟩
  | append_singleton pairs pair ih =>
    rw [List.map_append, List.nodup_append] at hnodup
    rw [List.length_append, List.length_singleton] at hlength
    obtain ⟨hqueue, hnum, helem⟩ := ih hnodup.1 (by omega)
    have hkey : pair.1 ∉ ((new elemPerSet).after (puts pairs)).queue := by
      rw [hqueue]
      exact fun hmem => hnodup.2.2 pair.1 hmem pair.1 (by simp) rfl
    rw [after_puts_concat, ((Tidy.new _).after _).put_of_room hkey (by omega)]
    refine ⟨?_, ?_, helem⟩
    · rw [List.map_append, ← hqueue]
      rfl
    · rw [List.length_append, ← hnum]
      rfl

/-- A put of a new key while there is no room, by the set's own count, drops the first entry
if it is not marked. -/
theorem Tidy.put_of_full (h : cs.Tidy) {first key : CString} {rest : List CString}
    (hqueue : cs.queue = first :: rest) (hmark : entryMarked cs.index first = false)
    (hkey : key ∉ cs.queue) (hfull : ¬ cs.numEntries < cs.elemPerSet) (value : CString) :
    (kvcachesetPut cs key value).2.queue = rest ++ [key] := by
  have hnone : cs.index.lookup key = none :=
    Finmap.lookup_eq_none.mpr fun hmem => hkey ((h.mem_queue key).mpr hmem)
  obtain ⟨e, he⟩ := Finmap.mem_iff.mp
    ((h.mem_queue first).mp (hqueue ▸ List.mem_cons_self))
  have href : e.refbit = false := by
    unfold entryMarked at hmark
    rwa [he] at hmark
  unfold kvcachesetPut
  rw [hnone]
  dsimp only
  rw [if_neg hfull, hqueue, evictLoop, he]
  dsimp only
  rw [if_pos href]

/-- What a set that was cleared knows of the first key that was put: it is gone, or it is still
the first, the keys since then are behind it, and the set has counted them all on top of what
it counted before – or it was full from the start. -/
def Forgets (k : ℕ) (first : CString) (keys : List CString) (cs : KvCacheSet) : Prop :=
  first ∉ cs.queue
    ∨ cs.queue = first :: keys ∧ entryMarked cs.index first = false
      ∧ (cs.numEntries = k + keys.length + 1 ∧ cs.numEntries ≤ cs.elemPerSet
        ∨ keys = [] ∧ cs.numEntries = cs.elemPerSet)

theorem Forgets.first (hok : cs.Tidy) (hempty : cs.queue = []) (hcounted : cs.Counted)
    (first value : CString) : (kvcachesetPut cs first value).2.Forgets cs.numEntries first [] := by
  have hkey : first ∉ cs.queue := hempty ▸ List.not_mem_nil
  have hmark : ∀ index : Finmap (fun _ : CString => KvCacheEntry),
      entryMarked (index.insert first ⟨value, false⟩) first = false := fun index => by
    unfold entryMarked
    rw [Finmap.lookup_insert]
    rfl
  refine .inr ?_
  by_cases hroom : cs.numEntries < cs.elemPerSet
  · rw [hok.put_of_room hkey hroom]
    refine ⟨?_, hmark _, .inl ⟨rfl, hroom⟩⟩
    show cs.queue ++ [first] = [first]
    rw [hempty, List.nil_append]
  · have hnone : cs.index.lookup first = none :=
      Finmap.lookup_eq_none.mpr fun hmem => hkey ((hok.mem_queue first).mpr hmem)
    unfold kvcachesetPut
    rw [hnone]
    dsimp only
    rw [if_neg hroom, hempty]
    exact ⟨rfl, hmark _, .inr ⟨rfl, le_antisymm hcounted.numEntries_le (Nat.le_of_not_lt hroom)⟩⟩

theorem Forgets.put {k : ℕ} {first key : CString} {keys : List CString}
    (h : cs.Forgets k first keys) (hok : cs.Tidy) (hkey : key ∉ first :: keys) (value : CString) :
    (kvcachesetPut cs key value).2.Forgets k first (keys ++ [key]) := by
  have hfirst : first ≠ key := fun heq => hkey (heq ▸ List.mem_cons_self)
  obtain hgone | ⟨hqueue, hmark, hcount⟩ := h
  · exact .inl fun hmem => (KvCache.mem_queue_kvcachesetPut hok hmem).elim hfirst hgone
  rw [← hqueue] at hkey
  by_cases hroom : cs.numEntries < cs.elemPerSet
  · refine .inr ?_
    rw [hok.put_of_room hkey hroom]
    refine ⟨?_, ?_, .inl ?_⟩
    · show cs.queue ++ [key] = _
      rw [hqueue]
      rfl
    · unfold entryMarked at hmark ⊢
      rw [Finmap.lookup_insert_of_ne _ hfirst]
      exact hmark
    · show cs.numEntries + 1 = _ ∧ cs.numEntries + 1 ≤ cs.elemPerSet
      rw [List.length_append, List.length_singleton]
      omega
  · refine .inl ?_
    rw [hok.put_of_full hqueue hmark hkey hroom]
    have hnodup := hok.nodup
    rw [hqueue] at hnodup
    rw [List.mem_append, List.mem_singleton]
    exact fun hmem => hmem.elim (List.nodup_cons.mp hnodup).1 hfirst

/-- **A cleared set that counts entries** does not keep the first of as many keys as it has room
for. -/
theorem first_forgotten (htidy : cs.Tidy) (hempty : cs.queue = []) (hpos : 0 < cs.numEntries)
    (hcounted : cs.Counted) {first : CString × CString} {pairs : List (CString × CString)}
    (hnodup : ((first :: pairs).map Prod.fst).Nodup)
    (hlength : (first :: pairs).length = cs.elemPerSet) :
    first.1 ∉ (cs.after (puts (first :: pairs))).queue := by
  have hforgets : (cs.after (puts (first :: pairs))).Forgets cs.numEntries first.1
      (pairs.map Prod.fst) := by
    clear hlength
    induction pairs using List.reverseRecOn with
    | nil => exact .first htidy hempty hcounted first.1 first.2
    | append_singleton pairs pair ih =>
      rw [List.map_cons, List.map_append, ← List.cons_append, List.nodup_append] at hnodup
      have hkey : pair.1 ∉ first.1 :: pairs.map Prod.fst := fun hmem =>
        hnodup.2.2 pair.1 hmem pair.1 (by simp) rfl
      rw [← List.cons_append, after_puts_concat, List.map_append]
      exact (ih hnodup.1).put (htidy.after _) hkey pair.2
  obtain hgone | ⟨-, -, hcount⟩ := hforgets
  · exact hgone
  · rw [elemPerSet_after, List.length_map, List.map_eq_nil_iff] at hcount
    rw [List.length_cons] at hlength
    have htwo := hcounted.two_le
    obtain ⟨hnum, hle⟩ | ⟨rfl, -⟩ := hcount
    · omega
    · rw [List.length_nil] at hlength
      omega

end KvCacheSet

/-! ## Clearing a set, and starting afresh -/

/-- **A set behaves like another one**: whatever calls other than clears are made of both, the
answers are the same, and so are the keys that are retained. -/
def SameBehaviour (c : EntryCache) (i : ℕ) (n : EntryCache) (j : ℕ) : Prop :=
  ∀ events events' c' n', Run (SetStep i) c events c' → Run (SetStep j) n events' n' →
    events.map SetEvent.call = events'.map SetEvent.call →
    (∀ event ∈ events, event.call ≠ .clear) →
    events.map SetEvent.answer = events'.map SetEvent.answer ∧ c'.retained i = n'.retained j

/-- **A set retains as many distinct keys as it may hold**, if they are put one after the
other. -/
def RetainsAll (c : EntryCache) (i elemPerSet : ℕ) : Prop :=
  ∀ pairs : List (CString × CString), (pairs.map Prod.fst).Nodup → pairs.length = elemPerSet →
    ∀ events c', Run (SetStep i) c events c' →
      events.map SetEvent.call = KvCacheSet.puts pairs → ∀ p ∈ pairs, p.1 ∈ c'.retained i

/-- A key of the given length. -/
def keyOf (n : ℕ) : CString :=
  ⟨List.replicate n 97, fun h => absurd (List.eq_of_mem_replicate h) (by decide)⟩

theorem keyOf_injective : Function.Injective keyOf := fun m n h => by
  have hlength := congrArg CString.strlen h
  simpa [keyOf, CString.strlen] using hlength

/-- **When a cleared set is a new one.** After any history of gets, puts, deletions and clears
of a set, a set that is cleared behaves like a newly initialised one, and retains as many
distinct keys as it may hold, if and only if its counter was at zero when it was cleared. -/
theorem kvcachesetClear_fresh_iff {elemPerSet i j : ℕ} {c₀ c c₁ n : EntryCache}
    {events : List SetEvent} (hinit : EntryCache.kvcachesetInit elemPerSet = .ok (c₀.sets i))
    (hmemory : {a | c₀.entries a ≠ none}.Finite) (hrun : Run (SetStep i) c₀ events c)
    (hclear : EntryCache.kvcachesetClear i c = .ok ((), c₁))
    (hnew : EntryCache.kvcachesetInit elemPerSet = .ok (n.sets j)) :
    SameBehaviour c₁ i n j ∧ RetainsAll c₁ i elemPerSet ↔ (c.sets i).numEntries = 0 := by
  obtain ⟨hset₀, hok₀⟩ := EntryCache.represents_of_init hinit
  obtain ⟨hsetn, -⟩ := EntryCache.represents_of_init hnew
  obtain ⟨-, hset⟩ := hset₀.of_run hok₀.tidy hrun
  set cs := (KvCacheSet.new elemPerSet).after (events.map SetEvent.call) with hcs
  have hok : cs.Tidy := hok₀.tidy.after _
  have helem : cs.elemPerSet = elemPerSet := KvCacheSet.elemPerSet_after _ _
  have hcounted : cs.Counted := (KvCacheSet.Counted.new hok₀.two_le).after hok₀.tidy _
  obtain ⟨hset₁, hkeep₁⟩ := (EntryCache.kvcachesetClear_spec hset hok).of_ok hclear
  have hok₁ : (kvcachesetClear cs).Tidy := .clear cs
  rw [hset.numEntries]
  constructor
  · rintro ⟨-, hretains⟩
    by_contra hstale
    have hmemory₁ := (hkeep₁.mono fun _ => Or.inl).finite 0
      (hset₀.finite_of_run hok₀.tidy hmemory hrun)
    -- As many new keys as the set may hold: the first is not retained.
    let pair : ℕ → CString × CString := fun k => (keyOf k, keyOf k)
    have hrange : pair 0 :: (List.range' 1 (elemPerSet - 1)).map pair
        = (List.range' 0 elemPerSet).map pair := by
      obtain ⟨m, rfl⟩ := Nat.exists_eq_add_of_le' hok₀.two_le
      rfl
    have hnodup : (((List.range' 0 elemPerSet).map pair).map Prod.fst).Nodup := by
      rw [List.map_map]
      exact (List.nodup_range' ..).map keyOf_injective
    have hlength : ((List.range' 0 elemPerSet).map pair).length = elemPerSet := by
      rw [List.length_map, List.length_range']
    obtain ⟨later, c', hrun', hcalls⟩ := hset₁.exists_run hok₁ hmemory₁
      (KvCacheSet.puts ((List.range' 0 elemPerSet).map pair))
    have hkept := hretains _ hnodup hlength later c' hrun' hcalls (pair 0)
      (hrange ▸ List.mem_cons_self)
    rw [(hset₁.of_run hok₁ hrun').2.retained_eq, hcalls, ← hrange] at hkept
    rw [← hrange] at hnodup hlength
    exact KvCacheSet.first_forgotten hok₁ rfl (Nat.pos_of_ne_zero hstale) (hcounted.call hok .clear)
      hnodup (hlength.trans helem.symm) hkept
  · intro hzero
    have hfresh : kvcachesetClear cs = .new elemPerSet := by
      unfold kvcachesetClear KvCacheSet.new
      rw [hzero, helem]
    rw [hfresh] at hset₁
    refine ⟨fun later later' c' n' hrunc hrunn hcalls _ => ?_,
      fun pairs hnodup hlength later c' hrunc hcalls p hp => ?_⟩
    · obtain ⟨hanswers, hafter⟩ := hset₁.of_run hok₀.tidy hrunc
      obtain ⟨hanswers', hafter'⟩ := hsetn.of_run hok₀.tidy hrunn
      rw [hanswers, hanswers', hafter.retained_eq, hafter'.retained_eq, hcalls]
      exact ⟨rfl, rfl⟩
    · obtain ⟨-, hafter⟩ := hset₁.of_run hok₀.tidy hrunc
      rw [hafter.retained_eq, hcalls, (KvCacheSet.queue_after_puts hnodup hlength.le).1]
      exact List.mem_map_of_mem hp

/-- A set of two entries, newly initialised. -/
def newSet : EntryCache := ⟨1, fun _ => ⟨2, 0, [], []⟩, fun _ => none⟩

/-- A set that is emptied by a deletion and then cleared starts afresh. -/
theorem kvcachesetClear_fresh_deleted :
    ∃ c c₁, Run (SetStep 0) newSet
        [⟨.put (keyOf 1) (keyOf 2), 10, .code 0⟩, ⟨.del (keyOf 1), 11, .code 0⟩] c
      ∧ EntryCache.kvcachesetClear 0 c = .ok ((), c₁)
      ∧ SameBehaviour c₁ 0 newSet 0 ∧ RetainsAll c₁ 0 2 := by
  have hcomputed : ([⟨.put (keyOf 1) (keyOf 2), 10, .code 0⟩,
      ⟨.del (keyOf 1), 11, .code 0⟩].foldlM (fun c event => SetEvent.next 0 c event) newSet).map
        (fun c => ((c.sets 0).numEntries, (EntryCache.kvcachesetClear 0 c).toOption.isSome))
      = some (0, true) := by
    decide +kernel
  obtain ⟨c, hc, hresult⟩ := Option.map_eq_some_iff.mp hcomputed
  obtain ⟨hzero, hdone⟩ := Prod.mk.inj hresult
  obtain ⟨⟨⟨⟩, c₁⟩, hclear⟩ := Option.isSome_iff_exists.mp hdone
  have hrun := Run.of_foldlM setStep_of_next hc
  have hinit : EntryCache.kvcachesetInit 2 = .ok (newSet.sets 0) := rfl
  have hmemory : {a | newSet.entries a ≠ none}.Finite :=
    Set.finite_empty.subset fun a ha => (ha rfl).elim
  have hclear := Command.eq_ok_of_toOption hclear
  exact ⟨c, c₁, hrun, hclear,
    (kvcachesetClear_fresh_iff hinit hmemory hrun hclear hinit).mpr hzero⟩

/-- A set of two entries is cleared while it has one. Of two keys that are put then, it retains
the second only, where a new set retains both. -/
theorem kvcachesetClear_stale :
    (∃ c, Run (SetStep 0) newSet [⟨.put (keyOf 1) (keyOf 1), 10, .code 0⟩, ⟨.clear, 11, .nothing⟩,
        ⟨.put (keyOf 2) (keyOf 2), 12, .code 0⟩, ⟨.put (keyOf 3) (keyOf 3), 13, .code 0⟩] c
      ∧ c.retained 0 = [keyOf 3])
    ∧ ∃ n, Run (SetStep 0) newSet [⟨.put (keyOf 2) (keyOf 2), 12, .code 0⟩,
        ⟨.put (keyOf 3) (keyOf 3), 13, .code 0⟩] n
      ∧ n.retained 0 = [keyOf 2, keyOf 3] := by
  have hruns : ∀ (events : List SetEvent) (keys : List CString),
      (events.foldlM (fun c event => SetEvent.next 0 c event) newSet).map
        (fun c => EntryCache.retained c 0) = some keys →
      ∃ c, Run (SetStep 0) newSet events c ∧ c.retained 0 = keys := fun events keys h => by
    obtain ⟨c, hc, hkeys⟩ := Option.map_eq_some_iff.mp h
    exact ⟨c, Run.of_foldlM setStep_of_next hc, hkeys⟩
  exact ⟨hruns _ _ (by decide +kernel), hruns _ _ (by decide +kernel)⟩

end Kv
