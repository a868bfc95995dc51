import Cs162.KvStoreRace

/-!
# Concurrent requests on one server

A request goes through the cache and the store in sections that are locked one
by one: a `get` looks in the cache, then in the store, then fills the cache; a
`put` writes the store, then the cache; a `del` clears the cache, then checks
and writes the store. Here each section is a step, and the requests of any
number of clients take their steps in any order.

That the cache is coherent is not an invariant of the steps: between the two
writes of a `put` the cache may hold the old value. What can be kept is that
every cached pair is the store's or is about to be overwritten by such a `put`
(`RequestsInv`). A fill or a write of the cache keeps it where the store has
that pair at the time, and a deletion from the store where the key is not
cached (`ServerRace.Timely`). Where one of the two fails, a stale entry stays
(`stalePut_incoherent`).
-/

namespace Kv

open Transition

/-- **Where a request stands** between its sections. -/
inductive RequestPhase where
  | idle
  /-- A `get` has not found the key in the cache. -/
  | missed
  /-- A `get` has a value from the store. -/
  | fetched (value : CString)
  /-- A `put` has passed its check. -/
  | checked
  /-- A `put` has written the store. -/
  | stored
  /-- A `del` has cleared the cache, with the given outcome. -/
  | uncached (outcome : Int)
  /-- A `del` has passed its check. -/
  | deleting
  | returned (reply : KvReply)
  deriving DecidableEq

/-- **The next section of a request.** A `del` of a key that is too long takes
the null lock, and has no next section. -/
def KvCall.next (server : KvServer) : KvCall → RequestPhase → Option (KvServer × RequestPhase)
  | .get key, .idle =>
    if key.strlen > maxKeyLen then some (server, .returned (.code errKeyLen))
    else
      let hit := kvcacheGet server.cache key
      match hit.1 with
      | .ok value => some ({ server with cache := hit.2 }, .returned (.value value))
      | .error _ => some ({ server with cache := hit.2 }, .missed)
  | .get key, .missed =>
    match kvstoreGet hash server.store key with
    | .ok value => some (server, .fetched value)
    | .error e => some (server, .returned (.code e))
  | .get key, .fetched value =>
    some ({ server with cache := (kvcachePut server.cache key value).2 }, .returned (.value value))
  | .put key value, .idle =>
    let err := kvserverPutCheck server key value
    if err < 0 then some (server, .returned (.code err)) else some (server, .checked)
  | .put key value, .checked =>
    let put := kvstorePut hash server.store key value
    if put.1 < 0 then some ({ server with store := put.2 }, .returned (.code put.1))
    else some ({ server with store := put.2 }, .stored)
  | .put key value, .stored =>
    let cached := kvcachePut server.cache key value
    some ({ server with cache := cached.2 }, .returned (.code cached.1))
  | .del key, .idle =>
    if kvcacheGetlock key = false then none
    else
      let uncached := kvcacheDel server.cache key
      some ({ server with cache := uncached.2 }, .uncached uncached.1)
  | .del key, .uncached outcome =>
    if kvserverDelCheck server key = 0 then some (server, .deleting)
    else some (server, .returned (.code outcome))
  | .del key, .deleting =>
    let deleted := kvstoreDel hash server.store key
    some ({ server with store := deleted.2 }, .returned (.code deleted.1))
  | _, _ => none

/-- The sections of a request that is alone, up to a number of them. -/
def KvCall.alone (c : KvCall) : ℕ → KvServer → RequestPhase → KvServer × RequestPhase
  | 0, server, phase => (server, phase)
  | n + 1, server, phase =>
    match c.next server phase with
    | some (server, phase) => c.alone n server phase
    | none => (server, phase)

/-- **A request that is alone is the call**: its at most three sections do
what `kvserver_get`, `kvserver_put` or `kvserver_del` does. -/
theorem KvCall.alone_eq_kvserverCall (c : KvCall) (server : KvServer)
    (hlen : c.key.strlen ≤ maxKeyLen) : c.alone 3 server .idle
      = ((kvserverCall server c).2, .returned (kvserverCall server c).1) := by
  cases c with
  | get key =>
    have hkey : ¬ key.strlen > maxKeyLen := not_lt.mpr hlen
    simp only [alone, KvCall.next, kvserverCall, kvserverGet, if_neg hkey]
    cases (kvcacheGet server.cache key).1 with
    | ok value => rfl
    | error e =>
      dsimp only
      cases kvstoreGet hash server.store key <;> rfl
  | put key value =>
    simp only [alone, KvCall.next, kvserverCall, kvserverPut]
    by_cases hcheck : kvserverPutCheck server key value < 0
    · simp only [if_pos hcheck]
    · by_cases hput : (kvstorePut hash server.store key value).1 < 0
      · simp only [if_neg hcheck, if_pos hput]
      · simp only [if_neg hcheck, if_neg hput]
  | del key =>
    have hlen : key.strlen ≤ maxKeyLen := hlen
    have hlock : ¬ kvcacheGetlock key = false := by simp [kvcacheGetlock, hlen]
    simp only [alone, KvCall.next, kvserverCall, kvserverDel, if_neg hlock]
    by_cases hcheck :
        kvserverDelCheck { server with cache := (kvcacheDel server.cache key).2 } key = 0
    · simp only [if_pos hcheck]
    · simp only [if_neg hcheck]

/-! ## Races -/

/-- The request is a `put` that has yet to write its value over what is cached
under the key. -/
def KvCall.Overwrites (key : CString) : KvCall → RequestPhase → Prop
  | .put k _, .stored => k = key
  | _, _ => False

instance (key : CString) :
    (c : KvCall) → (phase : RequestPhase) → Decidable (c.Overwrites key phase)
  | .put k _, .stored => decEq k key
  | .get _, _ | .del _, _ | .put _ _, .idle | .put _ _, .missed | .put _ _, .fetched _
  | .put _ _, .checked | .put _ _, .uncached _ | .put _ _, .deleting
  | .put _ _, .returned _ => .isFalse not_false

theorem KvCall.not_overwrites {key : CString} {c : KvCall} {phase : RequestPhase}
    (h : phase ≠ .stored) : ¬ c.Overwrites key phase := by
  unfold Overwrites
  split
  · exact absurd rfl h
  · exact not_false

/-- A request that has not begun or has returned. -/
def RequestPhase.Rests : RequestPhase → Prop
  | .idle | .returned _ => True
  | _ => False

instance (phase : RequestPhase) : Decidable phase.Rests := by
  unfold RequestPhase.Rests
  split <;> infer_instance

/-- **A server and the requests of its clients.** -/
structure ServerRace (ι : Type) where
  server : KvServer
  phase : ι → RequestPhase

section

variable {ι : Type} [DecidableEq ι] (calls : ι → KvCall)

/-- The requests of all clients before their first sections. -/
def ServerRace.start (server : KvServer) : ServerRace ι := ⟨server, fun _ => .idle⟩

/-- **One client's request takes its next section.** -/
def serverRaceNext (c : ServerRace ι) (i : ι) : Option (ServerRace ι) :=
  ((calls i).next c.server (c.phase i)).map fun r => ⟨r.1, Function.update c.phase i r.2⟩

/-- Another request will overwrite what is cached under the key. -/
def ServerRace.Overwritten (c : ServerRace ι) (i : ι) (key : CString) : Prop :=
  ∃ j, j ≠ i ∧ (calls j).Overwrites key (c.phase j)

/-- **The condition on a section**: a write of the cache is of the pair that
the store has, and a deletion from the store is of a key that is not cached –
unless a `put` of the key has yet to write the cache. -/
def ServerRace.Timely (c : ServerRace ι) (i : ι) : Prop :=
  match calls i, c.phase i with
  | .get key, .fetched value =>
    c.server.store.toMap hash key = some value ∨ c.Overwritten calls i key
  | .put key value, .stored =>
    c.server.store.toMap hash key = some value ∨ c.Overwritten calls i key
  | .del key, .deleting => c.server.cache.cached key = none ∨ c.Overwritten calls i key
  | _, _ => True

instance [Fintype ι] (c : ServerRace ι) (i : ι) (key : CString) :
    Decidable (c.Overwritten calls i key) :=
  inferInstanceAs (Decidable (∃ j, j ≠ i ∧ _))

instance [Fintype ι] (c : ServerRace ι) (i : ι) : Decidable (c.Timely calls i) := by
  unfold ServerRace.Timely
  split <;> infer_instance

/-- A step of a race of requests. -/
def ServerRaceStep (c : ServerRace ι) (i : ι) (c' : ServerRace ι) : Prop :=
  serverRaceNext calls c i = some c'

/-- A step of a race of requests that meets the condition. -/
def TimelyStep (c : ServerRace ι) (i : ι) (c' : ServerRace ι) : Prop :=
  ServerRaceStep calls c i c' ∧ c.Timely calls i

/-- **The invariant of a race of requests.** -/
structure RequestsInv (c : ServerRace ι) : Prop where
  wf : c.server.store.WF hash
  within : ∀ i key, (calls i).Overwrites key (c.phase i) → (calls i).Within
  cached : ∀ key value, c.server.cache.cached key = some value →
    c.server.store.toMap hash key = some value ∨ ∃ i, (calls i).Overwrites key (c.phase i)

end

variable {ι : Type} {calls : ι → KvCall} {c c' : ServerRace ι} {i : ι}

namespace RequestsInv

theorem start {server : KvServer} (h : server.CacheInv) :
    RequestsInv calls (ServerRace.start server) where
  wf := h.wf
  within _ _ hover := absurd hover (KvCall.not_overwrites nofun)
  cached key value hc := .inl (h.coherent key value hc)

/-- What the invariant says of a cached pair, seen from one request. -/
theorem cached_or (h : RequestsInv calls c) (i : ι) {key value : CString}
    (hc : c.server.cache.cached key = some value) :
    c.server.store.toMap hash key = some value ∨ c.Overwritten calls i key
      ∨ (calls i).Overwrites key (c.phase i) := by
  refine (h.cached key value hc).imp id ?_
  rintro ⟨j, hj⟩
  by_cases hji : j = i
  · exact .inr (hji ▸ hj)
  · exact .inl ⟨j, hji, hj⟩

variable [DecidableEq ι]

/-- **A section keeps the invariant** if every pair that is cached after it is
the store's, or will be overwritten by this request or by another one. -/
theorem next (h : RequestsInv calls c) {server : KvServer} {phase : RequestPhase}
    (hwf : server.store.WF hash)
    (hwithin : ∀ key, (calls i).Overwrites key phase → (calls i).Within)
    (hcached : ∀ key value, server.cache.cached key = some value →
      server.store.toMap hash key = some value ∨ c.Overwritten calls i key
        ∨ (calls i).Overwrites key phase) :
    RequestsInv calls ⟨server, Function.update c.phase i phase⟩ where
  wf := hwf
  within j key hj := by
    have hj : (calls j).Overwrites key (Function.update c.phase i phase j) := hj
    by_cases hji : j = i
    · subst hji
      rw [Function.update_self] at hj
      exact hwithin key hj
    · rw [Function.update_of_ne hji] at hj
      exact h.within j key hj
  cached key value hc := by
    refine (hcached key value hc).imp id fun hover => ?_
    show ∃ j, (calls j).Overwrites key (Function.update c.phase i phase j)
    rcases hover with ⟨j, hji, hj⟩ | hi
    · exact ⟨j, by rwa [Function.update_of_ne hji]⟩
    · exact ⟨i, by rwa [Function.update_self]⟩

/-- A section that writes neither the store nor a new pair. -/
theorem look (h : RequestsInv calls c) {cache : KvCache} {phase : RequestPhase}
    (hbefore : c.phase i ≠ .stored) (hafter : phase ≠ .stored)
    (hcached : ∀ key value, cache.cached key = some value →
      c.server.cache.cached key = some value) : RequestsInv calls
      ⟨{ c.server with cache := cache }, Function.update c.phase i phase⟩ := by
  refine h.next h.wf (fun key hover => absurd hover (KvCall.not_overwrites hafter))
    fun key value hc => ?_
  rcases h.cached_or i (hcached key value hc) with hmap | hover | hi
  · exact .inl hmap
  · exact .inr (.inl hover)
  · exact absurd hi (KvCall.not_overwrites hbefore)

theorem put_store (h : RequestsInv calls c) {key value : CString} (hcall : calls i = .put key value)
    (hbefore : c.phase i ≠ .stored) (hok : ¬ (kvstorePut hash c.server.store key value).1 < 0) :
    RequestsInv calls
      ⟨{ c.server with store := (kvstorePut hash c.server.store key value).2 },
        Function.update c.phase i .stored⟩ := by
  have hcheck : kvstorePutCheck c.server.store key value = 0 := by
    by_contra hne
    rw [kvstorePut_of_check_ne hne] at hok
    exact hok (kvstorePutCheck_neg_iff.mpr hne)
  obtain ⟨-, hwf, hmap⟩ := kvstorePut_spec h.wf hcheck
  refine h.next hwf (fun _ _ => ?_) fun k v hc => ?_
  · rw [hcall]
    exact (kvstorePutCheck_eq_zero_iff h.wf.1).mp hcheck
  · by_cases hk : key = k
    · exact .inr (.inr (by rw [hcall]; exact hk))
    · refine (h.cached_or i hc).imp (fun hsame => ?_)
        (Or.imp id fun hi => absurd hi (KvCall.not_overwrites hbefore))
      show (kvstorePut hash c.server.store key value).2.toMap hash k = some v
      rw [hmap, Function.update_of_ne (Ne.symm hk)]
      exact hsame

theorem put_cache (h : RequestsInv calls c) {key value : CString}
    (hcall : calls i = .put key value) (hphase : c.phase i = .stored)
    (htimely : c.server.store.toMap hash key = some value ∨ c.Overwritten calls i key)
    (reply : KvReply) : RequestsInv calls
      ⟨{ c.server with cache := (kvcachePut c.server.cache key value).2 },
        Function.update c.phase i (.returned reply)⟩ := by
  have hover : ∀ k, (calls i).Overwrites k (c.phase i) ↔ key = k := by
    intro k
    rw [hcall, hphase]
    exact Iff.rfl
  have hwithin : (KvCall.put key value).Within :=
    hcall ▸ h.within i key ((hover key).mpr rfl)
  refine h.next h.wf (fun k hi => ?_) fun k v hc => ?_
  · rw [hcall] at hi
    exact hi.elim
  · rcases KvCache.cached_kvcachePut hc with ⟨rfl, rfl⟩ | ⟨hold, hk⟩
    · exact htimely.imp id .inl
    · refine (h.cached_or i hold).imp id (Or.imp id fun hi => ?_)
      exact absurd ((hover k).mp hi).symm (hk hwithin.1 hwithin.2)

theorem fill (h : RequestsInv calls c) {key value : CString} (hbefore : c.phase i ≠ .stored)
    (htimely : c.server.store.toMap hash key = some value ∨ c.Overwritten calls i key)
    {phase : RequestPhase} (hafter : phase ≠ .stored) : RequestsInv calls
      ⟨{ c.server with cache := (kvcachePut c.server.cache key value).2 },
        Function.update c.phase i phase⟩ := by
  refine h.next h.wf (fun k hi => absurd hi (KvCall.not_overwrites hafter)) fun k v hc => ?_
  rcases KvCache.cached_kvcachePut hc with ⟨rfl, rfl⟩ | ⟨hold, -⟩
  · exact htimely.imp id .inl
  · exact (h.cached_or i hold).imp id
      (Or.imp id fun hi => absurd hi (KvCall.not_overwrites hbefore))

theorem del_store (h : RequestsInv calls c) {key : CString} (hbefore : c.phase i ≠ .stored)
    (htimely : c.server.cache.cached key = none ∨ c.Overwritten calls i key)
    {phase : RequestPhase} (hafter : phase ≠ .stored) : RequestsInv calls
      ⟨{ c.server with store := (kvstoreDel hash c.server.store key).2 },
        Function.update c.phase i phase⟩ := by
  by_cases hcheck : kvstoreDelCheck hash c.server.store key = 0
  · obtain ⟨-, hwf, hmap⟩ := kvstoreDel_spec h.wf hcheck
    refine h.next hwf (fun k hi => absurd hi (KvCall.not_overwrites hafter)) fun k v hc => ?_
    by_cases hk : k = key
    · subst hk
      rcases htimely with hnone | hover
      · rw [show c.server.cache.cached k = some v from hc] at hnone
        cases hnone
      · exact .inr (.inl hover)
    · refine (h.cached_or i hc).imp (fun hsame => ?_)
        (Or.imp id fun hi => absurd hi (KvCall.not_overwrites hbefore))
      show (kvstoreDel hash c.server.store key).2.toMap hash k = some v
      rw [hmap, Function.update_of_ne hk]
      exact hsame
  · rw [kvstoreDel_of_check_ne h.wf hcheck]
    exact h.look hbefore hafter fun _ _ hc => hc

/-- **Every step that meets the condition keeps the invariant.** -/
theorem step (h : RequestsInv calls c) (hstep : TimelyStep calls c i c') :
    RequestsInv calls c' := by
  obtain ⟨hnext, htimely⟩ := hstep
  unfold ServerRaceStep serverRaceNext at hnext
  obtain ⟨⟨server, phase⟩, hsection, rfl⟩ := Option.map_eq_some_iff.mp hnext
  unfold ServerRace.Timely at htimely
  have hbefore : ∀ {p : RequestPhase}, c.phase i = p → p ≠ .stored → c.phase i ≠ .stored :=
    fun heq hne => heq ▸ hne
  unfold KvCall.next at hsection
  split at hsection <;> rename_i hcall hphase
  · -- a `get` looks in the cache
    have hget := KvCache.cached_kvcacheGet c.server.cache
    split at hsection
    · cases hsection
      exact h.look (hbefore hphase nofun) nofun fun _ _ hc => hc
    · dsimp only at hsection
      split at hsection <;> cases hsection <;>
        exact h.look (hbefore hphase nofun) nofun fun k v hc => (hget _) ▸ hc
  · -- a `get` looks in the store
    split at hsection <;> cases hsection <;>
      exact h.look (hbefore hphase nofun) nofun fun _ _ hc => hc
  · -- a `get` fills the cache
    rw [hcall, hphase] at htimely
    cases hsection
    exact h.fill (hbefore hphase nofun) htimely nofun
  · -- a `put` is checked
    dsimp only at hsection
    split at hsection <;> cases hsection <;>
      exact h.look (hbefore hphase nofun) nofun fun _ _ hc => hc
  · -- a `put` writes the store
    rename_i key value
    dsimp only at hsection
    split at hsection
    · rename_i hneg
      have hcheck : kvstorePutCheck c.server.store key value ≠ 0 := by
        intro hcheck
        rw [(kvstorePut_spec h.wf hcheck).1] at hneg
        exact lt_irrefl _ hneg
      rw [kvstorePut_of_check_ne hcheck] at hsection
      cases hsection
      exact h.look (hbefore hphase nofun) nofun fun _ _ hc => hc
    · rename_i hok
      cases hsection
      exact h.put_store hcall (hbefore hphase nofun) hok
  · -- a `put` writes the cache
    rw [hcall, hphase] at htimely
    cases hsection
    exact h.put_cache hcall hphase htimely _
  · -- a `del` clears the cache
    split at hsection
    · cases hsection
    · cases hsection
      exact h.look (hbefore hphase nofun) nofun fun _ _ hc => (KvCache.cached_kvcacheDel hc).1
  · -- a `del` is checked
    split at hsection <;> cases hsection <;>
      exact h.look (hbefore hphase nofun) nofun fun _ _ hc => hc
  · -- a `del` writes the store
    rw [hcall, hphase] at htimely
    cases hsection
    exact h.del_store (hbefore hphase nofun) htimely nofun
  · cases hsection

end RequestsInv

/-- **The cache is coherent whenever no request is in progress**, if the
sections of all requests are timely: from a server whose cache is coherent, in
every state of every run in which every request has returned or has not begun,
the cache has what the store has. -/
theorem race_keeps_coherent [DecidableEq ι] {server : KvServer} (hserver : server.CacheInv)
    {steps : List ι} (hrun : Run (TimelyStep calls) (ServerRace.start server) steps c)
    (hrests : ∀ i, (c.phase i).Rests) :
    c.server.cache.Coherent (c.server.store.toMap hash) := by
  have hinv : RequestsInv calls c := hrun.invariant
    (I := fun _ c => RequestsInv calls c) (.start hserver) fun _ _ _ _ h hstep => h.step hstep
  intro key value hc
  refine (hinv.cached key value hc).resolve_right ?_
  rintro ⟨i, hover⟩
  refine KvCall.not_overwrites (fun hphase => ?_) hover
  have hrest := hrests i
  rw [hphase] at hrest
  exact hrest

theorem cacheInv_newServer : newServer.CacheInv :=
  (refines_kvserverInit (show (⟨false, ∅⟩ : KvStore).files = ∅ from rfl) newServer_init).cacheInv

/-- Two clients put different values under one key. -/
def twoPutCalls : Bool → KvCall
  | false => .put letterA letterA
  | true => .put letterA letterB

/-- The second stores its value between the two writes of the first, but
writes the cache last. -/
theorem race_keeps_coherent_overlapping :
    ∃ c, Run (TimelyStep twoPutCalls) (ServerRace.start newServer)
        [false, true, false, true, false, true] c
      ∧ c.server.cache.cached letterA = some letterB
      ∧ c.server.cache.Coherent (c.server.store.toMap hash) := by
  have hrun : ([false, true, false, true, false, true].foldlM (fun (c : ServerRace Bool) i =>
      if c.Timely twoPutCalls i then serverRaceNext twoPutCalls c i else none)
      (ServerRace.start newServer)).any (fun c => (∀ i, (c.phase i).Rests)
        ∧ c.server.cache.cached letterA = some letterB) = true := by
    decide +kernel
  obtain ⟨c, hc, hstate⟩ := (Option.any_eq_true _ _).mp hrun
  have hrun : Run (TimelyStep twoPutCalls) (ServerRace.start newServer)
      [false, true, false, true, false, true] c := by
    refine Run.of_foldlM (fun c i c' h => ?_) hc
    split at h
    · rename_i htimely
      exact ⟨h, htimely⟩
    · cases h
  obtain ⟨hrests, hcached⟩ := of_decide_eq_true hstate
  exact ⟨c, hrun, hcached, race_keeps_coherent cacheInv_newServer hrun hrests⟩

/-- **A stale entry stays**: the clients write the store in one order and the
cache in the other. Both have returned, and the cache has the first value where
the store has the second. -/
theorem stalePut_incoherent :
    ∃ c, Run (ServerRaceStep twoPutCalls) (ServerRace.start newServer)
        [false, true, false, true, true, false] c
      ∧ (∀ i, c.phase i = .returned (.code 0))
      ∧ ¬ c.server.cache.Coherent (c.server.store.toMap hash) := by
  have hrun : ([false, true, false, true, true, false].foldlM (serverRaceNext twoPutCalls)
      (ServerRace.start newServer)).any (fun c => (∀ i, c.phase i = .returned (.code 0))
        ∧ c.server.cache.cached letterA = some letterA
        ∧ c.server.store.toMap hash letterA = some letterB) = true := by
    decide +kernel
  obtain ⟨c, hc, hstate⟩ := (Option.any_eq_true _ _).mp hrun
  obtain ⟨hreturned, hcached, hstored⟩ := of_decide_eq_true hstate
  refine ⟨c, Run.of_foldlM (fun _ _ _ h => h) hc, hreturned, fun hcoherent => ?_⟩
  have hsame := (hcoherent _ _ hcached).symm.trans hstored
  exact absurd hsame (by decide)

end Kv
