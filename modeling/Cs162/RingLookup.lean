import Cs162.HashRing
import Cs162.SlaveRing

/-!
# Looking up a key on the ring

On a list of slaves in ascending order of ids, `tpcmaster_get_primary` finds the owner of the
key's hash on the ring of the ids, and `tpcmaster_get_successor` the slave behind a slave, around
the end of the list. A GET that misses the cache asks `redundancy` slaves in this order and
returns the first value it gets, if the process survives the messages it sends: `malloc` leaves
two of their fields as they were, and they are read (`tpcmasterHandleGet_asksReplicas_iff`). A
slave that is added takes over the keys on the arc that leads to it, and no others
(`tpcmasterGetPrimary_added`).
-/

namespace Kv

open HashRing (Owns Arc)

/-- The ids of the slaves, as points of a ring. -/
def ids (slaves : List TpcSlave) : Set Int := {x | x ∈ slaves.map TpcSlave.id}

section Ring

variable {master : TpcMaster} {slaves : List TpcSlave}

theorem Ascending.pairwise_map (h : Ascending slaves) : (slaves.map TpcSlave.id).Pairwise (· < ·) :=
  List.pairwise_map.mpr h

theorem Ascending.eq_of_id_eq (h : Ascending slaves) {s t : TpcSlave} (hs : s ∈ slaves)
    (ht : t ∈ slaves) (hid : s.id = t.id) : s = t :=
  List.inj_on_of_nodup_map (h.pairwise_map.imp ne_of_lt) hs ht hid

/-- The walk of `tpcmaster_get_primary` stops at the first slave behind the hash, or goes back to
the head. -/
theorem primaryFrom_spec (hash : Int) (slaves : List TpcSlave) (i : ℕ) (hne : slaves ≠ []) :
    (∃ before s behind, slaves = before ++ s :: behind ∧ (∀ t ∈ before, t.id ≤ hash)
      ∧ hash < s.id ∧ primaryFrom hash slaves i = i + before.length)
    ∨ (∀ t ∈ slaves, t.id ≤ hash) ∧ primaryFrom hash slaves i = 0 := by
  fun_induction primaryFrom hash slaves i with
  | case1 i => exact absurd rfl hne
  | case2 last i hle =>
    refine .inr ⟨fun t ht => ?_, rfl⟩
    rwa [List.mem_singleton.mp ht]
  | case3 last i hgt => exact .inl ⟨[], last, [], rfl, nofun, not_le.mp hgt, rfl⟩
  | case4 current next rest i hle ih =>
    obtain ⟨before, s, behind, hsplit, hbefore, hs, hat⟩ | ⟨hall, hat⟩ := ih (List.cons_ne_nil _ _)
    · refine .inl ⟨current :: before, s, behind, congrArg _ hsplit, fun t ht => ?_, hs, ?_⟩
      · obtain rfl | ht := List.mem_cons.mp ht
        · exact hle
        · exact hbefore t ht
      · rw [hat, List.length_cons, Nat.add_assoc, Nat.add_comm 1]
    · refine .inr ⟨fun t ht => ?_, hat⟩
      obtain rfl | ht := List.mem_cons.mp ht
      · exact hle
      · exact hall t ht
  | case5 current next rest i hgt =>
    exact .inl ⟨[], current, next :: rest, rfl, nofun, not_le.mp hgt, rfl⟩

/-- **`tpcmaster_get_primary` finds the owner** of the key's hash. -/
theorem owns_tpcmasterGetPrimary (hasc : Ascending master.slaves) (hne : master.slaves ≠ [])
    (key : CString) :
    ∃ node s, tpcmasterGetPrimary master key = some node ∧ master.slaves[node]? = some s
      ∧ Owns (ids master.slaves) (hash64Bit key.bytes) s.id := by
  obtain ⟨head, rest, hslaves⟩ := List.exists_cons_of_ne_nil hne
  have hprimary : tpcmasterGetPrimary master key
      = some (primaryFrom (hash64Bit key.bytes) master.slaves 0) := by
    unfold tpcmasterGetPrimary
    rw [hslaves]
  have hids := hasc.pairwise_map
  obtain ⟨before, s, behind, hsplit, hbefore, hs, hat⟩ | ⟨hall, hat⟩ :=
    primaryFrom_spec (hash64Bit key.bytes) master.slaves 0 hne
  · refine ⟨_, s, hprimary, ?_, ?_⟩
    · rw [hat, hsplit, Nat.zero_add, List.getElem?_append_right le_rfl, Nat.sub_self]
      rfl
    · unfold ids
      rw [hsplit, List.map_append, List.map_cons] at hids ⊢
      refine HashRing.owns_of_append hids (fun x hx => ?_) hs
      obtain ⟨t, ht, rfl⟩ := List.mem_map.mp hx
      exact hbefore t ht
  · refine ⟨_, head, hprimary, by rw [hat, hslaves]; rfl, ?_⟩
    have hbelow : ∀ x ∈ master.slaves.map TpcSlave.id, x ≤ hash64Bit key.bytes := by
      intro x hx
      obtain ⟨t, ht, rfl⟩ := List.mem_map.mp hx
      exact hall t ht
    unfold ids
    rw [hslaves, List.map_cons] at hids hbelow ⊢
    exact HashRing.owns_head hids hbelow

/-- **`tpcmaster_get_successor` finds the slave behind** a slave. -/
theorem owns_tpcmasterGetSuccessor (hasc : Ascending master.slaves) {node : ℕ} {s : TpcSlave}
    (hs : master.slaves[node]? = some s) :
    ∃ t, master.slaves[tpcmasterGetSuccessor master node]? = some t
      ∧ Owns (ids master.slaves) s.id t.id := by
  obtain ⟨hlt, -⟩ := List.getElem?_eq_some_iff.mp hs
  have hnext : (node + 1) % master.slaves.length < master.slaves.length :=
    Nat.mod_lt _ (by omega)
  refine ⟨master.slaves[(node + 1) % master.slaves.length], ?_, ?_⟩
  · rw [tpcmasterGetSuccessor_eq hlt]
    exact List.getElem?_eq_getElem hnext
  · refine HashRing.owns_next hasc.pairwise_map (i := node) ?_ ?_
    · rw [List.getElem?_map, hs]
      rfl
    · rw [List.length_map, List.getElem?_map, List.getElem?_eq_getElem hnext]
      rfl

/-! ## Replicas -/

/-- The slave at a node and the slaves behind it, as many as asked for. -/
def replicaWalk (master : TpcMaster) : ℕ → ℕ → List TpcSlave
  | 0, _ => []
  | n + 1, node =>
    master.slaves[node]?.toList ++ replicaWalk master n (tpcmasterGetSuccessor master node)

/-- **The replicas of a key**: the primary and its successors. -/
def replicas (master : TpcMaster) (key : CString) : List TpcSlave :=
  match tpcmasterGetPrimary master key with
  | none => []
  | some node => replicaWalk master master.redundancy node

theorem replicaWalk_succ {node : ℕ} {s : TpcSlave} (hs : master.slaves[node]? = some s) (n : ℕ) :
    replicaWalk master (n + 1) node
      = s :: replicaWalk master n (tpcmasterGetSuccessor master node) := by
  rw [replicaWalk, hs]
  rfl

/-- The cache has no part in the choice of the replicas. -/
theorem replicas_cache (master : TpcMaster) (cache : KvCache) (key : CString) :
    replicas { master with cache } key = replicas master key := by
  have hwalk : ∀ n node, replicaWalk { master with cache } n node = replicaWalk master n node := by
    intro n
    induction n with
    | zero => exact fun _ => rfl
    | succ n ih => exact fun node => congrArg (master.slaves[node]?.toList ++ ·) (ih _)
  have hprimary : tpcmasterGetPrimary { master with cache } key = tpcmasterGetPrimary master key :=
    rfl
  unfold replicas
  rw [hprimary]
  cases tpcmasterGetPrimary master key with
  | none => rfl
  | some node => exact hwalk _ node

/-- The walk goes around the ring. -/
theorem replicaWalk_eq {node : ℕ} (hnode : node < master.slaves.length) {n : ℕ}
    (hn : n ≤ master.slaves.length) :
    replicaWalk master n node = (master.slaves.rotate node).take n := by
  induction n generalizing node with
  | zero => rfl
  | succ n ih =>
    have hne : master.slaves ≠ [] := List.ne_nil_of_length_pos (by omega)
    have hs := List.getElem?_eq_getElem hnode
    obtain ⟨rest, hrotate⟩ : ∃ rest, master.slaves.rotate node = master.slaves[node] :: rest :=
      List.head?_eq_some_iff.mp ((List.head?_rotate hnode).trans hs)
    have hlength : n ≤ rest.length := by
      have := congrArg List.length hrotate
      rw [List.length_rotate, List.length_cons] at this
      omega
    have hnext : master.slaves.rotate (node + 1) = rest ++ [master.slaves[node]] := by
      rw [← List.rotate_rotate, hrotate, List.rotate_cons_succ, List.rotate_zero]
    rw [replicaWalk_succ hs, ih (tpcmasterGetSuccessor_lt hne node) (by omega),
      tpcmasterGetSuccessor_eq hnode, List.rotate_mod, hnext, hrotate, List.take_succ_cons,
      List.take_append_of_le_length hlength]

/-- Every slave of the walk stands behind the one before it. -/
theorem isChain_replicaWalk (hasc : Ascending master.slaves) (n : ℕ) {node : ℕ}
    (hnode : node < master.slaves.length) :
    (replicaWalk master n node).IsChain fun s t => Owns (ids master.slaves) s.id t.id := by
  induction n generalizing node with
  | zero => exact .nil
  | succ n ih =>
    have hs := List.getElem?_eq_getElem hnode
    obtain ⟨t, ht, howns⟩ := owns_tpcmasterGetSuccessor hasc hs
    obtain ⟨hnext, -⟩ := List.getElem?_eq_some_iff.mp ht
    rw [replicaWalk_succ hs]
    refine List.isChain_cons.mpr ⟨fun u hu => ?_, ih hnext⟩
    cases n with
    | zero => cases hu
    | succ n =>
      rw [replicaWalk_succ ht] at hu
      cases hu
      exact howns

/-! ## Asking the replicas -/

variable {E : Type*}

/-- The reply of a slave that is asked for a key. -/
def Net.getReply (net : Net E) (slave : TpcSlave) (key : CString) (env : E) :
    Option KvMessage × E :=
  let (connected, env) := net.connect slave env
  net.send connected slave
    { type := .getReq, key := .ref key, value := .uninit, message := .uninit } env

/-- The value of a reply of type `GETRESP`. -/
def getRespValue (reply : Option KvMessage) : Option (Ptr CString) :=
  reply.bind fun response => if response.type = .getResp then some response.value else none

/-- **The replies of slaves** that are asked for a key one after the other. -/
def Net.getReplies (net : Net E) (key : CString) : List TpcSlave → E → List (Option KvMessage)
  | [], _ => []
  | slave :: slaves, env =>
    let (reply, env) := net.getReply slave key env
    reply :: net.getReplies key slaves env

/-- The world once slaves have been asked up to the first value. -/
def Net.asking (net : Net E) (key : CString) : List TpcSlave → E → E
  | [], env => env
  | slave :: slaves, env =>
    let (reply, env) := net.getReply slave key env
    if (getRespValue reply).isSome then env else net.asking key slaves env

theorem tpcmasterSendGet_eq (net : Net E) (slave : TpcSlave) (key : CString) (env : E) :
    tpcmasterSendGet net slave key env
      = (getRespValue (net.getReply slave key env).1, (net.getReply slave key env).2) := by
  unfold tpcmasterSendGet Net.getReply
  dsimp only
  split
  · rename_i response env' heq
    rw [heq]
    unfold getRespValue
    dsimp only [Option.bind_some]
    by_cases htype : response.type = .getResp
    · rw [if_neg (not_not.mpr htype), if_pos htype]
    · rw [if_pos htype, if_neg htype]
  · rename_i env' heq
    rw [heq]
    rfl

theorem sendGetAt_eq {node : ℕ} {s : TpcSlave} (hs : master.slaves[node]? = some s) (net : Net E)
    (key : CString) (env : E) : sendGetAt net master node key env
      = (getRespValue (net.getReply s key env).1, (net.getReply s key env).2) := by
  unfold sendGetAt
  rw [hs]
  exact tpcmasterSendGet_eq net s key env

/-- The loop over the successors finds the first value. -/
theorem getFromSuccessors_eq (net : Net E) (key : CString) (rounds : ℕ) {node : ℕ}
    (hne : master.slaves ≠ []) (env : E) : getFromSuccessors net master key rounds node env
      = ((net.getReplies key (replicaWalk master rounds (tpcmasterGetSuccessor master node))
          env).findSome? getRespValue,
        net.asking key (replicaWalk master rounds (tpcmasterGetSuccessor master node)) env) := by
  induction rounds generalizing node env with
  | zero => rfl
  | succ rounds ih =>
    have hs := List.getElem?_eq_getElem (tpcmasterGetSuccessor_lt hne node)
    rw [getFromSuccessors, sendGetAt_eq hs, replicaWalk_succ hs, Net.getReplies, Net.asking]
    dsimp only
    rw [List.findSome?_cons]
    generalize getRespValue (net.getReply _ key env).1 = value
    cases value with
    | none => exact ih _
    | some value => rfl

/-- **The slaves that are asked** are the replicas, up to the first value. -/
theorem askSlaves_eq (net : Net E) (key : CString) (env : E) (hne : master.slaves ≠ [])
    (hpos : 1 ≤ master.redundancy) : askSlaves net master key env
      = some ((net.getReplies key (replicas master key) env).findSome? getRespValue,
        net.asking key (replicas master key) env) := by
  obtain ⟨node, hlt, hprimary⟩ := tpcmasterGetPrimary_eq hne key
  obtain ⟨rounds, hrounds⟩ := Nat.exists_eq_add_of_le' hpos
  have hs := List.getElem?_eq_getElem hlt
  unfold askSlaves replicas
  rw [hprimary]
  dsimp only
  rw [sendGetAt_eq hs, hrounds, replicaWalk_succ hs, Net.getReplies, Net.asking]
  dsimp only
  rw [List.findSome?_cons]
  generalize getRespValue (net.getReply _ key env).1 = value
  cases value with
  | none => exact congrArg some (getFromSuccessors_eq net key rounds hne _)
  | some value => rfl

/-! ## The memory of the messages -/

/-- What `malloc` returned for a GET to a slave can be sent. -/
def GetReadable (before : KvMessage) : Prop := before.value ≠ .uninit ∧ before.message ≠ .uninit

theorem getReply_of_readable (net : Net E) {before : TpcSlave → KvMessage} {slave : TpcSlave}
    (h : GetReadable (before slave)) (key : CString) (world : Bool × E) :
    ((net.inMemory before).getReply slave key (some world)).2.isSome = true := by
  have hreadable : ((before slave).over
      { type := .getReq, key := .ref key, value := .uninit, message := .uninit }).Readable :=
    ⟨nofun, h⟩
  unfold Net.getReply Net.inMemory Net.send
  dsimp only [Option.map_some]
  rw [if_pos rfl, if_pos hreadable]
  rfl

theorem getReply_of_not_readable (net : Net E) {before : TpcSlave → KvMessage} {slave : TpcSlave}
    (h : ¬ GetReadable (before slave)) (key : CString) (world : Option (Bool × E)) :
    (net.inMemory before).getReply slave key world = (none, none) := by
  have hnot : ¬ ((before slave).over
      { type := .getReq, key := .ref key, value := .uninit, message := .uninit }).Readable :=
    fun hreadable => h hreadable.2
  cases world with
  | none => rfl
  | some world =>
    unfold Net.getReply Net.inMemory Net.send
    dsimp only [Option.map_some]
    rw [if_pos rfl, if_neg hnot]

/-- **The process survives** messages that can be sent. -/
theorem asking_isSome (net : Net E) {before : TpcSlave → KvMessage} {slaves : List TpcSlave}
    (h : ∀ slave ∈ slaves, GetReadable (before slave)) (key : CString) (world : Bool × E) :
    ((net.inMemory before).asking key slaves (some world)).isSome = true := by
  induction slaves generalizing world with
  | nil => rfl
  | cons slave slaves ih =>
    have hsome := getReply_of_readable net (h slave List.mem_cons_self) key world
    unfold Net.asking
    generalize (net.inMemory before).getReply slave key (some world) = reply at hsome
    obtain ⟨reply, _ | world'⟩ := reply
    · cases hsome
    · dsimp only
      split
      · rfl
      · exact ih (fun slave hs => h slave (List.mem_cons_of_mem _ hs)) world'

theorem asking_none (net : Net E) (before : TpcSlave → KvMessage) (key : CString)
    (slaves : List TpcSlave) : (net.inMemory before).asking key slaves none = none := by
  induction slaves with
  | nil => rfl
  | cons slave slaves ih => exact ih

/-- **It dies** of the first one that cannot, if nobody answers. -/
theorem asking_silentNet {before : TpcSlave → KvMessage} {slaves : List TpcSlave}
    {slave : TpcSlave} (hmem : slave ∈ slaves) (h : ¬ GetReadable (before slave)) (key : CString)
    (world : Option (Bool × Unit)) :
    (silentNet.inMemory before).asking key slaves world = none := by
  induction slaves generalizing world with
  | nil => cases hmem
  | cons first slaves ih =>
    have hreply : ((silentNet.inMemory before).getReply first key world).1 = none := by
      unfold Net.getReply Net.inMemory Net.send
      dsimp only
      rw [if_pos rfl]
      cases world with
      | none => rfl
      | some world =>
        dsimp only [Option.map_some]
        split
        · split <;> rfl
        · rfl
    unfold Net.asking
    dsimp only
    rw [hreply]
    obtain rfl | hmem := List.mem_cons.mp hmem
    · rw [getReply_of_not_readable silentNet h key world]
      exact asking_none ..
    · exact ih hmem _

/-- The response to a GET of a key that no slave has a value for. -/
def noKeyResponse : KvMessage :=
  { type := .resp, key := .null, value := .null, message := .ref errMsgNoKey }

/-- **A GET asks the replicas**, whatever the slaves reply: the process survives, the value is
that of the first replica that answers with one, and the error is returned exactly if none
does. -/
def AsksReplicas (before : TpcSlave → KvMessage) (master : TpcMaster) (key : CString) : Prop :=
  ∀ (E : Type) (net : Net E) (env : E) (respmsg : KvMessage),
    let replies := (net.inMemory before).getReplies key (replicas master key) (some (false, env))
    ∃ master' response world,
      tpcmasterHandleGet (net.inMemory before) master key respmsg (some (false, env))
        = some (master', response, some world)
      ∧ (∀ value, replies.findSome? getRespValue = some value →
          response = { respmsg with type := .getResp, key := .ref key, value })
      ∧ (response = noKeyResponse ↔ ∀ reply ∈ replies, getRespValue reply = none)

/-- **Ring lookup and replica walk.** On a list in ascending order the primary of a key is the
slave with the least id above the key's hash, or with the least id of all; the replicas are
`redundancy` distinct slaves from the primary on, each the one behind the slave before it; and a
GET that misses the cache asks them in this order exactly if what `malloc` leaves in the messages
to them can be sent. -/
theorem tpcmasterHandleGet_asksReplicas_iff (hasc : Ascending master.slaves)
    (hne : master.slaves ≠ []) (hpos : 1 ≤ master.redundancy)
    (hle : master.redundancy ≤ master.slaves.length) {key : CString} {e : Int} {cache : KvCache}
    (hmiss : kvcacheGet master.cache key = (.error e, cache)) (before : TpcSlave → KvMessage) :
    (∃ node s, tpcmasterGetPrimary master key = some node ∧ master.slaves[node]? = some s
      ∧ Owns (ids master.slaves) (hash64Bit key.bytes) s.id
      ∧ (replicas master key).head? = some s)
    ∧ (replicas master key).length = master.redundancy
    ∧ (replicas master key).Nodup
    ∧ (replicas master key).IsChain (fun s t => Owns (ids master.slaves) s.id t.id)
    ∧ (AsksReplicas before master key
      ↔ ∀ slave ∈ replicas master key, GetReadable (before slave)) := by
  obtain ⟨node, s, hprimary, hs, howns⟩ := owns_tpcmasterGetPrimary hasc hne key
  obtain ⟨hlt, -⟩ := List.getElem?_eq_some_iff.mp hs
  obtain ⟨rounds, hrounds⟩ := Nat.exists_eq_add_of_le' hpos
  have hreplicas : replicas master key = replicaWalk master master.redundancy node := by
    unfold replicas
    rw [hprimary]
  have hrotate := hreplicas.trans (replicaWalk_eq hlt hle)
  have hask {E : Type} (net : Net E) (env : E) := askSlaves_eq net key env
    (show ({ master with cache } : TpcMaster).slaves ≠ [] from hne) hpos
  simp only [replicas_cache] at hask
  refine ⟨⟨node, s, hprimary, hs, howns, ?_⟩, ?_, ?_, ?_, fun hasks slave hslave => ?_,
    fun hreadable E net env respmsg => ?_⟩
  · rw [hreplicas, hrounds, replicaWalk_succ hs]
    rfl
  · rw [hrotate, List.length_take, List.length_rotate, min_eq_left hle]
  · rw [hrotate]
    exact (List.nodup_rotate.mpr hasc.nodup).sublist (List.take_sublist ..)
  · rw [hreplicas]
    exact isChain_replicaWalk hasc _ hlt
  · by_contra hnot
    obtain ⟨master', response, world, hget, -⟩ := hasks Unit silentNet () .zero
    unfold tpcmasterHandleGet at hget
    rw [hmiss] at hget
    dsimp only at hget
    rw [hask, asking_silentNet hslave hnot] at hget
    generalize List.findSome? _ _ = found at hget
    cases found <;> cases hget
  · dsimp only
    obtain ⟨world, hworld⟩ := Option.isSome_iff_exists.mp
      (asking_isSome net hreadable key (false, env))
    unfold tpcmasterHandleGet
    rw [hmiss]
    dsimp only
    rw [hask, hworld]
    cases hfound : ((net.inMemory before).getReplies key (replicas master key)
        (some (false, env))).findSome? getRespValue with
    | none =>
      refine ⟨_, noKeyResponse, world, rfl, nofun, ?_⟩
      exact iff_of_true rfl (List.findSome?_eq_none_iff.mp hfound)
    | some value =>
      refine ⟨_, _, world, rfl, fun _ h => by cases h; rfl, ?_⟩
      refine iff_of_false (fun h => ?_) fun h => ?_
      · cases congrArg KvMessage.type h
      · rw [List.findSome?_eq_none_iff.mpr h] at hfound
        cases hfound

/-! ## A slave that is added -/

/-- The slave at the node that `tpcmaster_get_primary` returns. -/
def primarySlave (master : TpcMaster) (key : CString) : Option TpcSlave :=
  (tpcmasterGetPrimary master key).bind fun node => master.slaves[node]?

/-- A slave stands before another one, by `tpcmaster_get_successor`. -/
def Precedes (master : TpcMaster) (p s : TpcSlave) : Prop :=
  ∃ node, master.slaves[node]? = some p
    ∧ master.slaves[tpcmasterGetSuccessor master node]? = some s

theorem owns_primarySlave (hasc : Ascending master.slaves) (hne : master.slaves ≠ [])
    (key : CString) : ∃ p ∈ master.slaves, primarySlave master key = some p
      ∧ Owns (ids master.slaves) (hash64Bit key.bytes) p.id := by
  obtain ⟨node, p, hprimary, hp, howns⟩ := owns_tpcmasterGetPrimary hasc hne key
  refine ⟨p, List.mem_of_getElem? hp, ?_, howns⟩
  unfold primarySlave
  rw [hprimary]
  exact hp

/-- In a list of two slaves or more every slave has another one before it. -/
theorem exists_precedes (hnodup : master.slaves.Nodup) (htwo : 2 ≤ master.slaves.length)
    {s : TpcSlave} (hs : s ∈ master.slaves) : ∃ p ∈ master.slaves, p ≠ s ∧ Precedes master p s := by
  obtain ⟨i, hi, rfl⟩ := List.mem_iff_getElem.mp hs
  -- The node before, which is the last one for the head of the list.
  obtain ⟨j, hj, hne, hnext⟩ : ∃ j, ∃ hj : j < master.slaves.length, j ≠ i
      ∧ tpcmasterGetSuccessor master j = i := by
    unfold tpcmasterGetSuccessor
    cases i with
    | zero => exact ⟨master.slaves.length - 1, by omega, by omega, if_neg (by omega)⟩
    | succ i => exact ⟨i, by omega, by omega, if_pos hi⟩
  refine ⟨master.slaves[j], List.getElem_mem hj, fun h => hne (hnodup.getElem_inj_iff.mp h), j,
    List.getElem?_eq_getElem hj, ?_⟩
  rw [hnext]
  exact List.getElem?_eq_getElem hi

/-- **Consistent hashing moves only the necessary keys.** Where a slave is added to a list in
ascending order, the primary of a key is the new slave or the one it was; and it is the new slave
exactly if the hash of the key lies on the arc from the slave before the new one, which belongs
to the arc, to the new one, which does not. -/
theorem tpcmasterGetPrimary_added {master' : TpcMaster} {s : TpcSlave}
    (hasc : Ascending master.slaves) (hne : master.slaves ≠ [])
    (hasc' : Ascending master'.slaves) (hadded : master'.slaves.Perm (s :: master.slaves))
    (key : CString) :
    ∃ p p' before, primarySlave master key = some p ∧ primarySlave master' key = some p'
      ∧ (p' = s ∨ p' = p)
      ∧ before ∈ master.slaves ∧ Precedes master' before s
      ∧ (p' = s ↔ hash64Bit key.bytes ∈ Arc before.id s.id) := by
  have hmem : ∀ t, t ∈ master'.slaves ↔ t = s ∨ t ∈ master.slaves := fun t =>
    hadded.mem_iff.trans List.mem_cons
  have hids : ids master'.slaves = insert s.id (ids master.slaves) := by
    ext x
    exact (hadded.map TpcSlave.id).mem_iff.trans List.mem_cons
  have hs : s ∈ master'.slaves := (hmem s).mpr (.inl rfl)
  have hlength : 2 ≤ master'.slaves.length := by
    rw [hadded.length_eq, List.length_cons]
    exact Nat.succ_le_succ (List.length_pos_iff.mpr hne)
  obtain ⟨p, hp, hprimary, howns⟩ := owns_primarySlave hasc hne key
  obtain ⟨p', hp', hprimary', howns'⟩ :=
    owns_primarySlave hasc' (List.ne_nil_of_mem hs) key
  obtain ⟨before, hbefore, hother, node, hnode, hnext⟩ := exists_precedes hasc'.nodup hlength hs
  obtain ⟨t, ht, hbehind⟩ := owns_tpcmasterGetSuccessor hasc' hnode
  obtain rfl : s = t := Option.some.inj (hnext.symm.trans ht)
  refine ⟨p, p', before, hprimary, hprimary', ?_, ((hmem before).mp hbefore).resolve_left hother,
    ⟨node, hnode, hnext⟩, ?_⟩
  · rw [hids] at howns'
    refine howns'.insert.imp (fun hid => hasc'.eq_of_id_eq hp' hs hid) fun hold => ?_
    exact hasc'.eq_of_id_eq hp' ((hmem p).mpr (.inr hp)) (hold.unique howns)
  · have hbefore' : before.id ∈ ids master'.slaves := List.mem_map_of_mem hbefore
    rw [← HashRing.owns_iff_mem_arc hbefore' hbehind]
    refine ⟨fun h => h ▸ howns', fun h => hasc'.eq_of_id_eq hp' hs (howns'.unique h)⟩

end Ring

/-- A network in which one slave answers with the key it is asked for. -/
def secondAnswers : Net Unit where
  connect _ env := (true, env)
  exchange slave message env :=
    if slave = registeredSlave (letterA, port2) then
      (some { type := .getResp, key := message.key, value := message.key, message := .null }, env)
    else (none, env)

/-- The primary does not answer, and the value is the one of its successor. -/
theorem tpcmasterHandleGet_asksReplicas_second :
    ∃ master' world, tpcmasterHandleGet (secondAnswers.inMemory fun _ => .zero) (ringOfThree 2)
        letterA .zero (some (false, ()))
      = some (master', { KvMessage.zero with
          type := .getResp, key := .ref letterA, value := .ref letterA }, some world) := by
  obtain ⟨-, -, -, -, hasks⟩ := tpcmasterHandleGet_asksReplicas_iff
    (show Ascending (ringOfThree 2).slaves by decide) (by decide) (by decide) (by decide)
    (show kvcacheGet (ringOfThree 2).cache letterA = (.error errNoKey, _) from rfl) fun _ => .zero
  obtain ⟨master', response, world, hresponse, hvalue, -⟩ :=
    hasks.mpr (fun _ _ => ⟨nofun, nofun⟩) Unit secondAnswers () .zero
  rw [hvalue (.ref letterA) (by decide)] at hresponse
  exact ⟨master', world, hresponse⟩

/-- A message in memory that held something else. -/
def usedMemory : KvMessage := ⟨.getReq, .uninit, .uninit, .uninit⟩

/-- **The process dies of its first message**, in memory that has been used. -/
theorem tpcmasterHandleGet_dies :
    (tpcmasterHandleGet (secondAnswers.inMemory fun _ => usedMemory) (ringOfThree 2) letterA .zero
        (some (false, ()))).map (·.2.2) = some none
      ∧ ¬ AsksReplicas (fun _ => usedMemory) (ringOfThree 2) letterA := by
  have hdies : (tpcmasterHandleGet (secondAnswers.inMemory fun _ => usedMemory) (ringOfThree 2)
      letterA .zero (some (false, ()))).map (·.2.2) = some none := by
    decide +kernel
  refine ⟨hdies, fun hasks => ?_⟩
  obtain ⟨master', response, world, hget, -⟩ := hasks Unit secondAnswers () .zero
  rw [hget] at hdies
  cases hdies

/-- The slaves at ports 1 and 3. -/
def ringOfTwo : TpcMaster := registerAll masterOfThree [(letterA, port1), (letterA, port3)]

/-- The slave at port 2 is added between those at ports 1 and 3, and a key stays where it was. -/
theorem tpcmasterGetPrimary_added_between :
    ∃ p before, primarySlave (ringOfThree 2) letterA = some p
      ∧ primarySlave ringOfTwo letterA = some p
      ∧ Precedes (ringOfThree 2) before (registeredSlave (letterA, port2))
      ∧ hash64Bit letterA.bytes ∉ Arc before.id (registeredSlave (letterA, port2)).id := by
  obtain ⟨p, p', before, hp, hp', heq, -, hbefore, hiff⟩ := tpcmasterGetPrimary_added
    (show Ascending ringOfTwo.slaves by decide) (by decide)
    (show Ascending (ringOfThree 2).slaves by decide)
    (show (ringOfThree 2).slaves.Perm (registeredSlave (letterA, port2) :: _) by decide) letterA
  have hfirst : primarySlave (ringOfThree 2) letterA = some (registeredSlave (letterA, port1)) := by
    decide
  have hother : p' ≠ registeredSlave (letterA, port2) := by
    rw [← Option.some.inj (hfirst.symm.trans hp')]
    decide
  obtain rfl : p' = p := heq.resolve_left hother
  exact ⟨p', before, hp', hp, hbefore, fun h => hother (hiff.mpr h)⟩

end Kv
