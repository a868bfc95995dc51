import Cs162.TpcMaster

/-!
# The ring of slaves

A key is placed on a ring: its primary is the first slave whose id is above
the hash of the key, and its replicas are the primary and the slaves behind
it, around the end of the list. That needs the list in ascending order of ids,
and it needs writers and readers to agree on the replicas.

Neither is so in general. Registration puts a new slave *behind* the first
one with a larger id, so the order is kept only where the new id lies outside
the range of those there are (`ascending_linkSlave_iff`). A GET asks
`redundancy` slaves from the primary on, and a PUT or DEL goes to every slave
there is, so that the two agree only where there are exactly `redundancy`
slaves.
-/

namespace Kv

/-! ## The order of the list -/

/-- The ids are in strictly increasing order. -/
def Ascending (slaves : List TpcSlave) : Prop := slaves.Pairwise fun s t => s.id < t.id

/-- The id of a slave lies below all others, or above all others. -/
def Outside (slave : TpcSlave) (slaves : List TpcSlave) : Prop :=
  (∀ s ∈ slaves, slave.id < s.id) ∨ ∀ s ∈ slaves, s.id < slave.id

instance (slaves : List TpcSlave) : Decidable (Ascending slaves) :=
  inferInstanceAs (Decidable (slaves.Pairwise _))

instance (slave : TpcSlave) (slaves : List TpcSlave) : Decidable (Outside slave slaves) :=
  inferInstanceAs (Decidable (_ ∨ _))

variable {slave : TpcSlave} {slaves : List TpcSlave}

theorem perm_insertBehind (slave : TpcSlave) (slaves : List TpcSlave) :
    (insertBehind slave slaves).Perm (slave :: slaves) := by
  induction slaves with
  | nil => exact .refl _
  | cons current rest ih =>
    cases rest with
    | nil => exact .swap slave current []
    | cons next rest =>
      unfold insertBehind
      split
      · exact (ih.cons current).trans (.swap slave current (next :: rest))
      · exact .swap slave current (next :: rest)

theorem perm_linkSlave (slave : TpcSlave) (slaves : List TpcSlave) :
    (linkSlave slave slaves).Perm (slave :: slaves) := by
  unfold linkSlave
  split
  · exact .refl _
  · split
    · exact .refl _
    · exact perm_insertBehind slave _

/-- Behind the head, only a slave with the largest id is put in order: any
other is put behind one with a larger id. -/
theorem ascending_insertBehind_iff : Ascending (insertBehind slave slaves)
      ↔ Ascending slaves ∧ ∀ s ∈ slaves, s.id < slave.id := by
  induction slaves with
  | nil => simp [insertBehind, Ascending]
  | cons current rest ih =>
    cases rest with
    | nil => simp [insertBehind, Ascending]
    | cons next rest =>
      unfold insertBehind
      split
      · rename_i hlt
        have hmem : ∀ s, s ∈ insertBehind slave (next :: rest) ↔ s = slave ∨ s ∈ next :: rest :=
          fun s => (perm_insertBehind slave (next :: rest)).mem_iff.trans List.mem_cons
        unfold Ascending at ih ⊢
        rw [List.pairwise_cons, List.pairwise_cons, ih]
        constructor
        · rintro ⟨hall, hasc, hbelow⟩
          refine ⟨⟨fun s hs => hall s ((hmem s).mpr (.inr hs)), hasc⟩, fun s hs => ?_⟩
          cases hs with
          | head => exact hlt
          | tail _ hs => exact hbelow s hs
        · rintro ⟨⟨hall, hasc⟩, hbelow⟩
          refine ⟨fun s hs => ?_, hasc, fun s hs => hbelow s (List.mem_cons_of_mem current hs)⟩
          rcases (hmem s).mp hs with rfl | hs
          · exact hlt
          · exact hall s hs
      · rename_i hle
        refine iff_of_false (fun hasc => hle ?_) fun h => hle (h.2 current List.mem_cons_self)
        exact (List.pairwise_cons.mp hasc).1 slave List.mem_cons_self

/-- **Linking keeps the order exactly where the new id lies outside** those
there are. -/
theorem ascending_linkSlave_iff :
    Ascending (linkSlave slave slaves) ↔ Ascending slaves ∧ Outside slave slaves := by
  cases slaves with
  | nil => simp [linkSlave, Ascending, Outside]
  | cons head rest =>
    rw [linkSlave]
    split
    · rename_i hlt
      have hout : Ascending (head :: rest) → Outside slave (head :: rest) := by
        refine fun hasc => .inl fun s hs => ?_
        cases hs with
        | head => exact hlt
        | tail _ hs => exact hlt.trans ((List.pairwise_cons.mp hasc).1 s hs)
      constructor
      · intro hasc
        have hasc := (List.pairwise_cons.mp hasc).2
        exact ⟨hasc, hout hasc⟩
      · rintro ⟨hasc, -⟩
        refine List.pairwise_cons.mpr ⟨fun s hs => ?_, hasc⟩
        rcases hout hasc with hbelow | habove
        · exact hbelow s hs
        · exact absurd hlt (not_lt.mpr (habove head List.mem_cons_self).le)
    · rename_i hle
      rw [ascending_insertBehind_iff]
      refine and_congr_right fun _ => ⟨.inr, fun hout => hout.resolve_left fun hbelow => ?_⟩
      exact hle (hbelow head List.mem_cons_self)

/-! ## Registrations in turn -/

/-- The slave a registration is for. -/
def registeredSlave (registration : CString × CString) : TpcSlave :=
  { id := hash64Bit (registration.2.bytes ++ 58 :: registration.1.bytes)
    host := registration.1
    port := (atoi registration.2 % 2 ^ 32).toNat }

/-- Every id lies outside those registered before. -/
def RegisterOutside (registrations : List (CString × CString)) : Prop :=
  ∀ i : Fin registrations.length,
    Outside (registeredSlave registrations[i]) ((registrations.take i).map registeredSlave)

instance (registrations : List (CString × CString)) : Decidable (RegisterOutside registrations) :=
  inferInstanceAs (Decidable (∀ _, _))

theorem registerOutside_concat (registrations : List (CString × CString))
    (last : CString × CString) : RegisterOutside (registrations ++ [last])
      ↔ RegisterOutside registrations
        ∧ Outside (registeredSlave last) (registrations.map registeredSlave) := by
  constructor
  · refine fun h => ⟨fun i => ?_, ?_⟩
    · have hi := h ⟨i, by simp⟩
      simpa [List.take_append_of_le_length i.isLt.le] using hi
    · simpa using h ⟨registrations.length, by simp⟩
  · rintro ⟨hinit, hlast⟩ ⟨i, hi⟩
    rcases Nat.lt_or_ge i registrations.length with hlt | hge
    · simpa [hlt, List.take_append_of_le_length hlt.le] using hinit ⟨i, hlt⟩
    · obtain rfl : i = registrations.length := by
        simp at hi
        omega
      simpa using hlast

theorem tpcmasterRegister_of_lt {master : TpcMaster}
    (hroom : master.slaveCount < master.slaveCapacity) (r : CString × CString)
    (respmsg : KvMessage) : tpcmasterRegister master r.1 r.2 respmsg
      = ({ master with
           slaves := linkSlave (registeredSlave r) master.slaves
           slaveCount := master.slaveCount + 1 },
         { type := .resp, key := .null, value := .null, message := .ref msgSuccess }) := by
  unfold tpcmasterRegister
  rw [if_neg (Nat.not_le_of_lt hroom)]
  rfl

/-- While there is room, the list is the one all slaves are linked into. -/
theorem slaves_registerAll (registrations : List (CString × CString)) {master : TpcMaster}
    (hroom : master.slaveCount + registrations.length ≤ master.slaveCapacity) :
    (registerAll master registrations).slaves
      = registrations.foldl (fun slaves r => linkSlave (registeredSlave r) slaves)
          master.slaves := by
  induction registrations generalizing master with
  | nil => rfl
  | cons r rest ih =>
    show (registerAll (tpcmasterRegister master r.1 r.2 .zero).1 rest).slaves = _
    rw [tpcmasterRegister_of_lt (by simp at hroom; omega), ih (by simp at hroom ⊢; omega)]
    rfl

/-- The slaves linked in are those registered. -/
theorem perm_foldl_linkSlave (registrations : List (CString × CString)) :
    (registrations.foldl (fun slaves r => linkSlave (registeredSlave r) slaves) []).Perm
      (registrations.map registeredSlave) := by
  induction registrations using List.reverseRecOn with
  | nil => exact .refl _
  | append_singleton rest r ih =>
    rw [List.foldl_append, List.map_append]
    refine (perm_linkSlave _ _).trans ((ih.cons _).trans ?_)
    exact (List.perm_append_singleton _ _).symm

theorem Outside.perm {slaves' : List TpcSlave} (hperm : slaves.Perm slaves') :
    Outside slave slaves ↔ Outside slave slaves' := by
  unfold Outside
  simp only [hperm.mem_iff]

theorem ascending_foldl_iff (registrations : List (CString × CString)) :
    Ascending (registrations.foldl (fun slaves r => linkSlave (registeredSlave r) slaves) [])
      ↔ RegisterOutside registrations := by
  induction registrations using List.reverseRecOn with
  | nil => exact iff_of_true .nil nofun
  | append_singleton rest r ih =>
    rw [List.foldl_append, registerOutside_concat, ← ih]
    refine ascending_linkSlave_iff.trans (and_congr_right fun _ => ?_)
    exact Outside.perm (perm_foldl_linkSlave rest)

theorem Ascending.nodup (h : Ascending slaves) : slaves.Nodup :=
  h.imp fun hlt heq => absurd (congrArg TpcSlave.id heq) hlt.ne

/-- Two ascending lists of the same slaves are the same. -/
theorem Ascending.eq_of_mem_iff {slaves' : List TpcSlave} (h : Ascending slaves)
    (h' : Ascending slaves') (hmem : ∀ s, s ∈ slaves ↔ s ∈ slaves') : slaves = slaves' := by
  have hperm : slaves.Perm slaves' := (List.perm_ext_iff_of_nodup h.nodup h'.nodup).mpr hmem
  refine List.Perm.eq_of_pairwise ?_ h h' hperm
  exact fun s t _ _ hst hts => absurd hst hts.not_gt

/-- **The ring is sorted exactly where every slave registers outside** the range
of those registered before it; and where that is so, the list depends on
nothing but the set of the slaves that registered. -/
theorem registerAll_ascending_iff {slaveCapacity redundancy numSets elemPerSet : ℕ}
    {master₀ : TpcMaster}
    (hinit : tpcmasterInit slaveCapacity redundancy numSets elemPerSet = .ok master₀)
    (registrations : List (CString × CString)) (hroom : registrations.length ≤ slaveCapacity) :
    (Ascending (registerAll master₀ registrations).slaves ↔ RegisterOutside registrations)
    ∧ (RegisterOutside registrations → ∀ registrations' : List (CString × CString),
        registrations'.length ≤ slaveCapacity → RegisterOutside registrations' →
        (∀ r, r ∈ registrations' ↔ r ∈ registrations) →
        (registerAll master₀ registrations').slaves
          = (registerAll master₀ registrations).slaves) := by
  have hslaves : ∀ l : List (CString × CString), l.length ≤ slaveCapacity →
      (registerAll master₀ l).slaves
        = l.foldl (fun slaves r => linkSlave (registeredSlave r) slaves) [] := by
    intro l hl
    unfold tpcmasterInit at hinit
    split at hinit
    · cases hinit
    · cases hinit
      exact slaves_registerAll l (by simpa using hl)
  rw [hslaves registrations hroom]
  refine ⟨ascending_foldl_iff registrations, fun hout registrations' hroom' hout' hmem => ?_⟩
  rw [hslaves registrations' hroom']
  refine Ascending.eq_of_mem_iff ((ascending_foldl_iff _).mpr hout')
    ((ascending_foldl_iff _).mpr hout) fun s => ?_
  rw [(perm_foldl_linkSlave registrations').mem_iff, (perm_foldl_linkSlave registrations).mem_iff,
    List.mem_map, List.mem_map]
  simp only [hmem]

/-- The string of one letter, `3`. -/
def port3 : CString := ⟨[51], by decide⟩

/-- A master for three slaves. -/
def masterOfThree : TpcMaster := ⟨0, 3, 2, [], ⟨1, fun _ => ⟨2, 0, [], ∅⟩⟩⟩

/-- Three slaves in the order of their ids. -/
theorem registerAll_ascending_iff_inOrder :
    Ascending (registerAll masterOfThree
      [(letterA, port1), (letterA, port2), (letterA, port3)]).slaves :=
  (registerAll_ascending_iff (show tpcmasterInit 3 2 1 2 = .ok masterOfThree from rfl) _
    (by decide)).1.mpr (by decide)

/-- **The second of three slaves, registered last, is put last**: the ids are
distinct, the list is not in order, and in another order of the same
registrations it is another list. -/
theorem registerAll_middleLast :
    tpcmasterInit 3 2 1 2 = .ok masterOfThree
      ∧ ([(letterA, port1), (letterA, port3), (letterA, port2)].map
          fun r => (registeredSlave r).id).Nodup
      ∧ ¬ Ascending (registerAll masterOfThree
          [(letterA, port1), (letterA, port3), (letterA, port2)]).slaves
      ∧ (registerAll masterOfThree
          [(letterA, port1), (letterA, port3), (letterA, port2)]).slaves
        ≠ (registerAll masterOfThree
          [(letterA, port1), (letterA, port2), (letterA, port3)]).slaves :=
  ⟨rfl, by decide, by decide, by decide⟩

/-! ## The slaves a handler connects to -/

section Recording

variable {E : Type*} {net : Net E} {callback : Option (Option TpcSlave → E → E)}
  {master : TpcMaster} {key : CString} {env : E} {seen : List TpcSlave}

/-- **The network with a record** of the slaves that were connected to. -/
def Net.recording (net : Net E) : Net (E × List TpcSlave) where
  connect slave world :=
    let answer := net.connect slave world.1
    (answer.1, answer.2, world.2 ++ [slave])
  exchange slave message world :=
    let answer := net.exchange slave message world.1
    (answer.1, answer.2, world.2)

/-- The test hook, on the world with a record. -/
def recordingHook (callback : Option (Option TpcSlave → E → E)) :
    Option (Option TpcSlave → E × List TpcSlave → E × List TpcSlave) :=
  callback.map fun f slave world => (f slave world.1, world.2)

/-- The slaves the first phase of `tpcmaster_handle_tpc` connects to. -/
def polled (net : Net E) (callback : Option (Option TpcSlave → E → E)) (master : TpcMaster)
    (reqmsg : KvMessage) (env : E) : List TpcSlave :=
  (pollSlaves net.recording (recordingHook callback) reqmsg master.contacted false
    (env, [])).2.2

/-- The slaves the second phase of `tpcmaster_handle_tpc` connects to, where it
ends within the bound. -/
def told (net : Net E) (callback : Option (Option TpcSlave → E → E)) (fuel : ℕ)
    (master : TpcMaster) (type : MsgType) (env : E) : Option (List TpcSlave) :=
  match tellSlaves net.recording (recordingHook callback) type fuel master.contacted (env, []) with
  | (_, true, _, seen) => some seen
  | (_, false, _) => none

/-- The slaves `tpcmaster_handle_get` connects to. -/
def asked (net : Net E) (master : TpcMaster) (key : CString) (respmsg : KvMessage) (env : E) :
    List TpcSlave :=
  match tpcmasterHandleGet net.recording master key respmsg (env, []) with
  | some (_, _, _, seen) => seen
  | none => []

@[simp] theorem record_send (connected : Bool) (slave : TpcSlave) (message : KvMessage)
    (world : E × List TpcSlave) :
    (net.recording.send connected slave message world).2.2 = world.2 := by
  unfold Net.send
  cases connected <;> rfl

@[simp] theorem record_connectTo (slave : TpcSlave) (world : E × List TpcSlave) :
    (net.recording.connectTo (recordingHook callback) slave world).2.2 = world.2 ++ [slave] := by
  unfold Net.connectTo Net.recording
  dsimp only
  cases (net.connect slave world.1).1 with
  | true => rfl
  | false => cases callback <;> rfl

@[simp] theorem record_pollSlave (reqmsg : KvMessage) (slave : TpcSlave)
    (world : E × List TpcSlave) :
    (pollSlave net.recording (recordingHook callback) reqmsg slave world).2.2
      = world.2 ++ [slave] := by
  unfold pollSlave
  rw [record_send, record_connectTo]

/-- **The first phase connects to every slave** it is for. -/
theorem record_pollSlaves (reqmsg : KvMessage) (slaves : List TpcSlave) (abortTpc : Bool)
    (world : E × List TpcSlave) :
    (pollSlaves net.recording (recordingHook callback) reqmsg slaves abortTpc world).2.2
      = world.2 ++ slaves := by
  induction slaves generalizing abortTpc world with
  | nil => exact (List.append_nil _).symm
  | cons slave rest ih =>
    have hone : (pollSlave net.recording (recordingHook callback) reqmsg slave world).2.2 = _ :=
      record_pollSlave reqmsg slave world
    unfold pollSlaves
    split <;> rename_i heq <;> rw [heq] at hone <;> rw [ih, hone, List.append_assoc] <;> rfl

@[simp] theorem record_awaitAck (type : MsgType) (connected : Bool) (slave : TpcSlave) (fuel : ℕ)
    (response : Option KvMessage) (world : E × List TpcSlave) :
    (awaitAck net.recording type connected slave fuel response world).2.2.2 = world.2 := by
  induction fuel generalizing response world with
  | zero => rfl
  | succ fuel ih =>
    unfold awaitAck
    split
    · rfl
    · dsimp only
      rw [ih, record_send]

@[simp] theorem record_tellSlave (type : MsgType) (fuel : ℕ) (slave : TpcSlave)
    (world : E × List TpcSlave) :
    (tellSlave net.recording (recordingHook callback) type fuel slave world).2.2.2
      = world.2 ++ [slave] := by
  unfold tellSlave
  dsimp only
  rw [record_awaitAck, record_send, record_connectTo]

/-- **So does the second**, where every slave acknowledges. -/
theorem record_tellSlaves (type : MsgType) (fuel : ℕ) (slaves : List TpcSlave)
    (world : E × List TpcSlave)
    (hacked : (tellSlaves net.recording (recordingHook callback) type fuel slaves world).2.1
      = true) : (tellSlaves net.recording (recordingHook callback) type fuel slaves world).2.2.2
      = world.2 ++ slaves := by
  induction slaves generalizing world with
  | nil => exact (List.append_nil _).symm
  | cons slave rest ih =>
    have hone : (tellSlave net.recording (recordingHook callback) type fuel slave world).2.2.2
        = _ := record_tellSlave type fuel slave world
    unfold tellSlaves at hacked ⊢
    split at hacked <;> rename_i heq
    · cases hacked
    · rw [heq] at hone
      dsimp only at hacked hone ⊢
      rw [ih _ hacked, hone, List.append_assoc]
      rfl

@[simp] theorem record_sendGetAt (node : ℕ) (world : E × List TpcSlave) :
    (sendGetAt net.recording master node key world).2.2
      = world.2 ++ master.slaves[node]?.toList := by
  unfold sendGetAt
  cases master.slaves[node]? with
  | none => exact (List.append_nil _).symm
  | some slave =>
    show (tpcmasterSendGet net.recording slave key world).2.2 = world.2 ++ [slave]
    have hsend : (net.recording.send (net.recording.connect slave world).1 slave
        { type := .getReq, key := .ref key, value := .uninit, message := .uninit }
        (net.recording.connect slave world).2).2.2 = world.2 ++ [slave] :=
      record_send _ slave _ _
    unfold tpcmasterSendGet
    dsimp only
    generalize net.recording.send _ _ _ _ = reply at hsend ⊢
    obtain ⟨_ | response, world'⟩ := reply
    · exact hsend
    · dsimp only
      split <;> exact hsend

/-- A slave stands on the ring, at most so many places from a node. -/
def OnRing (slaves : List TpcSlave) (node count : ℕ) (slave : TpcSlave) : Prop :=
  ∃ i < count, slaves[(node + i) % slaves.length]? = some slave

/-- `tpcmaster_get_successor` goes around the ring. -/
theorem tpcmasterGetSuccessor_eq {node : ℕ} (hnode : node < master.slaves.length) :
    tpcmasterGetSuccessor master node = (node + 1) % master.slaves.length := by
  unfold tpcmasterGetSuccessor
  split
  · rename_i hlt
    exact (Nat.mod_eq_of_lt hlt).symm
  · obtain heq : node + 1 = master.slaves.length := by omega
    rw [heq, Nat.mod_self]

theorem onRing_succ {slaves : List TpcSlave} {node count : ℕ} {slave : TpcSlave} :
    OnRing slaves node (count + 1) slave
      ↔ slaves[node % slaves.length]? = some slave
        ∨ OnRing slaves ((node + 1) % slaves.length) count slave := by
  have hshift : ∀ i, ((node + 1) % slaves.length + i) % slaves.length
      = (node + (i + 1)) % slaves.length := fun i => by
    rw [Nat.mod_add_mod]
    congr 1
    omega
  unfold OnRing
  simp only [hshift]
  constructor
  · rintro ⟨_ | i, hi, hat⟩
    · exact .inl hat
    · exact .inr ⟨i, by omega, hat⟩
  · rintro (hat | ⟨i, hi, hat⟩)
    · exact ⟨0, by omega, hat⟩
    · exact ⟨i + 1, by omega, hat⟩

/-- The loop of a GET connects to slaves on the ring. -/
theorem onRing_of_getFromSuccessors {rounds node : ℕ} (hnode : node < master.slaves.length)
    (world : E × List TpcSlave) {slave : TpcSlave}
    (hslave : slave ∈ (getFromSuccessors net.recording master key rounds node world).2.2) :
    slave ∈ world.2 ∨ OnRing master.slaves ((node + 1) % master.slaves.length) rounds slave := by
  induction rounds generalizing node world with
  | zero => exact .inl hslave
  | succ rounds ih =>
    have hnext : (node + 1) % master.slaves.length < master.slaves.length :=
      Nat.mod_lt _ (by omega)
    have hsend : (sendGetAt net.recording master ((node + 1) % master.slaves.length) key
        world).2.2 = _ := record_sendGetAt _ _
    have hfirst : slave ∈ world.2 ++ master.slaves[(node + 1) % master.slaves.length]?.toList →
        slave ∈ world.2
          ∨ OnRing master.slaves ((node + 1) % master.slaves.length) (rounds + 1) slave := by
      intro hin
      refine (List.mem_append.mp hin).imp id fun hat => onRing_succ.mpr (.inl ?_)
      rw [Nat.mod_eq_of_lt hnext]
      exact Option.mem_toList.mp hat
    unfold getFromSuccessors at hslave
    rw [tpcmasterGetSuccessor_eq hnode] at hslave
    dsimp only at hslave
    generalize sendGetAt _ _ _ _ _ = reply at hslave hsend
    obtain ⟨_ | value, world'⟩ := reply
    · rcases ih hnext world' hslave with hin | hring
      · rw [show world'.2 = _ from hsend] at hin
        exact hfirst hin
      · exact .inr (onRing_succ.mpr (.inr hring))
    · have hslave : slave ∈ world'.2 := hslave
      rw [show world'.2 = _ from hsend] at hslave
      exact hfirst hslave

end Recording

/-! ## Readers and writers -/

variable {master : TpcMaster} {key : CString}

theorem sendGetAt_silentNet (node : ℕ) (world : Unit × List TpcSlave) :
    (sendGetAt silentNet.recording master node key world).1 = none := by
  unfold sendGetAt
  cases master.slaves[node]? <;> rfl

/-- Where nobody answers, the loop of a GET goes on to the end. -/
theorem mem_getFromSuccessors_silentNet {rounds node : ℕ} (hnode : node < master.slaves.length)
    (world : Unit × List TpcSlave) {slave : TpcSlave} (hslave : slave ∈ world.2
      ∨ OnRing master.slaves ((node + 1) % master.slaves.length) rounds slave) :
    slave ∈ (getFromSuccessors silentNet.recording master key rounds node world).2.2 := by
  induction rounds generalizing node world with
  | zero =>
    refine hslave.elim id fun hring => ?_
    obtain ⟨i, hi, -⟩ := hring
    cases hi
  | succ rounds ih =>
    have hnext : (node + 1) % master.slaves.length < master.slaves.length :=
      Nat.mod_lt _ (by omega)
    have hsend : (sendGetAt silentNet.recording master ((node + 1) % master.slaves.length) key
        world).2.2 = _ := record_sendGetAt _ _
    have hnone : (sendGetAt silentNet.recording master ((node + 1) % master.slaves.length) key
        world).1 = none := sendGetAt_silentNet _ _
    unfold getFromSuccessors
    rw [tpcmasterGetSuccessor_eq hnode]
    dsimp only
    generalize sendGetAt _ _ _ _ _ = reply at hsend hnone ⊢
    obtain ⟨_ | value, world'⟩ := reply
    · refine ih hnext world' ?_
      rw [show world'.2 = _ from hsend, List.mem_append, or_assoc]
      refine hslave.imp id fun hring => (onRing_succ.mp hring).imp (fun hat => ?_) id
      rw [Nat.mod_eq_of_lt hnext] at hat
      exact Option.mem_toList.mpr hat
    · cases hnone

/-- **The slaves a GET of a key may ask**, whatever the cache holds and whoever
answers. -/
def readReplicas (master : TpcMaster) (key : CString) : Set TpcSlave :=
  {slave | ∃ (E : Type) (net : Net E) (env : E) (cache : KvCache) (respmsg : KvMessage),
    slave ∈ asked net { master with cache } key respmsg env}

theorem primaryFrom_lt (hash : Int) (slaves : List TpcSlave) (i : ℕ) (hne : slaves ≠ []) :
    primaryFrom hash slaves i < i + slaves.length := by
  induction slaves generalizing i with
  | nil => exact absurd rfl hne
  | cons current rest ih =>
    cases rest with
    | nil =>
      unfold primaryFrom
      split <;> simp
    | cons next rest =>
      unfold primaryFrom
      split
      · have := ih (i + 1) (by simp)
        simp only [List.length_cons] at this ⊢
        omega
      · simp

theorem tpcmasterGetPrimary_eq (hne : master.slaves ≠ []) (key : CString) :
    ∃ node < master.slaves.length, tpcmasterGetPrimary master key = some node := by
  have hlt := primaryFrom_lt (hash64Bit key.bytes) master.slaves 0 hne
  unfold tpcmasterGetPrimary
  cases hslaves : master.slaves with
  | nil => exact absurd hslaves hne
  | cons head rest =>
    rw [hslaves] at hlt
    exact ⟨_, by simpa using hlt, rfl⟩

theorem tpcmasterGetSuccessor_lt {master : TpcMaster} (hne : master.slaves ≠ []) (node : ℕ) :
    tpcmasterGetSuccessor master node < master.slaves.length := by
  have := List.length_pos_iff.mpr hne
  unfold tpcmasterGetSuccessor
  split <;> omega

/-- The slaves a GET connects to stand on the ring behind the primary. -/
theorem onRing_of_askSlaves {E : Type*} {net : Net E} {env : E} {node : ℕ}
    (hnode : tpcmasterGetPrimary master key = some node) (hlt : node < master.slaves.length)
    {found : Option (Ptr CString)} {world : E × List TpcSlave}
    (hask : askSlaves net.recording master key (env, []) = some (found, world))
    {slave : TpcSlave} (hslave : slave ∈ world.2) :
    OnRing master.slaves node (master.redundancy - 1 + 1) slave := by
  have hsend : (sendGetAt net.recording master node key (env, [])).2.2 = _ :=
    record_sendGetAt _ _
  have hfirst : slave ∈ master.slaves[node]?.toList →
      OnRing master.slaves node (master.redundancy - 1 + 1) slave := by
    refine fun hat => onRing_succ.mpr (.inl ?_)
    rw [Nat.mod_eq_of_lt hlt]
    exact Option.mem_toList.mp hat
  unfold askSlaves at hask
  rw [hnode] at hask
  dsimp only at hask
  generalize sendGetAt _ _ _ _ _ = reply at hask hsend
  obtain ⟨_ | value, world'⟩ := reply
  · have hask := (Prod.mk.inj (Option.some.inj hask)).2
    rw [← hask] at hslave
    rcases onRing_of_getFromSuccessors hlt world' hslave with hin | hring
    · rw [show world'.2 = _ from hsend] at hin
      exact hfirst hin
    · exact onRing_succ.mpr (.inr hring)
  · have hask := (Prod.mk.inj (Option.some.inj hask)).2
    rw [← hask, show world'.2 = _ from hsend] at hslave
    exact hfirst hslave

/-- Where nobody answers, it connects to all of them. -/
theorem askSlaves_silentNet {node : ℕ} (hnode : tpcmasterGetPrimary master key = some node)
    (hlt : node < master.slaves.length) :
    ∃ found world, askSlaves silentNet.recording master key ((), []) = some (found, world)
      ∧ ∀ slave, OnRing master.slaves node (master.redundancy - 1 + 1) slave →
          slave ∈ world.2 := by
  have hsend : (sendGetAt silentNet.recording master node key ((), [])).2.2 = _ :=
    record_sendGetAt _ _
  have hnone : (sendGetAt silentNet.recording master node key ((), [])).1 = none :=
    sendGetAt_silentNet _ _
  unfold askSlaves
  rw [hnode]
  dsimp only
  generalize sendGetAt _ _ _ _ _ = reply at hsend hnone ⊢
  obtain ⟨_ | value, world'⟩ := reply
  · refine ⟨_, _, rfl, fun slave hring => mem_getFromSuccessors_silentNet hlt world' ?_⟩
    rw [show world'.2 = _ from hsend]
    refine (onRing_succ.mp hring).imp (fun hat => ?_) id
    rw [Nat.mod_eq_of_lt hlt] at hat
    exact Option.mem_toList.mpr hat
  · cases hnone

/-- They are the primary and its successors on the ring. -/
theorem readReplicas_eq {node : ℕ} (hnode : tpcmasterGetPrimary master key = some node)
    (hlt : node < master.slaves.length) : readReplicas master key
      = {slave | OnRing master.slaves node (master.redundancy - 1 + 1) slave} := by
  ext slave
  constructor
  · rintro ⟨E, net, env, cache, respmsg, hslave⟩
    unfold asked tpcmasterHandleGet at hslave
    dsimp only at hslave
    generalize kvcacheGet cache key = hit at hslave
    obtain ⟨e | value, cache'⟩ := hit
    · dsimp only at hslave
      rcases hask : askSlaves net.recording { master with cache := cache' } key (env, []) with
        _ | ⟨_ | found, world⟩
      all_goals rw [hask] at hslave
      · cases hslave
      all_goals
        have hnode' : tpcmasterGetPrimary { master with cache := cache' } key = some node := hnode
        exact onRing_of_askSlaves hnode' hlt hask hslave
    · cases hslave
  · intro hring
    -- A cache that holds nothing sends every GET to the slaves.
    let cache : KvCache := ⟨1, fun _ => ⟨0, 0, [], ∅⟩⟩
    have hmiss : ∃ e cache', kvcacheGet cache key = (.error e, cache') := by
      unfold kvcacheGet
      split
      · exact ⟨_, _, rfl⟩
      · exact ⟨errNoKey, _, rfl⟩
    obtain ⟨e, cache', hmiss⟩ := hmiss
    have hnode' : tpcmasterGetPrimary { master with cache := cache' } key = some node := hnode
    obtain ⟨found, world, hask, hall⟩ := askSlaves_silentNet hnode' hlt
    refine ⟨Unit, silentNet, (), cache, .zero, ?_⟩
    unfold asked tpcmasterHandleGet
    dsimp only
    rw [hmiss]
    dsimp only
    rw [hask]
    cases found <;> exact hall slave hring

/-- **Every place on the ring is another slave**: so many places, so many
slaves. -/
theorem ncard_onRing {slaves : List TpcSlave} (hnodup : slaves.Nodup) (node : ℕ) {count : ℕ}
    (hcount : count ≤ slaves.length) : {slave | OnRing slaves node count slave}.ncard = count := by
  let place : ℕ → Option TpcSlave := fun i => slaves[(node + i) % slaves.length]?
  have himage : some '' {slave | OnRing slaves node count slave}
      = place '' (Finset.range count : Set ℕ) := by
    ext slave
    constructor
    · rintro ⟨slave, ⟨i, hi, hat⟩, rfl⟩
      exact ⟨i, by simpa using hi, hat⟩
    · rintro ⟨i, hi, rfl⟩
      have hi : i < count := by simpa using hi
      have hlt : (node + i) % slaves.length < slaves.length := Nat.mod_lt _ (by omega)
      exact ⟨slaves[(node + i) % slaves.length], ⟨i, hi, List.getElem?_eq_getElem hlt⟩,
        (List.getElem?_eq_getElem hlt).symm⟩
  have hinj : Set.InjOn place (Finset.range count : Set ℕ) := by
    intro i hi j hj hij
    have hi : i < count := by simpa using hi
    have hj : j < count := by simpa using hj
    have hlt : ∀ k, (node + k) % slaves.length < slaves.length := fun k =>
      Nat.mod_lt _ (by omega)
    have hij : slaves[(node + i) % slaves.length]? = slaves[(node + j) % slaves.length]? := hij
    rw [List.getElem?_eq_getElem (hlt i), List.getElem?_eq_getElem (hlt j)] at hij
    have hmod : node + i ≡ node + j [MOD slaves.length] :=
      hnodup.getElem_inj_iff.mp (Option.some.inj hij)
    have hmod : i ≡ j [MOD slaves.length] := Nat.ModEq.add_left_cancel' node hmod
    exact hmod.eq_of_lt_of_lt (by omega) (by omega)
  calc {slave | OnRing slaves node count slave}.ncard
      = (some '' {slave | OnRing slaves node count slave}).ncard :=
        (Set.ncard_image_of_injective _ (Option.some_injective _)).symm
    _ = (place '' (Finset.range count : Set ℕ)).ncard := by rw [himage]
    _ = (Finset.range count : Set ℕ).ncard := hinj.ncard_image
    _ = count := by rw [Set.ncard_coe_finset, Finset.card_range]

/-- **Writers and readers use the same replicas** of a key: in each phase, a PUT
or DEL of the key goes to exactly the slaves a GET may ask, and there are
`redundancy` of them. -/
structure UsesSameReplicas (master : TpcMaster) (key : CString) : Prop where
  /-- The first phase. -/
  polled : ∀ (E : Type) (net : Net E) (callback : Option (Option TpcSlave → E → E))
    (reqmsg : KvMessage) (env : E), reqmsg.key = .ref key →
    reqmsg.type = .putReq ∨ reqmsg.type = .delReq →
    {slave | slave ∈ Kv.polled net callback master reqmsg env} = readReplicas master key
  /-- The second phase, where it ends. -/
  told : ∀ (E : Type) (net : Net E) (callback : Option (Option TpcSlave → E → E)) (fuel : ℕ)
    (type : MsgType) (env : E) (seen : List TpcSlave),
    Kv.told net callback fuel master type env = some seen →
    {slave | slave ∈ seen} = readReplicas master key
  /-- The number of replicas. -/
  card : (readReplicas master key).ncard = master.redundancy

theorem polled_eq {E : Type*} (net : Net E) (callback : Option (Option TpcSlave → E → E))
    (hcount : master.slaveCount = master.slaves.length) (reqmsg : KvMessage) (env : E) :
    polled net callback master reqmsg env = master.slaves := by
  unfold polled TpcMaster.contacted
  rw [record_pollSlaves, hcount, List.take_length]
  rfl

theorem told_eq {E : Type*} {net : Net E} {callback : Option (Option TpcSlave → E → E)}
    (hcount : master.slaveCount = master.slaves.length) {fuel : ℕ} {type : MsgType} {env : E}
    {seen : List TpcSlave} (htold : told net callback fuel master type env = some seen) :
    seen = master.slaves := by
  unfold told at htold
  split at htold
  · rename_i heq
    cases htold
    have hacked : (tellSlaves net.recording (recordingHook callback) type fuel master.contacted
        (env, [])).2.2.2 = _ := record_tellSlaves _ _ _ _ (by rw [heq])
    unfold TpcMaster.contacted at hacked heq
    rw [heq, hcount, List.take_length] at hacked
    exact hacked
  · cases htold

theorem ncard_slaves (hasc : Ascending master.slaves) :
    {slave | slave ∈ master.slaves}.ncard = master.slaves.length := by
  rw [← List.toFinset_card_of_nodup hasc.nodup, ← Set.ncard_coe_finset, List.coe_toFinset]

/-- Where readers and writers agree, there are no other slaves. -/
theorem UsesSameReplicas.length_eq (h : UsesSameReplicas master key)
    (hasc : Ascending master.slaves) (hcount : master.slaveCount = master.slaves.length) :
    master.slaves.length = master.redundancy := by
  have hpolled := h.polled Unit silentNet none
    { KvMessage.zero with type := .putReq, key := .ref key } () rfl (.inl rfl)
  rw [polled_eq silentNet none hcount] at hpolled
  rw [← ncard_slaves hasc, hpolled, h.card]

/-- Where there are no other slaves, a GET may ask all there are. -/
theorem readReplicas_of_length_eq (hasc : Ascending master.slaves)
    (hlength : master.slaves.length = master.redundancy) :
    {slave | slave ∈ master.slaves} = readReplicas master key := by
  by_cases hne : master.slaves = []
  · ext slave
    refine ⟨fun hin => ?_, ?_⟩
    · have hin : slave ∈ master.slaves := hin
      rw [hne] at hin
      cases hin
    · rintro ⟨E, net, env, cache, respmsg, hslave⟩
      unfold asked tpcmasterHandleGet at hslave
      dsimp only at hslave
      generalize kvcacheGet cache key = hit at hslave
      obtain ⟨e | value, cache'⟩ := hit
      · -- Without a slave the handler dies before it asks anyone.
        have hask : askSlaves net.recording { master with cache := cache' } key (env, [])
            = none := by
          unfold askSlaves tpcmasterGetPrimary
          dsimp only
          rw [hne]
        dsimp only at hslave
        rw [hask] at hslave
        cases hslave
      · cases hslave
  · obtain ⟨node, hlt, hnode⟩ := tpcmasterGetPrimary_eq hne key
    rw [readReplicas_eq hnode hlt]
    have hcount : master.redundancy - 1 + 1 = master.slaves.length := by omega
    rw [hcount]
    symm
    refine Set.eq_of_subset_of_ncard_le ?_ ?_ (List.finite_toSet _)
    · rintro slave ⟨i, -, hat⟩
      exact List.mem_of_getElem? hat
    · rw [ncard_slaves hasc, ncard_onRing hasc.nodup node le_rfl]

/-- **Writers and readers use the same replicas exactly where there are
`redundancy` slaves**: a write goes to all there are. -/
theorem usesSameReplicas_iff (hasc : Ascending master.slaves)
    (hcount : master.slaveCount = master.slaves.length) (key : CString) :
    UsesSameReplicas master key ↔ master.slaves.length = master.redundancy := by
  refine ⟨fun h => h.length_eq hasc hcount, fun hlength => ⟨?_, ?_, ?_⟩⟩
  · intro E net callback reqmsg env _ _
    rw [polled_eq net callback hcount]
    exact readReplicas_of_length_eq hasc hlength
  · intro E net callback fuel type env seen htold
    rw [told_eq hcount htold]
    exact readReplicas_of_length_eq hasc hlength
  · rw [← readReplicas_of_length_eq hasc hlength, ncard_slaves hasc, hlength]

/-- Three slaves in order, with as many replicas as a master has places for. -/
def ringOfThree (redundancy : ℕ) : TpcMaster :=
  registerAll { masterOfThree with redundancy }
    [(letterA, port1), (letterA, port2), (letterA, port3)]

/-- Three slaves and three replicas. -/
theorem usesSameReplicas_iff_three : UsesSameReplicas (ringOfThree 3) letterA :=
  (usesSameReplicas_iff (by decide) (by decide) letterA).mpr (by decide)

/-- **Three slaves and two replicas**: a GET may ask two slaves, and a PUT goes
to all three. -/
theorem ringOfThree_disagrees :
    tpcmasterInit 3 2 1 2 = .ok masterOfThree
      ∧ Ascending (ringOfThree 2).slaves
      ∧ (ringOfThree 2).slaveCount = (ringOfThree 2).slaves.length
      ∧ (ringOfThree 2).redundancy = 2
      ∧ (polled silentNet none (ringOfThree 2) putA ()).length = 3
      ∧ (asked silentNet (ringOfThree 2) letterA .zero ()).length = 2
      ∧ ¬ UsesSameReplicas (ringOfThree 2) letterA :=
  ⟨rfl, by decide, by decide, by decide, by decide, by decide,
    fun h => absurd (h.length_eq (by decide) (by decide)) (by decide)⟩

end Kv
