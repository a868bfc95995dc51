import Cs162.SlaveList
import Cs162.SlaveRing

/-!
# Slaves that register again

The comment on `tpcmaster_register` says that a slave that is already in the list is left there,
with a success. It never is: the flag that says so is set only in a loop whose guard excludes it,
and a full list is refused before anyone looks. A slave that registers again is listed twice
while there is room, and gets an error when there is none (`tpcmasterRegister_again_iff`).
-/

namespace Kv.SlaveList

open DoublyLinked

/-- The slaves from a node on, along the links. -/
def LinkedMaster.slavesFrom (m : LinkedMaster) : ℕ → Option ℕ → List TpcSlave
  | 0, _ => []
  | _, none => []
  | fuel + 1, some p =>
    match m.nodes[p]? with
    | none => []
    | some node => node.slave :: m.slavesFrom fuel node.next

/-- **The list of slaves**, along the links from the head. -/
def LinkedMaster.slaves (m : LinkedMaster) : List TpcSlave :=
  m.slavesFrom m.nodes.length m.slavesHead

variable {m : LinkedMaster} {path : List ℕ} {master : TpcMaster}

theorem slavesFrom_eq {fuel : ℕ} {before : Option ℕ} {slaves : List TpcSlave}
    (hlinked : Linked m.next m.prev before path none) (hslaves : path.map m.slave = slaves.map some)
    (hfuel : path.length ≤ fuel) : m.slavesFrom fuel path.head? = slaves := by
  induction path generalizing fuel before slaves with
  | nil =>
    obtain rfl : slaves = [] := List.map_eq_nil_iff.mp hslaves.symm
    cases fuel <;> rfl
  | cons p path ih =>
    obtain ⟨fuel, rfl⟩ := Nat.exists_eq_add_of_le' (Nat.zero_lt_succ _ |>.trans_le hfuel)
    cases slaves with
    | nil => cases hslaves
    | cons s slaves =>
      obtain ⟨hs, hrest⟩ := List.cons.inj hslaves
      have hnext : m.next p = path.head? := hlinked.2.1.trans Option.or_none
      rw [List.head?_cons, LinkedMaster.slavesFrom, node_of_slave hs]
      dsimp only
      rw [hnext, ih hlinked.2.2 hrest (Nat.le_of_succ_le_succ hfuel)]

theorem Represents.slaves_eq (h : Represents m path master) : m.slaves = master.slaves := by
  unfold LinkedMaster.slaves
  rw [h.head]
  exact slavesFrom_eq h.linked h.slaves (length_le_nodes h.nodup h.slaves)

/-- A slave with this host and this port is in the list. -/
def Listed (m : LinkedMaster) (hostname portText : CString) : Prop :=
  ∃ s ∈ m.slaves, s.host = hostname ∧ s.port = (registeredSlave (hostname, portText)).port

/-- What a registration does to the list, with and without room. -/
theorem Represents.register_cases (h : Represents m path master) (hostname portText : CString)
    (respmsg : KvMessage) :
    ∃ m' resp, tpcmasterRegister m hostname portText respmsg = some (m', resp)
      ∧ (m.slaveCount < m.slaveCapacity ∧ resp.message = .ref msgSuccess
          ∧ m'.slaves.Perm (registeredSlave (hostname, portText) :: m.slaves)
          ∧ m'.slaveCount = m.slaveCount + 1
        ∨ m.slaveCount = m.slaveCapacity ∧ resp.message = .ref errMsgGenericError
          ∧ m'.slaves = m.slaves ∧ m'.slaveCount = m.slaveCount) := by
  obtain ⟨m', path', hregister, h', -⟩ := h.register hostname portText respmsg
  obtain ⟨hcount, hfields⟩ := Prod.mk.inj h.fields
  obtain ⟨hcapacity, -⟩ := Prod.mk.inj hfields
  have hcount' : m'.slaveCount = _ := (Prod.mk.inj h'.fields).1
  refine ⟨m', _, hregister, ?_⟩
  rw [h'.slaves_eq, h.slaves_eq, hcount']
  by_cases hroom : m.slaveCount < m.slaveCapacity
  · have hone : Kv.tpcmasterRegister master hostname portText respmsg = _ :=
      tpcmasterRegister_of_lt (hcapacity ▸ hcount ▸ hroom) (hostname, portText) respmsg
    rw [hone]
    exact .inl ⟨hroom, rfl, perm_linkSlave _ _, hcount ▸ rfl⟩
  · have hfull : Kv.tpcmasterRegister master hostname portText respmsg
        = (master, { respmsg with message := .ref errMsgGenericError }) :=
      if_pos (hcapacity ▸ hcount ▸ not_lt.mp hroom)
    rw [hfull]
    exact .inr ⟨le_antisymm h.le_capacity (not_lt.mp hroom), rfl, rfl, hcount.symm⟩

/-- **Registering again is never left without effect.** In a list reached by registrations, a
registration is answered with a success exactly if there is room, it leaves the list and its
count alone exactly if there is none, and with room it lists the slave once more, whether or not
it is there. So what is promised of a slave that is listed holds exactly if it is not. -/
theorem tpcmasterRegister_again_iff {slaveCapacity redundancy numSets elemPerSet : ℕ}
    {m₀ : LinkedMaster}
    (hinit : tpcmasterInit slaveCapacity redundancy numSets elemPerSet = .ok m₀)
    {registrations : List (CString × CString)} (hreach : registerAll m₀ registrations = some m)
    (hostname portText : CString) (respmsg : KvMessage) :
    ∃ m' resp, tpcmasterRegister m hostname portText respmsg = some (m', resp)
      ∧ (resp.message = .ref msgSuccess ↔ m.slaveCount < m.slaveCapacity)
      ∧ (m'.slaves = m.slaves ∧ m'.slaveCount = m.slaveCount ↔ m.slaveCount = m.slaveCapacity)
      ∧ (m.slaveCount < m.slaveCapacity →
          m'.slaves.Perm (registeredSlave (hostname, portText) :: m.slaves))
      ∧ ((Listed m hostname portText → resp.message = .ref msgSuccess
            ∧ m'.slaves = m.slaves ∧ m'.slaveCount = m.slaveCount)
          ↔ ¬ Listed m hostname portText) := by
  obtain ⟨master₀, -, h₀⟩ := represents_init hinit
  obtain ⟨m₁, path, hall, h⟩ := h₀.registerAll registrations
  obtain rfl : m₁ = m := Option.some.inj (hall.symm.trans hreach)
  obtain ⟨m', resp, hregister, hcases⟩ := h.register_cases hostname portText respmsg
  refine ⟨m', resp, hregister, ?_⟩
  obtain ⟨hroom, hsuccess, hperm, hcount⟩ | ⟨hfull, herror, hslaves, hcount⟩ := hcases
  · have hchanged : ¬ (m'.slaves = m₁.slaves ∧ m'.slaveCount = m₁.slaveCount) := fun hsame => by
      omega
    exact ⟨iff_of_true hsuccess hroom, iff_of_false hchanged hroom.ne, fun _ => hperm,
      fun hkept hlisted => hchanged (hkept hlisted).2, fun hnot hlisted => (hnot hlisted).elim⟩
  · have hrefused : resp.message ≠ .ref msgSuccess := by
      rw [herror]
      decide
    exact ⟨iff_of_false hrefused hfull.not_lt, iff_of_true ⟨hslaves, hcount⟩ hfull,
      fun hroom => (hfull.not_lt hroom).elim, fun hkept hlisted => hrefused (hkept hlisted).1,
      fun hnot hlisted => (hnot hlisted).elim⟩

/-- A slave that is not listed yet, in a list with room for it. -/
theorem tpcmasterRegister_again_iff_new :
    ∃ m₀ m m' resp, tpcmasterInit 3 2 1 2 = .ok m₀
      ∧ registerAll m₀ [(letterA, port1)] = some m
      ∧ tpcmasterRegister m letterA port2 .zero = some (m', resp)
      ∧ resp.message = .ref msgSuccess
      ∧ m'.slaves.Perm (registeredSlave (letterA, port2) :: m.slaves) := by
  obtain ⟨m', resp, hregister, hsuccess, -, hperm, -⟩ := tpcmasterRegister_again_iff
    (show tpcmasterInit 3 2 1 2 = .ok _ from rfl)
    (show registerAll _ [(letterA, port1)] = some _ from rfl) letterA port2 .zero
  have hroom : (1 : ℕ) < 3 := by decide
  exact ⟨_, _, m', resp, rfl, rfl, hregister, hsuccess.mpr hroom, hperm hroom⟩

/-- **A slave that registers twice is listed twice**, and where there is no room for that, its
second registration is refused. -/
theorem tpcmasterRegister_twice :
    (∃ m₀ m m' resp, tpcmasterInit 2 2 1 2 = .ok m₀
      ∧ registerAll m₀ [(letterA, port1)] = some m
      ∧ Listed m letterA port1
      ∧ tpcmasterRegister m letterA port1 .zero = some (m', resp)
      ∧ m'.slaves = [registeredSlave (letterA, port1), registeredSlave (letterA, port1)])
    ∧ ∃ m₀ m m' resp, tpcmasterInit 1 1 1 2 = .ok m₀
      ∧ registerAll m₀ [(letterA, port1)] = some m
      ∧ Listed m letterA port1
      ∧ tpcmasterRegister m letterA port1 .zero = some (m', resp)
      ∧ resp.message = .ref errMsgGenericError :=
  ⟨⟨_, _, _, _, rfl, rfl, ⟨_, List.mem_singleton_self _, rfl, rfl⟩, rfl, rfl⟩,
    _, _, _, _, rfl, rfl, ⟨_, List.mem_singleton_self _, rfl, rfl⟩, rfl, rfl⟩

end Kv.SlaveList
