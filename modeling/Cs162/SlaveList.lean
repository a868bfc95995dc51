import Cs162.DoublyLinked
import Cs162.TpcMaster

/-!
# The links of the slave list

`TpcMaster` keeps the slaves as a sequence. The master of the source keeps a
head and, in every node, the links to both neighbours, and registration
relinks up to four of them. This module is that level: the nodes live in
memory, a pointer is the place of a node, and the walk of
`tpcmaster_register` follows the links, so that it would go on forever on a
list that closes on itself.

`Represents` ties the two levels together, and registration keeps them tied
(`Represents.register`). What the links are – finite, inverse to each other,
as many as `slave_count` says – is read off the sequence they represent.
-/

namespace Kv.SlaveList

open DoublyLinked

/-- **A node** (`tpcslave_t`), with its links. -/
structure SlaveNode where
  /-- The slave. -/
  slave : TpcSlave
  /-- The next slave in the list. -/
  next : Option ℕ
  /-- The previous slave in the list. -/
  prev : Option ℕ

/-- **A master** (`tpcmaster_t`) and the nodes it has allocated. A pointer is
the place of a node among them. -/
structure LinkedMaster where
  /-- The number of registered slaves. -/
  slaveCount : ℕ
  /-- The largest number of slaves. -/
  slaveCapacity : ℕ
  /-- The number of slaves a GET asks. -/
  redundancy : ℕ
  /-- The head of the list of slaves. -/
  slavesHead : Option ℕ
  /-- The nodes, in the order of their allocation. -/
  nodes : List SlaveNode
  /-- The cache. -/
  cache : KvCache

/-- `tpcmaster_init`. -/
def tpcmasterInit (slaveCapacity redundancy numSets elemPerSet : ℕ) :
    Except Int LinkedMaster :=
  match kvcacheInit numSets elemPerSet with
  | .error e => .error e
  | .ok cache =>
    .ok { slaveCount := 0
          slaveCapacity
          redundancy := if redundancy > slaveCapacity then slaveCapacity else redundancy
          slavesHead := none
          nodes := []
          cache }

namespace LinkedMaster

variable (m : LinkedMaster)

/-- The link of a node to the next one. -/
def next (p : ℕ) : Option ℕ := m.nodes[p]?.bind SlaveNode.next

/-- The link of a node to the previous one. -/
def prev (p : ℕ) : Option ℕ := m.nodes[p]?.bind SlaveNode.prev

/-- The slave of a node. -/
def slave (p : ℕ) : Option TpcSlave := m.nodes[p]?.map SlaveNode.slave

/-- A new node, with null links, behind those there are. -/
def malloc (slave : TpcSlave) : LinkedMaster :=
  { m with nodes := m.nodes ++ [⟨slave, none, none⟩] }

/-- An assignment to the `next` field of a node. -/
def setNext (p : ℕ) (link : Option ℕ) : LinkedMaster :=
  { m with nodes := m.nodes.modify p fun node => { node with next := link } }

/-- An assignment to the `prev` field of a node. -/
def setPrev (p : ℕ) (link : Option ℕ) : LinkedMaster :=
  { m with nodes := m.nodes.modify p fun node => { node with prev := link } }

/-- The loop of `tpcmaster_register`: the node it stops at and the flag
`exists`, with a bound on the rounds. -/
def findBehind (hash : Int) : ℕ → ℕ → Bool → Option (ℕ × Bool)
  | 0, _, _ => none
  | fuel + 1, current, found => do
    let node ← m.nodes[current]?
    match node.next with
    | some next =>
      if node.slave.id < hash then
        findBehind hash fuel next (if node.slave.id = hash then true else found)
      else some (current, found)
    | none => some (current, found)

/-- The node at `p`, already allocated, linked in behind the node at
`current`. -/
def linkBehind (p current : ℕ) : Option LinkedMaster := do
  let node ← m.nodes[current]?
  match node.next with
  | none => some ((m.setNext current (some p)).setPrev p (some current))
  | some next =>
    some ((((m.setNext p (some next)).setPrev next (some p)).setNext current (some p)).setPrev p
      (some current))

/-- The node at `p`, already allocated, linked into the list, and whether it
was. Dereferencing a pointer to no node is no step, and neither is a loop that
does not end. -/
def link (hash : Int) (p : ℕ) : Option (LinkedMaster × Bool) :=
  match m.slavesHead with
  | none => some ({ m with slavesHead := some p }, true)
  | some head => do
    let node ← m.nodes[head]?
    if hash < node.slave.id then
      some ({ (m.setNext p (some head)).setPrev head (some p) with slavesHead := some p }, true)
    else
      let (current, found) ← m.findBehind hash m.nodes.length head false
      if found then some (m, false)
      else
        let m ← m.linkBehind p current
        some (m, true)

end LinkedMaster

/-- **`tpcmaster_register`**, on the links. -/
def tpcmasterRegister (m : LinkedMaster) (hostname portText : CString) (respmsg : KvMessage) :
    Option (LinkedMaster × KvMessage) :=
  if m.slaveCount ≥ m.slaveCapacity then
    some (m, { respmsg with message := .ref errMsgGenericError })
  else do
    let slave : TpcSlave :=
      { id := hash64Bit (portText.bytes ++ 58 :: hostname.bytes)
        host := hostname
        port := (atoi portText % 2 ^ 32).toNat }
    let (m, linked) ← (m.malloc slave).link slave.id m.nodes.length
    some
      ({ m with slaveCount := if linked then m.slaveCount + 1 else m.slaveCount },
        { type := .resp, key := .null, value := .null, message := .ref msgSuccess })

/-! ## The fields of memory -/

section Memory

variable {m : LinkedMaster} {p : ℕ}

theorem getElem?_malloc (slave : TpcSlave) (q : ℕ) : (m.malloc slave).nodes[q]?
      = if q = m.nodes.length then some ⟨slave, none, none⟩ else m.nodes[q]? := by
  show (m.nodes ++ [_])[q]? = _
  split
  · rename_i hq
    rw [hq, List.getElem?_concat_length]
  · rename_i hq
    rcases Nat.lt_or_gt_of_ne hq with hlt | hgt
    · rw [List.getElem?_append_left hlt]
    · rw [List.getElem?_eq_none (by simp; omega), List.getElem?_eq_none (by omega)]

@[simp] theorem next_malloc (slave : TpcSlave) : (m.malloc slave).next = m.next := by
  funext q
  unfold LinkedMaster.next
  rw [getElem?_malloc]
  split
  · rename_i hq
    rw [hq, List.getElem?_eq_none le_rfl]
    rfl
  · rfl

@[simp] theorem prev_malloc (slave : TpcSlave) : (m.malloc slave).prev = m.prev := by
  funext q
  unfold LinkedMaster.prev
  rw [getElem?_malloc]
  split
  · rename_i hq
    rw [hq, List.getElem?_eq_none le_rfl]
    rfl
  · rfl

@[simp] theorem slave_malloc (slave : TpcSlave) :
    (m.malloc slave).slave = Function.update m.slave m.nodes.length (some slave) := by
  funext q
  unfold LinkedMaster.slave
  rw [getElem?_malloc, Function.update_apply]
  split <;> rfl

@[simp] theorem next_setNext (hp : p < m.nodes.length) (link : Option ℕ) :
    (m.setNext p link).next = Function.update m.next p link := by
  funext q
  unfold LinkedMaster.next LinkedMaster.setNext
  rw [List.getElem?_modify, Function.update_apply]
  by_cases hq : q = p
  · simp [hq, hp]
  · simp [hq, Ne.symm hq]

@[simp] theorem prev_setNext (link : Option ℕ) : (m.setNext p link).prev = m.prev := by
  funext q
  unfold LinkedMaster.prev LinkedMaster.setNext
  rw [List.getElem?_modify]
  cases m.nodes[q]? <;> by_cases hq : p = q <;> simp [hq]

@[simp] theorem slave_setNext (link : Option ℕ) : (m.setNext p link).slave = m.slave := by
  funext q
  unfold LinkedMaster.slave LinkedMaster.setNext
  rw [List.getElem?_modify]
  cases m.nodes[q]? <;> by_cases hq : p = q <;> simp [hq]

@[simp] theorem next_setPrev (link : Option ℕ) : (m.setPrev p link).next = m.next := by
  funext q
  unfold LinkedMaster.next LinkedMaster.setPrev
  rw [List.getElem?_modify]
  cases m.nodes[q]? <;> by_cases hq : p = q <;> simp [hq]

@[simp] theorem prev_setPrev (hp : p < m.nodes.length) (link : Option ℕ) :
    (m.setPrev p link).prev = Function.update m.prev p link := by
  funext q
  unfold LinkedMaster.prev LinkedMaster.setPrev
  rw [List.getElem?_modify, Function.update_apply]
  by_cases hq : q = p
  · simp [hq, hp]
  · simp [hq, Ne.symm hq]

@[simp] theorem slave_setPrev (link : Option ℕ) : (m.setPrev p link).slave = m.slave := by
  funext q
  unfold LinkedMaster.slave LinkedMaster.setPrev
  rw [List.getElem?_modify]
  cases m.nodes[q]? <;> by_cases hq : p = q <;> simp [hq]

@[simp] theorem length_setNext (link : Option ℕ) :
    (m.setNext p link).nodes.length = m.nodes.length :=
  List.length_modify ..

@[simp] theorem length_setPrev (link : Option ℕ) :
    (m.setPrev p link).nodes.length = m.nodes.length :=
  List.length_modify ..

theorem lt_of_slave {slave : TpcSlave} (h : m.slave p = some slave) : p < m.nodes.length := by
  by_contra hnot
  rw [LinkedMaster.slave, List.getElem?_eq_none (not_lt.mp hnot)] at h
  cases h

theorem node_of_slave {slave : TpcSlave} (h : m.slave p = some slave) :
    m.nodes[p]? = some ⟨slave, m.next p, m.prev p⟩ := by
  unfold LinkedMaster.slave at h
  unfold LinkedMaster.next LinkedMaster.prev
  cases hnode : m.nodes[p]? with
  | none =>
    rw [hnode] at h
    cases h
  | some node =>
    rw [hnode] at h
    cases h
    rfl

end Memory

/-! ## The sequence the links represent -/

/-- **The links represent a sequence of slaves**: they thread the nodes of
`path`, whose slaves are those of the sequence. -/
structure Represents (m : LinkedMaster) (path : List ℕ) (master : TpcMaster) : Prop where
  /-- The list starts at its head. -/
  head : m.slavesHead = path.head?
  /-- The nodes are linked in both directions. -/
  linked : Linked m.next m.prev none path none
  /-- No node is listed twice. -/
  nodup : path.Nodup
  /-- The nodes hold the slaves. -/
  slaves : path.map m.slave = master.slaves.map some
  /-- The other fields are the same. -/
  fields : (m.slaveCount, m.slaveCapacity, m.redundancy, m.cache)
    = (master.slaveCount, master.slaveCapacity, master.redundancy, master.cache)
  /-- The nodes are counted. -/
  count : m.slaveCount = path.length
  /-- There are no more than the master supports. -/
  le_capacity : m.slaveCount ≤ m.slaveCapacity

variable {m m' : LinkedMaster} {path l₁ l₂ : List ℕ} {master : TpcMaster} {new : TpcSlave}
  {hash : Int}

theorem exists_slave {slaves : List TpcSlave} (h : path.map m.slave = slaves.map some) {p : ℕ}
    (hp : p ∈ path) : ∃ slave, m.slave p = some slave := by
  have hmem : m.slave p ∈ slaves.map some := h ▸ List.mem_map_of_mem hp
  obtain ⟨slave, -, heq⟩ := List.mem_map.mp hmem
  exact ⟨slave, heq.symm⟩

/-- A list without repetitions has no more nodes than there are. -/
theorem length_le_nodes {slaves : List TpcSlave} (hnodup : path.Nodup)
    (hslaves : path.map m.slave = slaves.map some) : path.length ≤ m.nodes.length := by
  have hsub : path.toFinset ⊆ Finset.range m.nodes.length := fun q hq =>
    (exists_slave hslaves (List.mem_toFinset.mp hq)).elim fun _ hs =>
      Finset.mem_range.mpr (lt_of_slave hs)
  have hcard := Finset.card_le_card hsub
  rwa [List.toFinset_card_of_nodup hnodup, Finset.card_range] at hcard

/-- **The loop of registration ends**, without having set its flag, at the node
the walk over the sequence stops at. -/
theorem findBehind_eq {before : Option ℕ} {current fuel p : ℕ} {l : List ℕ} {s : TpcSlave}
    {slaves : List TpcSlave} (hlinked : Linked m.next m.prev before (current :: l) none)
    (hslaves : (current :: l).map m.slave = (s :: slaves).map some) (hfuel : l.length < fuel)
    (hnew : m.slave p = some new) : ∃ l₁ c l₂, current :: l = l₁ ++ c :: l₂
      ∧ m.findBehind new.id fuel current false = some (c, false)
      ∧ (l₁ ++ c :: p :: l₂).map m.slave = (insertBehind new (s :: slaves)).map some := by
  induction l generalizing before current fuel s slaves with
  | nil =>
    obtain ⟨fuel, rfl⟩ : ∃ k, fuel = k + 1 := ⟨fuel - 1, by simp at hfuel; omega⟩
    obtain ⟨hs, hrest⟩ := List.cons.inj hslaves
    obtain rfl : slaves = [] := List.map_eq_nil_iff.mp hrest.symm
    refine ⟨[], current, [], rfl, ?_, ?_⟩
    · rw [LinkedMaster.findBehind, node_of_slave hs, hlinked.2.1]
      rfl
    · show [m.slave current, m.slave p] = [some s, some new]
      rw [hs, hnew]
  | cons d l ih =>
    obtain ⟨fuel, rfl⟩ : ∃ k, fuel = k + 1 := ⟨fuel - 1, by simp at hfuel; omega⟩
    obtain ⟨hs, hrest⟩ := List.cons.inj hslaves
    cases slaves with
    | nil => cases hrest
    | cons t slaves =>
      have hstep : m.findBehind new.id (fuel + 1) current false
          = if s.id < new.id then m.findBehind new.id fuel d false else some (current, false) := by
        rw [LinkedMaster.findBehind, node_of_slave hs, hlinked.2.1]
        show (if s.id < new.id then
          m.findBehind new.id fuel d (if s.id = new.id then true else false) else _) = _
        split
        · rename_i hlt
          rw [if_neg (ne_of_lt hlt)]
        · rfl
      rw [hstep, insertBehind]
      split
      · obtain ⟨l₁, c, l₂, hsplit, hfound, hmap⟩ := ih hlinked.2.2 hrest
          (by simp at hfuel; omega)
        refine ⟨current :: l₁, c, l₂, congrArg (current :: ·) hsplit, hfound, ?_⟩
        exact congrArg₂ List.cons hs hmap
      · refine ⟨[], current, d :: l, rfl, rfl, ?_⟩
        exact congrArg₂ List.cons hs (congrArg₂ List.cons hnew hrest)

/-- What linking a node in has to do: the new links of the node and of its
neighbours, and nothing else. -/
structure LinkedIn (m m' : LinkedMaster) (l₁ l₂ : List ℕ) (p : ℕ) : Prop where
  /-- The head. -/
  head : m'.slavesHead = (l₁ ++ p :: l₂).head?
  /-- The links on. -/
  next : m'.next = fun q =>
    if q = p then l₂.head? else if q ∈ l₁.getLast? then some p else m.next q
  /-- The links back. -/
  prev : m'.prev = fun q =>
    if q = p then l₁.getLast? else if q ∈ l₂.head? then some p else m.prev q
  /-- The slaves. -/
  slave : m'.slave = m.slave
  /-- The other fields. -/
  fields : (m'.slaveCount, m'.slaveCapacity, m'.redundancy, m'.cache)
    = (m.slaveCount, m.slaveCapacity, m.redundancy, m.cache)

theorem linkBehind_eq {c p : ℕ} {slaves : List TpcSlave}
    (hlinked : Linked m.next m.prev none (l₁ ++ c :: l₂) none)
    (hnodup : (l₁ ++ c :: l₂).Nodup) (hslaves : (l₁ ++ c :: l₂).map m.slave = slaves.map some)
    (hhead : m.slavesHead = (l₁ ++ c :: l₂).head?) (hp : p ∉ l₁ ++ c :: l₂)
    (hnew : m.slave p = some new) (hfree : m.next p = none) :
    ∃ m', m.linkBehind p c = some m' ∧ LinkedIn m m' (l₁ ++ [c]) l₂ p := by
  obtain ⟨sc, hsc⟩ := exists_slave hslaves (show c ∈ l₁ ++ c :: l₂ by simp)
  have hplt := lt_of_slave hnew
  have hclt := lt_of_slave hsc
  have hcp : c ≠ p := fun he => hp (by simp [he])
  have hnext : m.next c = l₂.head? := by
    have hat : (l₁ ++ c :: l₂)[l₁.length]? = some c := by simp
    rw [hlinked.next_getElem? hat, List.getElem?_append_right (by omega)]
    simp [List.head?_eq_getElem?]
  have hhead' : m.slavesHead = (l₁ ++ [c] ++ p :: l₂).head? := by
    rw [hhead]
    cases l₁ <;> rfl
  have hlast : ∀ q : ℕ, q ∈ (l₁ ++ [c]).getLast? ↔ q = c := by
    intro q
    simp [eq_comm]
  unfold LinkedMaster.linkBehind
  rw [node_of_slave hsc, hnext]
  cases l₂ with
  | nil =>
    refine ⟨_, rfl, hhead', ?_, ?_, by simp, rfl⟩
    · funext q
      rw [next_setPrev, next_setNext hclt, Function.update_apply]
      by_cases hqp : q = p
      · rw [if_neg (by rw [hqp]; exact hcp.symm), if_pos hqp, hqp]
        exact hfree
      · simp [hqp, eq_comm]
    · funext q
      rw [prev_setPrev (by simpa using hplt), prev_setNext, Function.update_apply]
      simp
  | cons d l₂ =>
    obtain ⟨sd, hsd⟩ := exists_slave hslaves (show d ∈ l₁ ++ c :: d :: l₂ by simp)
    have hdlt := lt_of_slave hsd
    have hdp : d ≠ p := fun he => hp (by simp [he])
    refine ⟨_, rfl, hhead', ?_, ?_, by simp, rfl⟩
    · funext q
      rw [next_setPrev, next_setNext (by simpa using hclt), next_setPrev, next_setNext hplt,
        Function.update_apply, Function.update_apply]
      by_cases hqp : q = p
      · rw [if_neg (by rw [hqp]; exact hcp.symm), if_pos hqp, if_pos hqp]
        rfl
      · simp [hqp, eq_comm]
    · funext q
      rw [prev_setPrev (by simpa using hplt), prev_setNext, prev_setPrev (by simpa using hdlt),
        prev_setNext, Function.update_apply, Function.update_apply]
      simp [eq_comm]

theorem linkFirst_eq {head p : ℕ} {s : TpcSlave} (hs : m.slave head = some s)
    (hp : p ≠ head) (hnew : m.slave p = some new) (hfree : m.prev p = none) : LinkedIn m
      { (m.setNext p (some head)).setPrev head (some p) with slavesHead := some p } []
      (head :: l₂) p where
  head := rfl
  next := by
    funext q
    show ((m.setNext p (some head)).setPrev head (some p)).next q = _
    rw [next_setPrev, next_setNext (lt_of_slave hnew), Function.update_apply]
    simp
  prev := by
    funext q
    show ((m.setNext p (some head)).setPrev head (some p)).prev q = _
    rw [prev_setPrev (by simpa using lt_of_slave hs), prev_setNext, Function.update_apply]
    by_cases hqp : q = p
    · rw [if_neg (by rw [hqp]; exact hp), if_pos hqp, hqp]
      exact hfree
    · simp [hqp, eq_comm]
  slave := by
    show ((m.setNext p (some head)).setPrev head (some p)).slave = _
    rw [slave_setPrev, slave_setNext]
  fields := rfl

/-- **Linking ends**, with the new node where the sequence has the new
slave. -/
theorem link_eq {p : ℕ} {slaves : List TpcSlave} (hhead : m.slavesHead = path.head?)
    (hlinked : Linked m.next m.prev none path none) (hnodup : path.Nodup)
    (hslaves : path.map m.slave = slaves.map some) (hp : p ∉ path)
    (hnew : m.slave p = some new) (hnext : m.next p = none) (hprev : m.prev p = none) :
    ∃ m' l₁ l₂, path = l₁ ++ l₂ ∧ m.link new.id p = some (m', true) ∧ LinkedIn m m' l₁ l₂ p
      ∧ (l₁ ++ p :: l₂).map m.slave = (linkSlave new slaves).map some := by
  unfold LinkedMaster.link
  rw [hhead]
  cases path with
  | nil =>
    obtain rfl : slaves = [] := List.map_eq_nil_iff.mp hslaves.symm
    refine ⟨_, [], [], rfl, rfl, ⟨rfl, ?_, ?_, rfl, rfl⟩, ?_⟩
    · funext q
      show m.next q = _
      by_cases hq : q = p
      · simp [hq, hnext]
      · simp [hq]
    · funext q
      show m.prev q = _
      by_cases hq : q = p
      · simp [hq, hprev]
      · simp [hq]
    · show [m.slave p] = [some new]
      rw [hnew]
  | cons head l =>
    cases slaves with
    | nil => cases hslaves
    | cons s slaves =>
      have hs : m.slave head = some s := (List.cons.inj hslaves).1
      have hphead : p ≠ head := fun he => hp (by simp [he])
      rw [List.head?_cons]
      dsimp only
      rw [node_of_slave hs]
      show ∃ m' l₁ l₂, _ ∧ (if new.id < s.id then _ else _) = _ ∧ _ ∧
        _ = (if new.id < s.id then _ else _ : List TpcSlave).map some
      split
      · refine ⟨_, [], head :: l, rfl, rfl, linkFirst_eq hs hphead hnew hprev, ?_⟩
        exact congrArg₂ List.cons hnew hslaves
      · have hfuel : l.length < m.nodes.length := length_le_nodes hnodup hslaves
        obtain ⟨l₁, c, l₂, hsplit, hfound, hmap⟩ := findBehind_eq hlinked hslaves hfuel hnew
        rw [hsplit] at hlinked hnodup hslaves hp hhead
        obtain ⟨m', hlink, hin⟩ := linkBehind_eq hlinked hnodup hslaves hhead hp hnew hnext
        refine ⟨m', l₁ ++ [c], l₂, by rw [hsplit]; simp, ?_, hin, ?_⟩
        · rw [hfound]
          show (m.linkBehind p c).bind _ = _
          rw [hlink]
          rfl
        · rw [← hmap]
          simp

theorem LinkedIn.linked {p : ℕ} (h : LinkedIn m m' l₁ l₂ p) (hp : p ∉ l₁ ++ l₂)
    (hlinked : Linked m.next m.prev none (l₁ ++ l₂) none) (hnodup : (l₁ ++ l₂).Nodup) :
    Linked m'.next m'.prev none (l₁ ++ p :: l₂) none := by
  have hother : ∀ q ∈ l₁ ++ l₂, q ≠ p := fun q hq hqp => hp (hqp ▸ hq)
  refine hlinked.insert hnodup ?_ ?_ (fun q hq => ?_) (fun q hq => ?_) (fun q hq hnot => ?_)
    fun q hq hnot => ?_
  · rw [h.next, Option.or_none]
    exact if_pos rfl
  · rw [h.prev, Option.or_none]
    exact if_pos rfl
  · have hne := hother q (List.mem_append_left l₂ (List.mem_of_getLast? hq))
    rw [h.next]
    exact (if_neg hne).trans (if_pos hq)
  · have hne := hother q (List.mem_append_right l₁ (List.mem_of_mem_head? hq))
    rw [h.prev]
    exact (if_neg hne).trans (if_pos hq)
  · rw [h.next]
    exact (if_neg (hother q hq)).trans (if_neg hnot)
  · rw [h.prev]
    exact (if_neg (hother q hq)).trans (if_neg hnot)

/-- **One registration**, on both levels: the same response, the links still
represent the sequence, and every node is where it was or one further on. -/
theorem Represents.register (h : Represents m path master) (hostname portText : CString)
    (respmsg : KvMessage) : ∃ m' path', tpcmasterRegister m hostname portText respmsg
        = some (m', (Kv.tpcmasterRegister master hostname portText respmsg).2)
      ∧ Represents m' path' (Kv.tpcmasterRegister master hostname portText respmsg).1
      ∧ path.Sublist path' ∧ ∀ p ∈ path, m'.slave p = m.slave p := by
  obtain ⟨hcount, hfields⟩ := Prod.mk.inj h.fields
  obtain ⟨hcapacity, hfields⟩ := Prod.mk.inj hfields
  unfold tpcmasterRegister Kv.tpcmasterRegister
  rw [hcount, hcapacity]
  split
  · exact ⟨m, path, rfl, h, .refl path, fun _ _ => rfl⟩
  rename_i hroom
  generalize TpcSlave.mk _ _ _ = new
  dsimp only
  have hlt : ∀ q ∈ path, q < m.nodes.length := fun q hq =>
    (exists_slave h.slaves hq).elim fun _ => lt_of_slave
  have hfresh : m.nodes.length ∉ path := fun hin => absurd (hlt _ hin) (lt_irrefl _)
  have hslave : ∀ q ∈ path, (m.malloc new).slave q = m.slave q := by
    intro q hq
    rw [slave_malloc, Function.update_of_ne (ne_of_lt (hlt q hq))]
  have hnone : m.nodes[m.nodes.length]? = none := List.getElem?_eq_none le_rfl
  have hnew : (m.malloc new).slave m.nodes.length = some new := by
    rw [slave_malloc, Function.update_self]
  obtain ⟨m', l₁, l₂, rfl, hlink, hin, hmap⟩ :=
    link_eq (m := m.malloc new) h.head (by simpa using h.linked) h.nodup
      ((List.map_congr_left hslave).trans h.slaves) hfresh hnew
      (by rw [next_malloc, LinkedMaster.next, hnone]; rfl)
      (by rw [prev_malloc, LinkedMaster.prev, hnone]; rfl)
  obtain ⟨hcount', hfields'⟩ := Prod.mk.inj hin.fields
  obtain ⟨hcapacity', hrest'⟩ := Prod.mk.inj hfields'
  rw [hlink]
  refine ⟨_, l₁ ++ m.nodes.length :: l₂, rfl, ?_,
    (List.sublist_cons_self m.nodes.length l₂).append_left l₁, fun q hq => ?_⟩
  · refine ⟨hin.head, hin.linked hfresh (by simpa using h.linked) h.nodup, ?_, ?_, ?_, ?_, ?_⟩
    · exact List.nodup_middle.mpr (List.nodup_cons.mpr ⟨hfresh, h.nodup⟩)
    · show (l₁ ++ m.nodes.length :: l₂).map m'.slave = _
      rw [hin.slave]
      exact hmap
    · show (m'.slaveCount + 1, m'.slaveCapacity, m'.redundancy, m'.cache) = _
      rw [hcount', hcapacity', hrest', ← hfields, ← hcapacity, ← hcount]
      rfl
    · show m'.slaveCount + 1 = (l₁ ++ m.nodes.length :: l₂).length
      rw [hcount']
      show m.slaveCount + 1 = _
      rw [h.count]
      simp [Nat.add_assoc]
    · show m'.slaveCount + 1 ≤ m'.slaveCapacity
      rw [hcount', hcapacity']
      show m.slaveCount + 1 ≤ m.slaveCapacity
      omega
  · show m'.slave q = m.slave q
    rw [hin.slave]
    exact hslave q hq

theorem represents_init {slaveCapacity redundancy numSets elemPerSet : ℕ}
    (hinit : tpcmasterInit slaveCapacity redundancy numSets elemPerSet = .ok m) :
    ∃ master, Kv.tpcmasterInit slaveCapacity redundancy numSets elemPerSet = .ok master
      ∧ Represents m [] master := by
  unfold tpcmasterInit at hinit
  unfold Kv.tpcmasterInit
  cases hcache : kvcacheInit numSets elemPerSet with
  | error e =>
    rw [hcache] at hinit
    cases hinit
  | ok cache =>
    rw [hcache] at hinit
    cases hinit
    refine ⟨_, rfl, ?_⟩
    exact ⟨rfl, trivial, .nil, rfl, rfl, rfl, Nat.zero_le _⟩

/-! ## Registrations in turn -/

/-- A sequence of registrations. -/
def registerAll (m : LinkedMaster) (slaves : List (CString × CString)) : Option LinkedMaster :=
  slaves.foldlM (fun m slave => (tpcmasterRegister m slave.1 slave.2 .zero).map Prod.fst) m

theorem Represents.registerAll (h : Represents m path master) (slaves : List (CString × CString)) :
    ∃ m' path', SlaveList.registerAll m slaves = some m'
      ∧ Represents m' path' (Kv.registerAll master slaves) := by
  induction slaves generalizing m path master with
  | nil => exact ⟨m, path, rfl, h⟩
  | cons slave slaves ih =>
    obtain ⟨m₁, path₁, hregister, h₁, -⟩ := h.register slave.1 slave.2 .zero
    obtain ⟨m', path', hall, h'⟩ := ih h₁
    refine ⟨m', path', ?_, h'⟩
    unfold SlaveList.registerAll at hall ⊢
    rw [List.foldlM_cons, hregister]
    exact hall

/-- **A slave list as it should be**, said of the nodes that are reached from
its head. -/
structure WellLinked (m : LinkedMaster) : Prop where
  /-- The list ends. -/
  finite : (reach m.next m.slavesHead).Finite
  /-- Its nodes are counted. -/
  count : m.slaveCount = (reach m.next m.slavesHead).ncard
  /-- There are no more than the master supports. -/
  le_capacity : m.slaveCount ≤ m.slaveCapacity
  /-- The links back are the inverse of the links on. -/
  inverse : ∀ b ∈ reach m.next m.slavesHead, ∀ a,
    m.prev b = some a ↔ a ∈ reach m.next m.slavesHead ∧ m.next a = some b
  /-- The list does not close on itself. -/
  acyclic : ∀ a ∈ reach m.next m.slavesHead, ∀ n, walk m.next (n + 1) (some a) ≠ some a

theorem Represents.reach_eq (h : Represents m path master) :
    reach m.next m.slavesHead = {p | p ∈ path} := by
  rw [h.head]
  exact h.linked.reach_eq

theorem Represents.wellLinked (h : Represents m path master) : WellLinked m where
  finite := h.reach_eq ▸ path.finite_toSet
  count := by
    rw [h.reach_eq, h.count, ← List.toFinset_card_of_nodup h.nodup, ← Set.ncard_coe_finset,
      List.coe_toFinset]
  le_capacity := h.le_capacity
  inverse b hb a := by
    rw [h.reach_eq] at hb ⊢
    exact h.linked.prev_eq_some_iff hb
  acyclic a ha n := by
    rw [h.reach_eq] at ha
    exact h.linked.walk_ne_self h.nodup ha n

/-- **Registration keeps the slave list**: after any registrations, refused and
repeated ones included, the list is as it should be, and a further one returns
with every node there was still met exactly once, its slave unchanged. -/
theorem tpcmasterRegister_keepsList {slaveCapacity redundancy numSets elemPerSet : ℕ}
    {m₀ : LinkedMaster}
    (hinit : tpcmasterInit slaveCapacity redundancy numSets elemPerSet = .ok m₀)
    (slaves : List (CString × CString)) :
    ∃ m, registerAll m₀ slaves = some m ∧ WellLinked m
      ∧ ∀ hostname portText respmsg, ∃ m' resp,
          tpcmasterRegister m hostname portText respmsg = some (m', resp) ∧ WellLinked m'
          ∧ ∀ p ∈ reach m.next m.slavesHead,
              (∃! n, walk m'.next n m'.slavesHead = some p) ∧ m'.slave p = m.slave p := by
  obtain ⟨master, -, h₀⟩ := represents_init hinit
  obtain ⟨m, path, hall, h⟩ := h₀.registerAll slaves
  refine ⟨m, hall, h.wellLinked, fun hostname portText respmsg => ?_⟩
  obtain ⟨m', path', hregister, h', hsub, hsame⟩ := h.register hostname portText respmsg
  refine ⟨m', _, hregister, h'.wellLinked, fun p hp => ?_⟩
  rw [h.reach_eq] at hp
  rw [h'.head]
  exact ⟨h'.linked.existsUnique_walk h'.nodup (hsub.subset hp), hsame p hp⟩

/-- Four registrations, the last of them repeated. -/
theorem tpcmasterRegister_keepsList_four :
    ∃ m₀ m, tpcmasterInit 4 2 1 2 = .ok m₀
      ∧ registerAll m₀ [(letterA, port1), (letterB, port2), (letterB, port1), (letterB, port1)]
        = some m
      ∧ WellLinked m := by
  obtain ⟨m, hall, hwell, -⟩ := tpcmasterRegister_keepsList (show tpcmasterInit 4 2 1 2 = .ok _
    from rfl) [(letterA, port1), (letterB, port2), (letterB, port1), (letterB, port1)]
  exact ⟨_, m, rfl, hall, hwell⟩

end Kv.SlaveList
