import Cs162.KvCache

/-!
# The coordinator of two-phase commit

A `TpcMaster` keeps the list of the slaves that registered with it. A GET goes
to the slave a key is placed at and to its successors; a PUT or DEL goes to
every slave in two phases, first the request and then the decision.

What the slaves do is not the master's: it sees the world through a `Net`,
which says whether a connection succeeds and what reply, if any, an exchange
brings. The world is an arbitrary state that every connection and every
exchange may change, so that slaves, failures and lost messages are all
instances.

The second phase resends a decision until it is acknowledged, so the handler
need not return; the model of that loop takes a bound on the resends and says
whether it was enough.
-/

namespace Kv

/-- **A registered slave** (`tpcslave_t`), without its links. -/
structure TpcSlave where
  /-- The hash of its address. -/
  id : Int
  /-- The host. -/
  host : CString
  /-- The port. -/
  port : ℕ
  deriving DecidableEq

/-- **A master** (`tpcmaster_t`). The slaves stand in the order of their
links. -/
structure TpcMaster where
  /-- The number of registered slaves. -/
  slaveCount : ℕ
  /-- The largest number of slaves. -/
  slaveCapacity : ℕ
  /-- The number of slaves a GET asks. -/
  redundancy : ℕ
  /-- The slaves, from `slaves_head` on. -/
  slaves : List TpcSlave
  /-- The cache. -/
  cache : KvCache

/-- `tpcmaster_init`. -/
def tpcmasterInit (slaveCapacity redundancy numSets elemPerSet : ℕ) :
    Except Int TpcMaster :=
  match kvcacheInit numSets elemPerSet with
  | .error e => .error e
  | .ok cache =>
    .ok { slaveCount := 0
          slaveCapacity
          redundancy := if redundancy > slaveCapacity then slaveCapacity else redundancy
          slaves := []
          cache }

/-- A character as the signed integer arithmetic promotes it to. -/
def charToInt (c : UInt8) : Int := (c.toNat : Int).bmod (2 ^ 8)

/-- `hash_64_bit`, on the bytes of a string. -/
def hash64Bit (s : List UInt8) : Int :=
  s.foldl (fun h c => (31 * h + charToInt c).bmod (2 ^ 64)) 1125899906842597

/-! ## Registration -/

/-- The digits of `atoi`. -/
def atoiDigits (s : List UInt8) : ℕ :=
  (s.takeWhile (fun c => decide (48 ≤ c ∧ c ≤ 57))).foldl
    (fun n c => 10 * n + (c.toNat - 48)) 0

/-- `atoi`: leading blanks, a sign, and digits. -/
def atoi (s : CString) : Int :=
  match s.bytes.dropWhile (fun c => decide (c = 32 ∨ (9 ≤ c ∧ c ≤ 13))) with
  | 45 :: rest => -(atoiDigits rest : Int)
  | 43 :: rest => atoiDigits rest
  | rest => atoiDigits rest

/-- The walk of `tpcmaster_register` behind the head: past the slaves with a
smaller hash, but never past the last, and the new slave goes *behind* the
one it stops at. The flag `exists` is set only inside the loop, whose guard
excludes what sets it. -/
def insertBehind (slave : TpcSlave) : List TpcSlave → List TpcSlave
  | [] => [slave]
  | [current] => [current, slave]
  | current :: next :: rest =>
    if current.id < slave.id then current :: insertBehind slave (next :: rest)
    else current :: slave :: next :: rest

/-- The list with a slave linked in. -/
def linkSlave (slave : TpcSlave) : List TpcSlave → List TpcSlave
  | [] => [slave]
  | head :: rest =>
    if slave.id < head.id then slave :: head :: rest
    else insertBehind slave (head :: rest)

/-- **`tpcmaster_register`**: the slave's id is the hash of `PORT:HOSTNAME`. -/
def tpcmasterRegister (master : TpcMaster) (hostname portText : CString)
    (respmsg : KvMessage) : TpcMaster × KvMessage :=
  if master.slaveCount ≥ master.slaveCapacity then
    (master, { respmsg with message := .ref errMsgGenericError })
  else
    let slave : TpcSlave :=
      { id := hash64Bit (portText.bytes ++ 58 :: hostname.bytes)
        host := hostname
        port := (atoi portText % 2 ^ 32).toNat }
    ({ master with
       slaves := linkSlave slave master.slaves
       slaveCount := master.slaveCount + 1 },
      { type := .resp, key := .null, value := .null, message := .ref msgSuccess })

/-- The slaves the loops of the handlers visit: until the list ends or
`slave_count` is reached. -/
def TpcMaster.contacted (master : TpcMaster) : List TpcSlave :=
  master.slaves.take master.slaveCount

/-- The slaves that registered before the first request: their hosts and
ports, in order. -/
def registerAll (master : TpcMaster) (slaves : List (CString × CString)) : TpcMaster :=
  slaves.foldl (fun master slave => (tpcmasterRegister master slave.1 slave.2 .zero).1) master

/-- The port of a slave, `1` or `2`. -/
def port1 : CString := ⟨[49], by decide⟩

/-- The port of the other slave. -/
def port2 : CString := ⟨[50], by decide⟩

/-! ## The network -/

/-- **The world as the master sees it**, over its states. -/
structure Net (E : Type*) where
  /-- `connect_to`: whether a connection is made. -/
  connect : TpcSlave → E → Bool × E
  /-- A message sent on a connection, and the reply parsed from it. -/
  exchange : TpcSlave → KvMessage → E → Option KvMessage × E

/-- A network in which nobody can be reached. -/
def silentNet : Net Unit where
  connect _ env := (false, env)
  exchange _ _ env := (none, env)

variable {E : Type*}

/-- `kvmessage_send` and `kvmessage_parse` on what `connect_to` returned:
without a connection there is no reply. -/
def Net.send (net : Net E) (connected : Bool) (slave : TpcSlave) (message : KvMessage)
    (env : E) : Option KvMessage × E :=
  if connected then net.exchange slave message env else (none, env)

/-- A field that was never written is what was in its place before. -/
def Ptr.over {α : Type} (before : Ptr α) : Ptr α → Ptr α
  | uninit => before
  | p => p

/-- A message in the memory that `malloc` returned for it. -/
def KvMessage.over (before message : KvMessage) : KvMessage where
  type := message.type
  key := before.key.over message.key
  value := before.value.over message.value
  message := before.message.over message.message

/-- **`kvmessage_send` reads every field that is not null.** -/
def KvMessage.Readable (message : KvMessage) : Prop :=
  message.key ≠ .uninit ∧ message.value ≠ .uninit ∧ message.message ≠ .uninit

instance : DecidablePred KvMessage.Readable := fun _ => inferInstanceAs (Decidable (_ ∧ _))

/-- **The network from within a process**, which dies of a message it cannot read, connected
or not: `malloc` leaves in a message to a slave what was in its memory `before`. The world
tells whether there is a connection, and is absent once the process has died. -/
def Net.inMemory (net : Net E) (before : TpcSlave → KvMessage) : Net (Option (Bool × E)) where
  connect slave world := (true, world.map fun (_, env) => net.connect slave env)
  exchange slave message world :=
    match world with
    | none => (none, none)
    | some (connected, env) =>
      let message := (before slave).over message
      if message.Readable then
        let (reply, env) := net.send connected slave message env
        (reply, some (connected, env))
      else (none, none)

/-- A call of the test hook, where there is one. -/
def callHook (callback : Option (Option TpcSlave → E → E)) (slave : Option TpcSlave)
    (env : E) : E :=
  match callback with
  | some f => f slave env
  | none => env

/-- `connect_to`, with the call of the hook where it fails. -/
def Net.connectTo (net : Net E) (callback : Option (Option TpcSlave → E → E))
    (slave : TpcSlave) (env : E) : Bool × E :=
  match net.connect slave env with
  | (true, env) => (true, env)
  | (false, env) => (false, callHook callback (some slave) env)

/-! ## Two-phase commit -/

variable (net : Net E) (callback : Option (Option TpcSlave → E → E))

/-- The message of the first phase. Its `message` field is never written. -/
def requestMessage (reqmsg : KvMessage) : KvMessage :=
  { type := reqmsg.type, key := reqmsg.key, value := reqmsg.value, message := .uninit }

/-- One round of the first phase: the reply of a slave, where there is one. -/
def pollSlave (reqmsg : KvMessage) (slave : TpcSlave) (env : E) : Option KvMessage × E :=
  match net.connectTo callback slave env with
  | (connected, env) => net.send connected slave (requestMessage reqmsg) env

/-- **The first phase**: only a `VOTE_ABORT` sets `abort_tpc`. -/
def pollSlaves (reqmsg : KvMessage) : List TpcSlave → Bool → E → Bool × E
  | [], abortTpc, env => (abortTpc, env)
  | slave :: rest, abortTpc, env =>
    match pollSlave net callback reqmsg slave env with
    | (some response, env) =>
      pollSlaves reqmsg rest (if response.type = .voteAbort then true else abortTpc) env
    | (none, env) => pollSlaves reqmsg rest abortTpc env

/-- The type of the decision. -/
def decisionType (abortTpc : Bool) : MsgType := if abortTpc then .abort else .commit

/-- Whether a reply acknowledges the decision. -/
def isAck (response : Option KvMessage) : Bool :=
  match response with
  | some response => decide (response.type = .ack)
  | none => false

/-- The loop that resends a decision until it is acknowledged, with a bound on
the rounds: the messages it sends, and whether the bound was enough. The
fields of a message that is resent are never written. -/
def awaitAck (type : MsgType) (connected : Bool) (slave : TpcSlave) :
    ℕ → Option KvMessage → E → List KvMessage × Bool × E
  | 0, response, env => ([], isAck response, env)
  | fuel + 1, response, env =>
    if isAck response then ([], true, env)
    else
      let message : KvMessage :=
        { type, key := .uninit, value := .uninit, message := .uninit }
      match net.send connected slave message env with
      | (response, env) =>
        match awaitAck type connected slave fuel response env with
        | (sent, acked, env) => (message :: sent, acked, env)

/-- One round of the second phase. -/
def tellSlave (type : MsgType) (fuel : ℕ) (slave : TpcSlave) (env : E) :
    List KvMessage × Bool × E :=
  let message : KvMessage := { type, key := .null, value := .null, message := .null }
  match net.connectTo callback slave env with
  | (connected, env) =>
    match net.send connected slave message env with
    | (response, env) =>
      match awaitAck net type connected slave fuel response env with
      | (sent, acked, env) => (message :: sent, acked, env)

/-- **The second phase**: the messages sent, and whether every slave
acknowledged within the bound. -/
def tellSlaves (type : MsgType) (fuel : ℕ) :
    List TpcSlave → E → List (TpcSlave × KvMessage) × Bool × E
  | [], env => ([], true, env)
  | slave :: rest, env =>
    match tellSlave net callback type fuel slave env with
    | (sent, false, env) => (sent.map (Prod.mk slave), false, env)
    | (sent, true, env) =>
      match tellSlaves type fuel rest env with
      | (more, acked, env) => (sent.map (Prod.mk slave) ++ more, acked, env)

/-- What is left of `tpcmaster_handle_tpc`: the messages of the second phase,
the response if the handler returned, and the world. -/
structure TpcOutcome (E : Type*) where
  /-- The messages of the second phase, with the slaves they are sent to. -/
  told : List (TpcSlave × KvMessage)
  /-- The response, once the handler returned. -/
  response : Option KvMessage
  /-- The world. -/
  env : E

/-- **`tpcmaster_handle_tpc`**, with a bound on the resends to one slave. -/
def tpcmasterHandleTpc (fuel : ℕ) (master : TpcMaster) (reqmsg respmsg : KvMessage)
    (env : E) : TpcOutcome E :=
  match pollSlaves net callback reqmsg master.contacted false env with
  | (abortTpc, env) =>
    match tellSlaves net callback (decisionType abortTpc) fuel master.contacted
        (callHook callback none env) with
    | (told, true, env) =>
      { told, env, response := some { respmsg with type := .resp, message := .ref msgSuccess } }
    | (told, false, env) => { told, env, response := none }

/-! ## GET -/

/-- The walk of `tpcmaster_get_primary` from a position on: past the slaves
whose id is not above the hash, and back to the head from the last. -/
def primaryFrom (hash : Int) : List TpcSlave → ℕ → ℕ
  | [], i => i
  | [last], i => if last.id ≤ hash then 0 else i
  | current :: next :: rest, i =>
    if current.id ≤ hash then primaryFrom hash (next :: rest) (i + 1) else i

/-- `tpcmaster_get_primary`, as a position in the list of slaves. It
dereferences the head, so the process dies where there is none. -/
def tpcmasterGetPrimary (master : TpcMaster) (key : CString) : Option ℕ :=
  match master.slaves with
  | [] => none
  | head :: rest => some (primaryFrom (hash64Bit key.bytes) (head :: rest) 0)

/-- `tpcmaster_get_successor`, on positions. -/
def tpcmasterGetSuccessor (master : TpcMaster) (predecessor : ℕ) : ℕ :=
  if predecessor + 1 < master.slaves.length then predecessor + 1 else 0

/-- `tpcmaster_send_get`: the value, where a slave answers with one. -/
def tpcmasterSendGet (slave : TpcSlave) (key : CString) (env : E) :
    Option (Ptr CString) × E :=
  match net.connect slave env with
  | (connected, env) =>
    match net.send connected slave
        { type := .getReq, key := .ref key, value := .uninit, message := .uninit } env with
    | (some response, env) =>
      if response.type ≠ .getResp then (none, env) else (some response.value, env)
    | (none, env) => (none, env)

/-- `tpcmaster_send_get` to the slave at a position. -/
def sendGetAt (master : TpcMaster) (node : ℕ) (key : CString) (env : E) :
    Option (Ptr CString) × E :=
  match master.slaves[node]? with
  | some slave => tpcmasterSendGet net slave key env
  | none => (none, env)

/-- The loop of `tpcmaster_handle_get` over the successors, for the rounds
that are left. -/
def getFromSuccessors (master : TpcMaster) (key : CString) :
    ℕ → ℕ → E → Option (Ptr CString) × E
  | 0, _, env => (none, env)
  | rounds + 1, node, env =>
    let node := tpcmasterGetSuccessor master node
    match sendGetAt net master node key env with
    | (some value, env) => (some value, env)
    | (none, env) => getFromSuccessors master key rounds node env

/-- The slaves `tpcmaster_handle_get` asks in turn: the primary, then its
successors. -/
def askSlaves (master : TpcMaster) (key : CString) (env : E) :
    Option (Option (Ptr CString) × E) :=
  match tpcmasterGetPrimary master key with
  | none => none
  | some node =>
    match sendGetAt net master node key env with
    | (some value, env) => some (some value, env)
    | (none, env) => some (getFromSuccessors net master key (master.redundancy - 1) node env)

/-- **`tpcmaster_handle_get`**, where the process survives it. -/
def tpcmasterHandleGet (master : TpcMaster) (key : CString) (respmsg : KvMessage)
    (env : E) : Option (TpcMaster × KvMessage × E) :=
  let found := { respmsg with type := .getResp, key := .ref key }
  match kvcacheGet master.cache key with
  | (.ok value, cache) =>
    some ({ master with cache }, { found with value := .ref value }, env)
  | (.error _, cache) =>
    match askSlaves net { master with cache } key env with
    | none => none
    | some (some value, env) => some ({ master with cache }, { found with value }, env)
    | some (none, env) =>
      some ({ master with cache },
        { type := .resp, key := .null, value := .null, message := .ref errMsgNoKey }, env)

end Kv
