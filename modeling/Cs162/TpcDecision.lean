import Cs162.TpcMaster

/-!
# What the master decides, and what it tells

A coordinator may commit only when every participant it asked has voted to.
The master records just one kind of outcome of its first phase: a reply of
type `VOTE_ABORT`. A slave that cannot be reached, a reply that cannot be
parsed and any other reply count as consent, and the client is told the same
in either case.

The outcomes are those the network gives (`outcomes`), one per slave
contacted and in order, whatever the network is.
-/

namespace Kv

variable {E : Type*} (net : Net E) (callback : Option (Option TpcSlave → E → E))

/-- **The outcomes of the first phase**: the reply of each slave contacted,
where there is one. -/
def outcomes (reqmsg : KvMessage) : List TpcSlave → E → List (Option KvMessage)
  | [], _ => []
  | slave :: rest, env =>
    (pollSlave net callback reqmsg slave env).1
      :: outcomes reqmsg rest (pollSlave net callback reqmsg slave env).2

/-- Whether an outcome is a reply of the given type. -/
def isReply (type : MsgType) (outcome : Option KvMessage) : Bool :=
  outcome.any (fun response => decide (response.type = type))

theorem length_outcomes (reqmsg : KvMessage) (slaves : List TpcSlave) (env : E) :
    (outcomes net callback reqmsg slaves env).length = slaves.length := by
  induction slaves generalizing env with
  | nil => rfl
  | cons slave rest ih => simp [outcomes, ih]

theorem pollSlaves_cons (reqmsg : KvMessage) (slave : TpcSlave) (rest : List TpcSlave)
    (abortTpc : Bool) (env : E) : pollSlaves net callback reqmsg (slave :: rest) abortTpc env
      = pollSlaves net callback reqmsg rest
          (if isReply .voteAbort (pollSlave net callback reqmsg slave env).1 then true
            else abortTpc)
          (pollSlave net callback reqmsg slave env).2 := by
  rw [pollSlaves]
  rcases pollSlave net callback reqmsg slave env with ⟨response, env'⟩
  cases response with
  | none => rfl
  | some response => simp [isReply]

/-- **The first phase remembers whether there was a `VOTE_ABORT`.** -/
theorem pollSlaves_fst (reqmsg : KvMessage) (slaves : List TpcSlave) (abortTpc : Bool) (env : E) :
    (pollSlaves net callback reqmsg slaves abortTpc env).1
      = (abortTpc || (outcomes net callback reqmsg slaves env).any (isReply .voteAbort)) := by
  induction slaves generalizing abortTpc env with
  | nil => simp [pollSlaves, outcomes]
  | cons slave rest ih =>
    rw [pollSlaves_cons, ih, outcomes, List.any_cons]
    cases isReply .voteAbort (pollSlave net callback reqmsg slave env).1 <;> simp

variable {net callback}

/-- Every message that is resent is of the type of the decision. -/
theorem type_of_mem_awaitAck {type : MsgType} {connected : Bool} {slave : TpcSlave}
    {fuel : ℕ} {response : Option KvMessage} {env : E} {message : KvMessage}
    (h : message ∈ (awaitAck net type connected slave fuel response env).1) :
    message.type = type := by
  induction fuel generalizing response env with
  | zero => cases h
  | succ fuel ih =>
    unfold awaitAck at h
    split at h
    · cases h
    · rcases List.mem_cons.mp h with rfl | h
      · rfl
      · exact ih h

/-- **Every message of the second phase is of the type of the decision.** -/
theorem type_of_mem_tellSlaves {type : MsgType} {fuel : ℕ} {slaves : List TpcSlave} {env : E}
    {p : TpcSlave × KvMessage}
    (h : p ∈ (tellSlaves net callback type fuel slaves env).1) : p.2.type = type := by
  have htell : ∀ (slave : TpcSlave) (env : E) (message : KvMessage),
      message ∈ (tellSlave net callback type fuel slave env).1 → message.type = type := by
    intro slave env message hmem
    unfold tellSlave at hmem
    rcases List.mem_cons.mp hmem with rfl | hmem
    · rfl
    · exact type_of_mem_awaitAck hmem
  induction slaves generalizing env with
  | nil => cases h
  | cons slave rest ih =>
    unfold tellSlaves at h
    cases hone : tellSlave net callback type fuel slave env with
    | mk sent rest' =>
      obtain ⟨acked, env'⟩ := rest'
      have hsent : ∀ message ∈ sent, message.type = type := by
        intro message hmem
        exact htell slave env message (by rw [hone]; exact hmem)
      rw [hone] at h
      have hfirst : p ∈ sent.map (Prod.mk slave) → p.2.type = type := by
        intro hp
        obtain ⟨message, hmem, rfl⟩ := List.mem_map.mp hp
        exact hsent message hmem
      cases acked with
      | false => exact hfirst h
      | true =>
        rcases List.mem_append.mp h with hp | hp
        · exact hfirst hp
        · exact ih hp

variable (net callback) in
/-- The second phase sends something if there is a slave to tell. -/
theorem exists_mem_tellSlaves (type : MsgType) (fuel : ℕ) {slaves : List TpcSlave}
    (hne : slaves ≠ []) (env : E) : ∃ p, p ∈ (tellSlaves net callback type fuel slaves env).1 := by
  cases slaves with
  | nil => exact absurd rfl hne
  | cons slave rest =>
    have hsent : ∃ message, message ∈ (tellSlave net callback type fuel slave env).1 :=
      ⟨_, List.mem_cons_self⟩
    obtain ⟨message, hmem⟩ := hsent
    refine ⟨(slave, message), ?_⟩
    unfold tellSlaves
    rcases hone : tellSlave net callback type fuel slave env with ⟨sent, acked, env'⟩
    rw [hone] at hmem
    have hp : (slave, message) ∈ sent.map (Prod.mk slave) := List.mem_map_of_mem hmem
    cases acked with
    | false => exact hp
    | true => exact List.mem_append_left _ hp

/-! ## Safety of the decision -/

/-- **A safe second phase**: a COMMIT is sent only if every slave contacted
answered `VOTE_COMMIT`, and in every other case all that is sent is ABORT. -/
def CommitsSafely (votes : List (Option KvMessage)) (told : List (TpcSlave × KvMessage)) :
    Prop :=
  ((∃ p ∈ told, p.2.type = .commit) → votes.all (isReply .voteCommit) = true)
    ∧ (votes.all (isReply .voteCommit) = false → ∀ p ∈ told, p.2.type = .abort)

/-- The second phase of `tpcmaster_handle_tpc`. -/
theorem told_tpcmasterHandleTpc (fuel : ℕ) (master : TpcMaster) (reqmsg respmsg : KvMessage)
    (env : E) : (tpcmasterHandleTpc net callback fuel master reqmsg respmsg env).told
      = (tellSlaves net callback
          (decisionType ((outcomes net callback reqmsg master.contacted env).any
            (isReply .voteAbort))) fuel master.contacted
          (callHook callback none
            (pollSlaves net callback reqmsg master.contacted false env).2)).1 := by
  have habort := pollSlaves_fst net callback reqmsg master.contacted false env
  rw [Bool.false_or] at habort
  rw [← habort]
  unfold tpcmasterHandleTpc
  dsimp only
  split <;> rename_i heq <;> rw [heq]

/-- **When the master is safe**: if some slave answered `VOTE_ABORT`, or every
slave contacted answered `VOTE_COMMIT`. Where neither is so, it commits without
consent. -/
theorem tpcmasterHandleTpc_commitsSafely_iff (fuel : ℕ) (master : TpcMaster)
    (reqmsg respmsg : KvMessage) (env : E) :
    CommitsSafely (outcomes net callback reqmsg master.contacted env)
        (tpcmasterHandleTpc net callback fuel master reqmsg respmsg env).told
      ↔ (outcomes net callback reqmsg master.contacted env).any (isReply .voteAbort) = true
        ∨ (outcomes net callback reqmsg master.contacted env).all
            (isReply .voteCommit) = true := by
  rw [told_tpcmasterHandleTpc]
  have hlength := length_outcomes net callback reqmsg master.contacted env
  generalize outcomes net callback reqmsg master.contacted env = votes at *
  generalize callHook callback none _ = env'
  cases habort : votes.any (isReply .voteAbort) with
  | true =>
    refine iff_of_true ⟨?_, fun _ p hp => type_of_mem_tellSlaves hp⟩ (.inl rfl)
    rintro ⟨p, hp, hcommit⟩
    cases hcommit.symm.trans (type_of_mem_tellSlaves hp)
  | false =>
    cases hall : votes.all (isReply .voteCommit) with
    | true =>
      refine iff_of_true ⟨fun _ => hall, fun hne => ?_⟩ (.inr rfl)
      cases hall.symm.trans hne
    | false =>
      refine iff_of_false ?_ (by simp)
      rintro ⟨hsafe, -⟩
      -- some slave did not consent, so there is a slave to tell
      have hne : master.contacted ≠ [] := by
        intro hnil
        rw [hnil] at hlength
        rw [List.length_eq_zero_iff.mp hlength] at hall
        cases hall
      obtain ⟨p, hp⟩ := exists_mem_tellSlaves net callback (decisionType false) fuel hne env'
      cases hall.symm.trans (hsafe ⟨p, hp, type_of_mem_tellSlaves hp⟩)

/-- A slave on a local port. -/
def slaveA : TpcSlave := ⟨0, letterA, 80⟩

/-- A master with one slave. -/
def oneSlave : TpcMaster := ⟨1, 1, 1, [slaveA], ⟨1, fun _ => ⟨2, 0, [], ∅⟩⟩⟩

/-- A network whose slave loses every request and acknowledges every
decision. -/
def losesRequests : Net Unit where
  connect _ env := (true, env)
  exchange _ message env :=
    (if message.type = .putReq then none else some { KvMessage.zero with type := .ack }, env)

/-- The master sends COMMIT though its only slave never voted. -/
theorem losesRequests_commits_unsafely :
    outcomes losesRequests none putA oneSlave.contacted () = [none]
      ∧ (tpcmasterHandleTpc losesRequests none 0 oneSlave putA .zero ()).told
          = [(slaveA, { KvMessage.zero with type := .commit })]
      ∧ ¬ CommitsSafely (outcomes losesRequests none putA oneSlave.contacted ())
          (tpcmasterHandleTpc losesRequests none 0 oneSlave putA .zero ()).told := by
  refine ⟨by decide, by decide, ?_⟩
  rintro ⟨hsafe, -⟩
  exact absurd (hsafe ⟨(slaveA, { KvMessage.zero with type := .commit }), by decide, rfl⟩)
    (by decide)

/-! ## What the client is told -/

/-- Every slave acknowledges the decision after some number of resends. -/
def EventuallyAcks (net : Net E) (callback : Option (Option TpcSlave → E → E))
    (type : MsgType) : List TpcSlave → E → Prop
  | [], _ => True
  | slave :: rest, env =>
    ∃ fuel, (tellSlave net callback type fuel slave env).2.1 = true
      ∧ EventuallyAcks net callback type rest (tellSlave net callback type fuel slave env).2.2

theorem awaitAck_of_isAck {type : MsgType} {connected : Bool} {slave : TpcSlave}
    {response : Option KvMessage} (h : isAck response = true) (fuel : ℕ) (env : E) :
    awaitAck net type connected slave fuel response env = ([], true, env) := by
  cases fuel with
  | zero => rw [awaitAck, h]
  | succ fuel => rw [awaitAck, if_pos h]

/-- More rounds change nothing once a decision is acknowledged. -/
theorem awaitAck_of_le {type : MsgType} {connected : Bool} {slave : TpcSlave}
    {fuel fuel' : ℕ} {response : Option KvMessage} {env : E}
    (h : (awaitAck net type connected slave fuel response env).2.1 = true) (hle : fuel ≤ fuel') :
    awaitAck net type connected slave fuel' response env
      = awaitAck net type connected slave fuel response env := by
  induction fuel generalizing fuel' response env with
  | zero => rw [awaitAck_of_isAck h, awaitAck_of_isAck h]
  | succ fuel ih =>
    cases fuel' with
    | zero => omega
    | succ fuel' =>
      cases hack : isAck response with
      | true => rw [awaitAck_of_isAck hack, awaitAck_of_isAck hack]
      | false =>
        simp only [awaitAck, hack, Bool.false_eq_true, if_false] at h ⊢
        rw [ih h (by omega)]

theorem tellSlave_of_le {type : MsgType} {slave : TpcSlave} {fuel fuel' : ℕ} {env : E}
    (h : (tellSlave net callback type fuel slave env).2.1 = true) (hle : fuel ≤ fuel') :
    tellSlave net callback type fuel' slave env
      = tellSlave net callback type fuel slave env := by
  unfold tellSlave at h ⊢
  dsimp only at h ⊢
  rw [awaitAck_of_le h hle]

/-- **The second phase ends** if every slave acknowledges eventually. -/
theorem tellSlaves_of_eventuallyAcks {type : MsgType} {slaves : List TpcSlave} {env : E}
    (h : EventuallyAcks net callback type slaves env) : ∃ bound, ∀ fuel, bound ≤ fuel →
      (tellSlaves net callback type fuel slaves env).2.1 = true := by
  induction slaves generalizing env with
  | nil => exact ⟨0, fun _ _ => rfl⟩
  | cons slave rest ih =>
    obtain ⟨fuel₁, hack, hrest⟩ := h
    obtain ⟨fuel₂, hall⟩ := ih hrest
    refine ⟨max fuel₁ fuel₂, fun fuel hle => ?_⟩
    have hone := tellSlave_of_le hack (le_trans (le_max_left _ _) hle)
    have hmore := hall fuel (le_trans (le_max_right _ _) hle)
    unfold tellSlaves
    rw [hone]
    rcases htell : tellSlave net callback type fuel₁ slave env with ⟨sent, acked, env'⟩
    rw [htell] at hack hmore
    cases hack
    exact hmore

/-- **A truthful response**: success exactly when the decision was COMMIT, and
a generic error when it was ABORT. -/
def TellsTruth (abortTpc : Bool) (response : KvMessage) : Prop :=
  (response.message = .ref msgSuccess ↔ abortTpc = false)
    ∧ (abortTpc = true → response.message = .ref errMsgGenericError)

/-- **When the client is told the truth**: if no slave answered `VOTE_ABORT`.
The handler returns with every large enough bound on the resends, and what it
returns is the same success in either case. -/
theorem tpcmasterHandleTpc_tellsTruth_iff (master : TpcMaster) (reqmsg respmsg : KvMessage)
    (env : E)
    (hacks : EventuallyAcks net callback
      (decisionType (pollSlaves net callback reqmsg master.contacted false env).1)
      master.contacted
      (callHook callback none
        (pollSlaves net callback reqmsg master.contacted false env).2)) :
    ∃ bound, ∀ fuel, bound ≤ fuel → ∃ response,
      (tpcmasterHandleTpc net callback fuel master reqmsg respmsg env).response
          = some response
        ∧ (TellsTruth (pollSlaves net callback reqmsg master.contacted false env).1 response
            ↔ (outcomes net callback reqmsg master.contacted env).any
                (isReply .voteAbort) = false) := by
  obtain ⟨bound, hbound⟩ := tellSlaves_of_eventuallyAcks hacks
  refine ⟨bound, fun fuel hle => ⟨{ respmsg with type := .resp, message := .ref msgSuccess },
    ?_, ?_⟩⟩
  · have hdone := hbound fuel hle
    unfold tpcmasterHandleTpc
    dsimp only
    split
    · rfl
    · rename_i heq
      rw [heq] at hdone
      cases hdone
  · rw [pollSlaves_fst, Bool.false_or]
    unfold TellsTruth
    cases (outcomes net callback reqmsg master.contacted env).any (isReply .voteAbort) with
    | false => simp
    | true => simp

/-- A network whose slave votes against every request. -/
def votesAbort : Net Unit where
  connect _ env := (true, env)
  exchange _ message env :=
    (some { KvMessage.zero with
      type := if message.type = .putReq then .voteAbort else .ack }, env)

/-- The request is aborted, and the client is told that it succeeded. -/
theorem votesAbort_told_success :
    (pollSlaves votesAbort none putA oneSlave.contacted false ()).1 = true
      ∧ ∃ response,
          (tpcmasterHandleTpc votesAbort none 0 oneSlave putA .zero ()).response
              = some response
            ∧ response.message = .ref msgSuccess
            ∧ ¬ TellsTruth (pollSlaves votesAbort none putA oneSlave.contacted false ()).1
                response := by
  refine ⟨by decide, { KvMessage.zero with type := .resp, message := .ref msgSuccess },
    by decide, rfl, ?_⟩
  rintro ⟨hsuccess, -⟩
  exact absurd (hsuccess.mp rfl) (by decide)

/-- The handler returns on that network, and the slave's vote is why it does
not tell the truth. -/
theorem tpcmasterHandleTpc_tellsTruth_iff_votesAbort :
    ∃ bound, ∀ fuel, bound ≤ fuel → ∃ response,
      (tpcmasterHandleTpc votesAbort none fuel oneSlave putA .zero ()).response
          = some response
        ∧ (TellsTruth (pollSlaves votesAbort none putA oneSlave.contacted false ()).1 response
            ↔ (outcomes votesAbort none putA oneSlave.contacted ()).any
                (isReply .voteAbort) = false) :=
  tpcmasterHandleTpc_tellsTruth_iff oneSlave putA .zero () ⟨0, by decide, trivial⟩

end Kv
