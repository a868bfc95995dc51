import Cs162.KvServerRuns

/-!
# The replay of a log

A COMMIT and a rebuild decode an entry of the log in one way, whatever its type: the value is
copied from behind the terminator of the key, into a buffer of `MAX_VALLEN` bytes. `KvServer`
stops such a read at the end of the entry's data; here it is a fault to go on, and so is a write
past the end of the buffer.

A DEL has no value behind its key and a decision has no key, so their replay reads past the data.
A value of `MAX_VALLEN` bytes passes the check of the vote and leaves no room for its terminator,
and a PUT that is voted down is logged with a value of any length. Within bounds a replay is the
one of `KvServer` (`kvserverRebuildStateChecked_cases`), and recovery is about replays with their
accesses checked.
-/

namespace Kv

/-- The last request of a log, decided or not. -/
def prevRequest (records : List LogRecord) : Option Request :=
  (records.filterMap LogRecord.request?).getLast?

variable {s : KvServer} {records : List LogRecord} {r : Request}

theorem prevRequest_append (records : List LogRecord) (record : LogRecord) :
    prevRequest (records ++ [record]) = record.request?.or (prevRequest records) := by
  unfold prevRequest
  rw [List.filterMap_append]
  cases hr : record.request? with
  | none => simp [List.filterMap, hr]
  | some r => simp [List.filterMap, hr]

/-- An undecided request is the last one. -/
theorem prevRequest_of_lastRequest (h : lastRequest records = some r) :
    prevRequest records = some r := by
  unfold lastRequest at h
  obtain ⟨record, hlast, hr⟩ := Option.bind_eq_some_iff.mp h
  obtain ⟨init, rfl⟩ := List.getLast?_eq_some_iff.mp hlast
  rw [prevRequest_append, hr]
  rfl

/-- The records of a log, as an iteration finds them. -/
def TpcLog.entries (log : TpcLog) : List LogRecord :=
  (tpclogIterate log.fuel (tpclogIterateBegin log)).1.filterMap
    (fun e => e.bind LogEntry.record?)

theorem entries_of_holds {log : TpcLog}
    (h : Numbered.Holds log.slot (records.map LogRecord.file)) : log.entries = records := by
  unfold TpcLog.entries
  rw [LogHolds.iterate h, List.filterMap_map]
  calc records.filterMap _ = records.filterMap some :=
        List.filterMap_congr (fun record _ => record.record?_entry)
    _ = records := List.filterMap_some

/-- The last request the walk remembers. -/
theorem getLast?_filter_entries (records : List LogRecord) : (((records.map LogRecord.entry).filter
        (fun e => e.type ≠ .commit ∧ e.type ≠ .abort)).getLast?)
      = (prevRequest records).map (fun r => r.record.entry) := by
  have hfilter : (records.map LogRecord.entry).filter
        (fun e => e.type ≠ .commit ∧ e.type ≠ .abort)
      = (records.filterMap LogRecord.request?).map (fun r => r.record.entry) := by
    induction records with
    | nil => rfl
    | cons record records ih =>
      cases record <;>
        simp [LogRecord.request?, LogRecord.entry, LogRecord.type, Request.record] at ih ⊢ <;>
        exact ih
  rw [hfilter, List.getLast?_map]
  rfl

theorem mapM_id_map_some {α β : Type} (f : α → β) (l : List α) :
    (l.map (fun a => some (f a))).mapM id = some (l.map f) := by
  induction l with
  | nil => rfl
  | cons a l ih =>
    rw [List.map_cons, List.mapM_cons, ih]
    rfl

/-- The entries that the walk of a rebuild reads. -/
theorem rebuild_entries (h : Numbered.Holds s.log.slot (records.map LogRecord.file)) :
    (tpclogIterate s.log.fuel (tpclogIterateBegin s.log)).1.mapM id
      = some (records.map LogRecord.entry) := by
  rw [LogHolds.iterate h]
  exact mapM_id_map_some LogRecord.entry records

/-- The server once the rebuild has walked the log. -/
def logWalked (s : KvServer) : KvServer :=
  { s with log := (tpclogIterate s.log.fuel (tpclogIterateBegin s.log)).2 }

/-! ## Accesses -/

/-- An access that is out of bounds. -/
inductive ReplayFault where
  /-- A read past the data of an entry. -/
  | readsPastData
  /-- A write past the buffer of a value. -/
  | writesPastBuffer
  /-- A read of an entry that is not there. -/
  | noEntry
  deriving DecidableEq

namespace LogEntry

/-- `strlen(entry->data + ofs)`: the bytes up to the first zero are read. -/
def strlenAt (e : LogEntry) (ofs : ℕ) : Except ReplayFault ℕ :=
  if (0 : UInt8) ∈ e.data.drop ofs then .ok (CString.ofData e.data ofs).strlen
  else .error .readsPastData

/-- `strcpy(buffer, entry->data + ofs)`, for a buffer of a given size. -/
def strcpyAt (e : LogEntry) (ofs size : ℕ) : Except ReplayFault CString := do
  let length ← e.strlenAt ofs
  if length + 1 ≤ size then .ok (CString.ofData e.data ofs) else .error .writesPastBuffer

/-- The value of an entry, copied to `val`. -/
def copyVal (e : LogEntry) : Except ReplayFault CString := do
  let keylen ← e.strlenAt 0
  e.strcpyAt (keylen + 1) maxValLen

end LogEntry

/-- The entry found by a COMMIT, executed with the value that was copied. -/
def executeEntry (server : KvServer) (respmsg : KvMessage) (entry : LogEntry) (val : CString) :
    KvServer × Option KvMessage :=
  if entry.type = .putReq then
    let put := kvserverPut server entry.key val
    ({ put.2 with state := .ready }, some (report (some put.1) { respmsg with type := .ack }))
  else if entry.type = .delReq then
    match kvserverDel server entry.key with
    | (server, none) => (server, none)
    | (server, some err) =>
      ({ server with state := .ready }, some (report (some err) { respmsg with type := .ack }))
  else
    ({ server with state := .ready }, some (report none { respmsg with type := .ack }))

/-- **`case COMMIT`, with its accesses checked.** -/
def handleCommitChecked (server : KvServer) (respmsg : KvMessage) :
    Except ReplayFault (KvServer × Option KvMessage) :=
  let iterated := tpclogIterate server.log.fuel (tpclogIterateBegin server.log)
  let server := { server with log := (tpclogLog iterated.2 .commit .null .null).1 }
  match iterated.1.getLast? with
  | some (some entry) => do
    let val ← entry.copyVal
    pure (executeEntry server respmsg entry val)
  | _ => .error .noEntry

/-- The vote on a pending request, by the code of its check. -/
def voteAgain (server : KvServer) (err : Int) : KvServer × Option (List MsgType) :=
  if err = 0 then ({ server with state := .wait }, some [.voteCommit])
  else ({ server with state := .ready }, some [.voteAbort])

/-- A committed request executed again, with the value that was copied. -/
def executeAgain (server : KvServer) (prev : LogEntry) (val : CString) :
    KvServer × Option (List MsgType) :=
  if prev.type = .putReq then ((kvserverPut server prev.key val).2, some [.ack])
  else if prev.type = .delReq then
    match kvserverDel server prev.key with
    | (server, none) => (server, none)
    | (server, some _) => (server, some [.ack])
  else (server, some [.ack])

/-- **`kvserver_rebuild_state`, with its accesses checked.** -/
def kvserverRebuildStateChecked (server : KvServer) :
    Except ReplayFault (KvServer × Option (List MsgType)) :=
  let iterated := tpclogIterate server.log.fuel (tpclogIterateBegin server.log)
  let server := { server with log := iterated.2 }
  match iterated.1.mapM id with
  | none => .error .noEntry
  | some entries =>
    let prev := (entries.filter
      (fun e => e.type ≠ .commit ∧ e.type ≠ .abort)).getLast?
    match entries.getLast? with
    | none => .error .noEntry
    | some entry =>
      if entry.type = .delReq then do
        let _ ← entry.strlenAt 0
        pure (voteAgain server (kvserverDelCheck server entry.key))
      else if entry.type = .putReq then do
        let val ← entry.copyVal
        pure (voteAgain server (kvserverPutCheck server entry.key val))
      else if entry.type = .commit then
        match prev with
        | none => .error .noEntry
        | some prev => do
          let val ← prev.copyVal
          pure (executeAgain server prev val)
      else pure (server, some [])

theorem ok_iff_of_cases {ε α : Type*} {result : Except ε α} {a : α} {p : Prop}
    (h : p ∧ result = .ok a ∨ ¬ p ∧ ∃ e, result = .error e) :
    ((∃ b, result = .ok b) ↔ p) ∧ ∀ b, result = .ok b → b = a := by
  obtain ⟨hp, rfl⟩ | ⟨hp, e, rfl⟩ := h
  · exact ⟨iff_of_true ⟨a, rfl⟩ hp, fun b hb => (Except.ok.inj hb).symm⟩
  · exact ⟨iff_of_false nofun hp, nofun⟩

/-! ## The entries of records -/

theorem zero_mem_stored (s : CString) : (0 : UInt8) ∈ s.stored :=
  List.mem_append_right _ (List.mem_singleton_self 0)

theorem strlenAt_of_mem {e : LogEntry} {ofs : ℕ} {s : CString}
    (hend : (0 : UInt8) ∈ e.data.drop ofs) (hs : CString.ofData e.data ofs = s) :
    e.strlenAt ofs = .ok s.strlen := by
  unfold LogEntry.strlenAt
  rw [if_pos hend, hs]

theorem strcpyAt_of_mem {e : LogEntry} {ofs : ℕ} {s : CString}
    (hend : (0 : UInt8) ∈ e.data.drop ofs) (hs : CString.ofData e.data ofs = s) (size : ℕ) :
    e.strcpyAt ofs size = if s.strlen + 1 ≤ size then .ok s else .error .writesPastBuffer := by
  unfold LogEntry.strcpyAt
  rw [strlenAt_of_mem hend hs, hs]
  rfl

/-- **The value of a PUT** is copied within bounds if there is room for its terminator. -/
theorem copyVal_entry_put (key value : CString) : (LogRecord.put key value).entry.copyVal
      = if value.strlen + 1 ≤ maxValLen then .ok value else .error .writesPastBuffer := by
  have hkey : (0 : UInt8) ∈ (LogRecord.put key value).entry.data.drop 0 :=
    List.mem_append_left _ (zero_mem_stored key)
  have hval : (0 : UInt8) ∈ (key.stored ++ value.stored).drop (key.strlen + 1) := by
    rw [← key.length_stored, List.drop_left]
    exact zero_mem_stored value
  unfold LogEntry.copyVal
  rw [strlenAt_of_mem hkey (LogRecord.key_entry_put key value)]
  exact strcpyAt_of_mem hval (CString.ofData_stored_append key value) maxValLen

theorem strlenAt_entry_del (key : CString) :
    (LogRecord.del key).entry.strlenAt 0 = .ok key.strlen :=
  strlenAt_of_mem (zero_mem_stored key) (LogRecord.key_entry_del key)

theorem copyVal_entry_del (key : CString) :
    (LogRecord.del key).entry.copyVal = .error .readsPastData := by
  have hend : (LogRecord.del key).entry.data.drop (key.strlen + 1) = [] := by
    rw [← key.length_stored]
    exact List.drop_length
  unfold LogEntry.copyVal
  rw [strlenAt_entry_del]
  show LogEntry.strcpyAt _ (key.strlen + 1) maxValLen = _
  unfold LogEntry.strcpyAt LogEntry.strlenAt
  rw [hend]
  rfl

/-- The value of the record's entry is copied within bounds. -/
def LogRecord.CopiesInBounds : LogRecord → Prop
  | put _ value => value.strlen < maxValLen
  | _ => False

/-- **Which entries are replayed within bounds**, and with which value. -/
theorem copyVal_entry (record : LogRecord) :
    (record.CopiesInBounds ∧ record.entry.copyVal = .ok record.entry.val)
      ∨ ¬ record.CopiesInBounds ∧ ∃ fault, record.entry.copyVal = .error fault := by
  cases record with
  | put key value =>
    rw [copyVal_entry_put, LogRecord.val_entry_put]
    by_cases hroom : value.strlen < maxValLen
    · exact .inl ⟨hroom, if_pos hroom⟩
    · exact .inr ⟨hroom, _, if_neg hroom⟩
  | del key => exact .inr ⟨id, _, copyVal_entry_del key⟩
  | commit => exact .inr ⟨id, _, rfl⟩
  | abort => exact .inr ⟨id, _, rfl⟩

/-- A COMMIT over a log of records is handled within bounds. -/
def CommitInBounds (records : List LogRecord) : Prop :=
  ∃ record ∈ records.getLast?, record.CopiesInBounds

/-- A log of records is rebuilt from within bounds. -/
def RebuildInBounds (records : List LogRecord) : Prop :=
  match records.getLast? with
  | none => False
  | some (.put _ value) => value.strlen < maxValLen
  | some (.del _) => True
  | some .abort => True
  | some .commit => ∃ r ∈ prevRequest records, r.record.CopiesInBounds

theorem RebuildInBounds.exists_last (h : RebuildInBounds records) :
    ∃ record, records.getLast? = some record := by
  unfold RebuildInBounds at h
  cases hlast : records.getLast? with
  | none => rw [hlast] at h; exact h.elim
  | some record => exact ⟨record, rfl⟩

/-- A rebuild within bounds executes a PUT again, if anything. -/
theorem RebuildInBounds.exists_put (h : RebuildInBounds records)
    (hlast : records.getLast? = some .commit) :
    ∃ key value, prevRequest records = some (.put key value) := by
  unfold RebuildInBounds at h
  rw [hlast] at h
  obtain ⟨r, hr, hcopies⟩ := h
  cases r with
  | put key value => exact ⟨key, value, hr⟩
  | del key => exact hcopies.elim

/-- A COMMIT replays the last entry. -/
theorem handleCommitChecked_eq (h : Numbered.Holds s.log.slot (records.map LogRecord.file))
    {record : LogRecord} (hlast : records.getLast? = some record) (respmsg : KvMessage) :
    handleCommitChecked s respmsg
      = record.entry.copyVal.map (executeEntry (commitLogged s) respmsg record.entry) := by
  unfold handleCommitChecked
  rw [LogHolds.iterate h]
  dsimp only
  rw [List.getLast?_map, hlast]
  show (record.entry.copyVal >>= _) = _
  unfold commitLogged
  rw [LogHolds.iterate h]
  cases record.entry.copyVal <;> rfl

/-- **A COMMIT within bounds** is the one of `KvServer`; any other is a fault. -/
theorem handleCommitChecked_cases (h : Numbered.Holds s.log.slot (records.map LogRecord.file))
    (respmsg : KvMessage) :
    CommitInBounds records ∧ handleCommitChecked s respmsg = .ok (handleCommit s respmsg)
      ∨ ¬ CommitInBounds records ∧ ∃ fault, handleCommitChecked s respmsg = .error fault := by
  have hiterate : (tpclogIterate s.log.fuel (tpclogIterateBegin s.log)).1.getLast?
      = records.getLast?.map fun record => some record.entry := by
    rw [LogHolds.iterate h, List.getLast?_map]
  unfold CommitInBounds
  cases hlast : records.getLast? with
  | none =>
    refine .inr ⟨nofun, .noEntry, ?_⟩
    unfold handleCommitChecked
    dsimp only
    rw [hiterate, hlast]
    rfl
  | some record =>
    rw [handleCommitChecked_eq h hlast]
    obtain ⟨hbounds, hval⟩ | ⟨hbounds, fault, hfault⟩ := copyVal_entry record
    · refine .inl ⟨⟨record, rfl, hbounds⟩, ?_⟩
      unfold handleCommit
      dsimp only
      rw [hval, hiterate, hlast]
      rfl
    · refine .inr ⟨?_, fault, by rw [hfault]; rfl⟩
      rintro ⟨_, ⟨⟩, hcopies⟩
      exact hbounds hcopies

/-- A rebuild copies the value of a pending PUT. -/
theorem kvserverRebuildStateChecked_put
    (h : Numbered.Holds s.log.slot (records.map LogRecord.file)) {key value : CString}
    (hlast : records.getLast? = some (.put key value)) : kvserverRebuildStateChecked s
      = (LogRecord.put key value).entry.copyVal.map fun val =>
          voteAgain (logWalked s) (kvserverPutCheck s key val) := by
  unfold kvserverRebuildStateChecked
  dsimp only
  rw [rebuild_entries h]
  dsimp only
  rw [List.getLast?_map, hlast]
  dsimp only [Option.map_some]
  rw [show (LogRecord.put key value).entry.type = .putReq from rfl, if_neg nofun, if_pos rfl,
    LogRecord.key_entry_put]
  cases (LogRecord.put key value).entry.copyVal <;> rfl

/-- **A rebuild within bounds** is the one of `KvServer`; any other is a fault. -/
theorem kvserverRebuildStateChecked_cases
    (h : Numbered.Holds s.log.slot (records.map LogRecord.file)) :
    RebuildInBounds records ∧ kvserverRebuildStateChecked s = .ok (kvserverRebuildState s)
      ∨ ¬ RebuildInBounds records ∧ ∃ fault, kvserverRebuildStateChecked s = .error fault := by
  unfold kvserverRebuildStateChecked kvserverRebuildState RebuildInBounds
  dsimp only
  rw [rebuild_entries h]
  dsimp only
  rw [getLast?_filter_entries, List.getLast?_map]
  cases records.getLast? with
  | none => exact .inr ⟨id, _, rfl⟩
  | some record =>
    cases record with
    | put key value =>
      dsimp only [Option.map_some]
      obtain ⟨hbounds, hval⟩ | ⟨hbounds, fault, hfault⟩ := copyVal_entry (.put key value)
      · rw [hval]
        exact .inl ⟨hbounds, rfl⟩
      · rw [hfault]
        exact .inr ⟨hbounds, fault, rfl⟩
    | del key =>
      dsimp only [Option.map_some]
      rw [strlenAt_entry_del]
      exact .inl ⟨trivial, rfl⟩
    | abort => exact .inl ⟨trivial, rfl⟩
    | commit =>
      cases prevRequest records with
      | none => exact .inr ⟨nofun, _, rfl⟩
      | some r =>
        dsimp only [Option.map_some]
        obtain ⟨hbounds, hval⟩ | ⟨hbounds, fault, hfault⟩ := copyVal_entry r.record
        · rw [hval]
          exact .inl ⟨⟨r, rfl, hbounds⟩, rfl⟩
        · rw [hfault]
          refine .inr ⟨?_, fault, rfl⟩
          rintro ⟨_, ⟨⟩, hcopies⟩
          exact hbounds hcopies

end Kv
