import Cs162.KvServerCrash

/-!
# The bounds of a replay

Every log that a server leaves, by messages, restarts and rebuilds in any order, holds records,
whether or not a handler kills its process. Over these logs only the entry of a PUT of a value
shorter than `MAX_VALLEN` is replayed within bounds (`replay_inBounds_iff`).
-/

namespace Kv

open Transition (Run)

/-! ## The logs of a server -/

section Logs

variable {s t : KvServer} {records : List LogRecord}

@[simp] theorem log_kvserverGet (s : KvServer) (key : CString) :
    (kvserverGet s key).2.log = s.log := by
  unfold kvserverGet
  split
  · rfl
  · dsimp only
    split
    · rfl
    · split <;> rfl

@[simp] theorem log_kvserverPut (s : KvServer) (key value : CString) :
    (kvserverPut s key value).2.log = s.log := by
  unfold kvserverPut
  dsimp only
  split
  · rfl
  · split <;> rfl

@[simp] theorem log_kvserverDel (s : KvServer) (key : CString) :
    (kvserverDel s key).1.log = s.log := by
  unfold kvserverDel
  split
  · rfl
  · dsimp only
    split <;> rfl

@[simp] theorem log_executeEntry (s : KvServer) (respmsg : KvMessage) (entry : LogEntry)
    (val : CString) : (executeEntry s respmsg entry val).1.log = s.log := by
  unfold executeEntry
  split
  · exact log_kvserverPut s entry.key val
  · split
    · have hlog := log_kvserverDel s entry.key
      split <;> rename_i heq <;> rw [heq] at hlog <;> exact hlog
    · rfl

/-- A COMMIT is logged, whatever comes of it. -/
theorem log_handleCommit (h : LogHolds s.log records) (respmsg : KvMessage) :
    LogHolds (handleCommit s respmsg).1.log (records ++ [.commit]) := by
  unfold handleCommit
  dsimp only
  split
  · rename_i entry _
    show LogHolds (executeEntry (commitLogged s) respmsg entry entry.val).1.log _
    rw [log_executeEntry]
    exact commitLogged_log h
  · exact commitLogged_log h

/-- **The log holds records whatever is handled**, also where the process dies of it. -/
theorem log_kvserverHandle (h : LogHolds s.log records) {m : KvMessage} {msg : SlaveMsg}
    (hm : m.decode = some msg) :
    ∃ records', LogHolds (kvserverHandle s (some m)).1.log records' := by
  have hfields := KvMessage.fields_of_decode hm
  unfold kvserverHandle
  dsimp only
  match msg, hm, hfields with
  | .get key, _, ⟨htype, hkey⟩ =>
    have hlog := log_kvserverGet s key
    unfold kvserverHandleTpc
    rw [htype]
    dsimp only
    rw [hkey]
    dsimp only
    split <;> rename_i heq <;> rw [heq] at hlog <;> exact ⟨records, hlog ▸ h⟩
  | .tpc (.request r), hm, _ =>
    by_cases hw : s.state = .wait
    · obtain ⟨reply, hreply, -⟩ := handle_request_of_wait .zero hm hw
      rw [hreply]
      exact ⟨records, h⟩
    · obtain ⟨log, reply, hreply, hlog, -⟩ := handle_request_of_not_wait .zero h hm hw
      rw [hreply]
      exact ⟨_, hlog⟩
  | .tpc .abort, hm, _ =>
    obtain ⟨log, reply, hreply, hlog, -⟩ := handle_abort .zero h hm
    rw [hreply]
    exact ⟨_, hlog⟩
  | .tpc .commit, _, htype =>
    unfold kvserverHandleTpc
    rw [show m.type = .commit from htype]
    exact ⟨_, log_handleCommit h _⟩

theorem log_kvserverRebuildState (h : LogHolds s.log records) :
    LogHolds (kvserverRebuildState s).1.log records := by
  have hwalked := logWalked_log h
  rw [kvserverRebuildState_eq h.holds]
  split
  · exact hwalked
  · split
    · exact hwalked
    · rw [log_kvserverPut]
      exact hwalked
    · rename_i key _
      have hlog := log_kvserverDel (logWalked s) key
      split <;> rename_i heq <;> rw [heq] at hlog <;> exact hlog ▸ hwalked
  · exact hwalked
  · split <;> exact hwalked
  · split <;> exact hwalked

/-- **What a log goes through**: messages, restarts on the same directory, and rebuilds. -/
inductive ServerEvent where
  | message (m : KvMessage)
  | restart (numSets elemPerSet : ℕ)
  | rebuild

/-- A step of a server. A handler may kill its process; what it logged is there nevertheless. -/
def ServerStep (s : KvServer) (event : ServerEvent) (t : KvServer) : Prop :=
  match event with
  | .message m => m.decode.isSome = true ∧ (kvserverHandle s (some m)).1 = t
  | .restart numSets elemPerSet => kvserverInit s.store s.log numSets elemPerSet true = .ok t
  | .rebuild => (kvserverRebuildState s).1 = t

theorem holds_of_kvserverInit {store : KvStore} {log : TpcLog} {numSets elemPerSet : ℕ}
    (h : Numbered.Holds log.slot (records.map LogRecord.file))
    (hinit : kvserverInit store log numSets elemPerSet true = .ok s) : LogHolds s.log records := by
  unfold kvserverInit at hinit
  split at hinit
  · cases hinit
  · cases hinit
    exact .init h

/-- Every log that a server leaves holds records. -/
theorem ServerStep.log (h : LogHolds s.log records) {event : ServerEvent}
    (hstep : ServerStep s event t) : ∃ records', LogHolds t.log records' := by
  cases event with
  | message m =>
    obtain ⟨hsome, rfl⟩ := hstep
    obtain ⟨msg, hm⟩ := Option.isSome_iff_exists.mp hsome
    exact log_kvserverHandle h hm
  | restart numSets elemPerSet => exact ⟨records, holds_of_kvserverInit h.holds hstep⟩
  | rebuild =>
    cases hstep
    exact ⟨records, log_kvserverRebuildState h⟩

/-- **Which replays stay in bounds.** Over every log that a server leaves, a COMMIT is handled
within bounds exactly if the last entry is a PUT of a value shorter than `MAX_VALLEN`; and the
state is rebuilt within bounds exactly if the last entry is such a PUT, a DEL or an ABORT, or a
COMMIT for such a PUT. Within bounds both do what `KvServer` says. -/
theorem replay_inBounds_iff {store : KvStore} {log : TpcLog} {numSets elemPerSet : ℕ}
    {s₀ : KvServer} {events : List ServerEvent} (hempty : log.files = ∅)
    (hinit : kvserverInit store log numSets elemPerSet true = .ok s₀)
    (hrun : Run ServerStep s₀ events s) (respmsg : KvMessage) :
    ((∃ result, handleCommitChecked s respmsg = .ok result) ↔ CommitInBounds s.log.entries)
    ∧ ((∃ result, kvserverRebuildStateChecked s = .ok result) ↔ RebuildInBounds s.log.entries)
    ∧ (∀ result, handleCommitChecked s respmsg = .ok result → result = handleCommit s respmsg)
    ∧ ∀ result, kvserverRebuildStateChecked s = .ok result → result = kvserverRebuildState s := by
  obtain ⟨records, h⟩ : ∃ records, LogHolds s.log records := by
    refine hrun.invariant (I := fun _ s => ∃ records, LogHolds s.log records)
      ⟨[], holds_of_kvserverInit (LogHolds.holds_of_files_empty hempty) hinit⟩ ?_
    rintro _ s event t ⟨records, h⟩ hstep
    exact hstep.log h
  rw [entries_of_holds h.holds]
  obtain ⟨hcommit, hcommitEq⟩ := ok_iff_of_cases (handleCommitChecked_cases h.holds respmsg)
  obtain ⟨hrebuild, hrebuildEq⟩ := ok_iff_of_cases (kvserverRebuildStateChecked_cases h.holds)
  exact ⟨hcommit, hrebuild, hcommitEq, hrebuildEq⟩

end Logs

/-- A PUT is logged and voted for: its COMMIT and its rebuild stay in bounds. -/
theorem replay_inBounds_iff_put :
    (∃ result, handleCommitChecked (kvserverHandle newServer (some putA)).1 .zero = .ok result)
    ∧ ∃ result, kvserverRebuildStateChecked (kvserverHandle newServer (some putA)).1
        = .ok result := by
  have hstep : ServerStep newServer (.message putA) (kvserverHandle newServer (some putA)).1 :=
    ⟨rfl, rfl⟩
  obtain ⟨hcommit, hrebuild, -⟩ := replay_inBounds_iff rfl newServer_init (.snoc .nil hstep) .zero
  have hentries : (kvserverHandle newServer (some putA)).1.log.entries
      = [.put letterA letterA] := by
    decide +kernel
  rw [hentries] at hcommit hrebuild
  have hshort : letterA.strlen < maxValLen := by decide
  exact ⟨hcommit.mpr ⟨_, rfl, hshort⟩, hrebuild.mpr hshort⟩

/-- A value as long as a value may be. -/
def longestValue : CString :=
  ⟨List.replicate maxValLen 97, fun h => absurd (List.eq_of_mem_replicate h) (by decide)⟩

/-- The PUT of the longest value. -/
def putLongest : KvMessage := (Request.put letterA longestValue).message

/-- The DEL of a key that is not there. -/
def delA : KvMessage := (Request.del letterA).message

/-- **Out of bounds.** A server votes for the PUT of a value of `MAX_VALLEN` bytes, and its COMMIT
writes past the buffer; a COMMIT that follows a DEL or an ABORT reads past the entry's data. -/
theorem replay_outOfBounds :
    (kvserverHandle newServer (some putLongest)).1.state = .wait
    ∧ handleCommitChecked (kvserverHandle newServer (some putLongest)).1 .zero
        = .error .writesPastBuffer
    ∧ handleCommitChecked (kvserverHandle newServer (some delA)).1 .zero = .error .readsPastData
    ∧ handleCommitChecked (kvserverHandle newServer (some abortMsg)).1 .zero
        = .error .readsPastData := by
  have hempty : LogHolds newServer.log [] := ⟨LogHolds.holds_of_files_empty rfl, rfl⟩
  have hlength : longestValue.strlen = maxValLen := List.length_replicate
  have hready : newServer.state ≠ .wait := nofun
  have hlast : ∀ record : LogRecord, ([] ++ [record]).getLast? = some record := fun _ => rfl
  obtain ⟨log, reply, hput, hlog, -⟩ := handle_request_of_not_wait .zero hempty
    (Request.decode_message (.put letterA longestValue)) hready
  obtain ⟨log', reply', hdel, hlog', -⟩ := handle_request_of_not_wait .zero hempty
    (Request.decode_message (.del letterA)) hready
  obtain ⟨log'', reply'', habort, hlog'', -⟩ := handle_abort (m := abortMsg) .zero hempty rfl
  have hcheck : (Request.put letterA longestValue).check newServer.store = 0 := by
    show kvstorePutCheck _ _ _ = 0
    unfold kvstorePutCheck
    rw [hlength]
    decide
  refine ⟨?_, ?_, ?_, ?_⟩
  · show (kvserverHandleTpc newServer putLongest .zero).1.state = .wait
    rw [putLongest, hput]
    dsimp only
    rw [if_pos hcheck]
  · show handleCommitChecked (kvserverHandleTpc newServer putLongest .zero).1 .zero = _
    rw [putLongest, hput, handleCommitChecked_eq hlog.holds (hlast _), Request.record,
      copyVal_entry_put, hlength]
    rfl
  · show handleCommitChecked (kvserverHandleTpc newServer delA .zero).1 .zero = _
    rw [delA, hdel, handleCommitChecked_eq hlog'.holds (hlast _), Request.record, copyVal_entry_del]
    rfl
  · show handleCommitChecked (kvserverHandleTpc newServer abortMsg .zero).1 .zero = _
    rw [habort, handleCommitChecked_eq hlog''.holds (hlast _)]
    rfl

end Kv
