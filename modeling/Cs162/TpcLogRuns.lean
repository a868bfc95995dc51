import Cs162.Run
import Cs162.TpcLog

/-!
# A log across restarts

Entries are logged, the log is cleared, and the process is started again on the same directory,
in any order. The number of the next entry is kept in memory, found again from the names of the
files and set back by a clear, and an iteration finds the entries by their names alone. All of
this agrees: the files are those of the entries logged since the last clear, and an iteration
returns these entries (`tpclog_roundTrip`).
-/

namespace Kv

open Transition (Run)

/-! ## Clearing -/

/-- The loop of `tpclog_clear_log`, from the file with a given number on. -/
def clearFiles : ℕ → ℕ → Finmap (fun _ : ℕ => LogFile) → Finmap (fun _ : ℕ => LogFile)
  | 0, _, files => files
  | fuel + 1, count, files =>
    if (files.lookup count).isSome then clearFiles fuel (count + 1) (files.erase count) else files

/-- `tpclog_clear_log`: the files are removed one after the other until one is missing. -/
def tpclogClearLog (log : TpcLog) : TpcLog :=
  { log with files := clearFiles log.fuel 0 log.files, nextid := 0 }

/-- The loop removes the files that are left. -/
theorem lookup_clearFiles {l : List LogFile} (fuel : ℕ) {i : ℕ}
    {files : Finmap (fun _ : ℕ => LogFile)}
    (hfiles : ∀ j, files.lookup j = if j < i then none else l[j]?)
    (hfuel : l.length - i < fuel) (j : ℕ) : (clearFiles fuel i files).lookup j = none := by
  induction fuel generalizing i files with
  | zero => omega
  | succ fuel ih =>
    have hi : files.lookup i = l[i]? := (hfiles i).trans (if_neg (lt_irrefl i))
    unfold clearFiles
    rw [hi]
    by_cases hlt : i < l.length
    · rw [List.getElem?_eq_getElem hlt, if_pos (Option.isSome_some)]
      refine ih (fun k => ?_) (by omega)
      by_cases hk : k = i
      · rw [hk, Finmap.lookup_erase, if_pos (Nat.lt_succ_self i)]
      · rw [Finmap.lookup_erase_ne hk, hfiles k]
        exact if_congr (by omega) rfl rfl
    · rw [List.getElem?_eq_none (not_lt.mp hlt), if_neg (by simp), hfiles j]
      split
      · rfl
      · exact List.getElem?_eq_none (by omega)

namespace LogHolds

variable {log : TpcLog} {records : List LogRecord}

/-- **A clear leaves an empty log.** -/
theorem clear (h : LogHolds log records) : LogHolds (tpclogClearLog log) [] where
  holds i := by
    refine (lookup_clearFiles (i := 0) log.fuel h.holds ?_ i).trans (List.getElem?_nil).symm
    have := length_lt_fuel h.holds
    omega
  nextid := rfl

/-- The files are numbered up to the next number. -/
theorem isSome_slot_iff (h : LogHolds log records) (i : ℕ) :
    (log.slot i).isSome ↔ i < log.nextid := by
  rw [h.holds i, h.nextid, isSome_getElem?, List.length_map]

end LogHolds

/-! ## Calls in any order -/

/-- **What is done to a log.** A process that starts again finds anything in the memory for its
log. -/
inductive LogCall where
  | log (type : MsgType) (key value : Ptr CString)
  | clear
  | init (nextid iterpos : ℕ)

/-- The record that `tpclog_log` is called for, if the type can be logged and has the strings
that it needs. -/
def loggedRecord (type : MsgType) (key value : Ptr CString) : Option LogRecord :=
  match type with
  | .putReq => do
    let key ← key.deref
    let value ← value.deref
    pure (.put key value)
  | .delReq => do
    let key ← key.deref
    pure (.del key)
  | .commit => some .commit
  | .abort => some .abort
  | _ => none

/-- A call, with its return code. -/
def LogCall.exec (log : TpcLog) : LogCall → TpcLog × Option Int
  | .log type key value => tpclogLog log type key value
  | .clear => (tpclogClearLog log, some 0)
  | .init nextid iterpos => (tpclogInit ⟨log.files, nextid, iterpos⟩, some 0)

/-- A call has what it needs. -/
def LogCall.Valid : LogCall → Prop
  | .log type key value => (loggedRecord type key value).isSome
  | .clear => True
  | .init _ _ => True

/-- A valid call that succeeds. -/
def LogStep (log : TpcLog) (call : LogCall) (log' : TpcLog) : Prop :=
  call.Valid ∧ call.exec log = (log', some 0)

/-- **The entries logged since the last clear.** -/
def loggedSince (calls : List LogCall) : List LogRecord :=
  calls.foldl (fun records call => match call with
    | .log type key value => records ++ (loggedRecord type key value).toList
    | .clear => []
    | .init _ _ => records) []

theorem logData_of_loggedRecord {type : MsgType} {key value : Ptr CString} {record : LogRecord}
    (h : loggedRecord type key value = some record) :
    type = record.type ∧ logData type key value = some record.data := by
  unfold loggedRecord at h
  split at h
  · obtain ⟨k, hk, h⟩ := Option.bind_eq_some_iff.mp h
    obtain ⟨v, hv, h⟩ := Option.bind_eq_some_iff.mp h
    cases h
    refine ⟨rfl, ?_⟩
    rw [logData, hk, hv]
    rfl
  · obtain ⟨k, hk, h⟩ := Option.bind_eq_some_iff.mp h
    cases h
    refine ⟨rfl, ?_⟩
    rw [logData, hk]
    rfl
  · cases h
    exact ⟨rfl, rfl⟩
  · cases h
    exact ⟨rfl, rfl⟩
  · cases h

/-- **One call**: it succeeds, and the log holds what was logged since the last clear. -/
theorem LogHolds.exec {log : TpcLog} {calls : List LogCall} (h : LogHolds log (loggedSince calls))
    {call : LogCall} (hvalid : call.Valid) :
    (call.exec log).2 = some 0 ∧ LogHolds (call.exec log).1 (loggedSince (calls ++ [call])) := by
  have hsince : loggedSince (calls ++ [call]) = _ := List.foldl_concat ..
  rw [hsince]
  cases call with
  | log type key value =>
    obtain ⟨record, hrecord⟩ := Option.isSome_iff_exists.mp hvalid
    obtain ⟨rfl, hdata⟩ := logData_of_loggedRecord hrecord
    obtain ⟨hcode, hholds, -⟩ := h.tpclogLog_append record key value hdata
    refine ⟨hcode, ?_⟩
    dsimp only
    rw [hrecord]
    exact hholds
  | clear => exact ⟨rfl, h.clear⟩
  | init nextid iterpos => exact ⟨rfl, .init h.holds⟩

/-- **Log round trip across restarts.** After any calls on a log that starts in an empty
directory the files are those numbered below `nextid`, and an iteration ends, with the entries
logged since the last clear, in order, each decoding to what was logged. Every further call
succeeds. -/
theorem tpclog_roundTrip {log₀ log : TpcLog} {calls : List LogCall} (hempty : log₀.files = ∅)
    (hrun : Run LogStep (tpclogInit log₀) calls log) :
    (∀ i, (log.slot i).isSome ↔ i < log.nextid)
    ∧ (∃ entries log', (∀ fuel > (loggedSince calls).length,
          tpclogIterate fuel (tpclogIterateBegin log) = (entries, log'))
        ∧ tpclogIterateHasNext log' = false
        ∧ entries.map (fun entry => entry.bind LogEntry.record?) = (loggedSince calls).map some)
    ∧ ∀ call : LogCall, call.Valid → ∃ log', LogStep log call log' := by
  have h : LogHolds log (loggedSince calls) := by
    refine hrun.invariant (I := fun calls log => LogHolds log (loggedSince calls))
      (.init (LogHolds.holds_of_files_empty hempty)) ?_
    rintro calls log call log' h ⟨hvalid, hexec⟩
    have hnext := (h.exec hvalid).2
    rwa [hexec] at hnext
  refine ⟨h.isSome_slot_iff, ⟨(loggedSince calls).map fun record => some record.entry,
    { log with iterpos := (loggedSince calls).length }, fun fuel hfuel => ?_, ?_, ?_⟩,
    fun call hvalid => ⟨_, hvalid, Prod.ext rfl (h.exec hvalid).1⟩⟩
  · have hiterate := LogHolds.tpclogIterate_eq h.holds fuel 0 (Nat.zero_le _)
      (by rwa [List.length_map])
    rw [List.drop_zero, List.map_map, List.length_map] at hiterate
    refine hiterate.trans (Prod.ext (List.map_congr_left fun record _ => ?_) rfl)
    exact record.tpclogLoadEntry_file
  · show (log.slot (loggedSince calls).length).isSome = false
    rw [h.holds, List.getElem?_eq_none (List.length_map _).le]
    rfl
  · rw [List.map_map]
    exact List.map_congr_left fun record _ => record.record?_entry

/-- A put and a commit are logged, the process starts again, and a deletion is logged after a
clear. -/
theorem tpclog_roundTrip_restarted :
    ∃ log, Run LogStep (tpclogInit ⟨∅, 7, 7⟩)
        [.log .putReq (.ref letterA) (.ref letterB), .log .commit .null .null, .init 5 5, .clear,
          .log .delReq (.ref letterA) .null] log
      ∧ log.nextid = 1
      ∧ (tpclogIterate 2 (tpclogIterateBegin log)).1.map (fun entry => entry.bind LogEntry.record?)
        = [some (.del letterA)] := by
  have hrun : ∃ log, Run LogStep (tpclogInit ⟨∅, 7, 7⟩)
      [.log .putReq (.ref letterA) (.ref letterB), .log .commit .null .null, .init 5 5, .clear,
        .log .delReq (.ref letterA) .null] log ∧ log.nextid = 1 :=
    ⟨_, .cons ⟨rfl, rfl⟩ (.cons ⟨rfl, rfl⟩ (.cons ⟨trivial, rfl⟩ (.cons ⟨trivial, rfl⟩
      (.cons ⟨rfl, rfl⟩ .nil)))), rfl⟩
  obtain ⟨log, hrun, hnextid⟩ := hrun
  obtain ⟨-, ⟨entries, log', hiterate, -, hdecoded⟩, -⟩ := tpclog_roundTrip rfl hrun
  refine ⟨log, hrun, hnextid, ?_⟩
  rw [hiterate 2 (by decide)]
  exact hdecoded

end Kv
