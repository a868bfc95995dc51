import Cs162.KvStore

/-!
# The log of a participant

A `TpcLog` keeps one file per entry, `0.log`, `1.log` and so on, and no
other record of how many there are: an initialisation probes for the first
missing number, and an iteration walks from `0` until a file is missing.

A file is written in two system calls' worth of steps – it is created empty,
then the entry is written into it – so a file can exist with less than its
entry in it. `LogFile` keeps the header apart from the data, and loading an
entry fails where either is short.

`LogRecord` is what a log is for: which requests and decisions were logged.
`LogHolds` says that the files are exactly the files of a list of records;
under it logging appends a record, an initialisation finds the end, and an
iteration returns the records in order.
-/

namespace Kv

/-- **An entry in memory** (`logentry_t`). -/
structure LogEntry where
  /-- The type of the logged message. -/
  type : MsgType
  /-- The length of the data, terminators included. -/
  length : ℕ
  /-- Nothing, the key, or the key and the value. -/
  data : List UInt8
  deriving DecidableEq

namespace LogEntry

/-- The string at `entry->data`. -/
def key (e : LogEntry) : CString := CString.ofData e.data 0

/-- The string at `entry->data + keylen + 1`. -/
def val (e : LogEntry) : CString := CString.ofData e.data (e.key.strlen + 1)

end LogEntry

/-- **An entry file**: its header, where all of it was written, and the bytes
after the header. -/
structure LogFile where
  /-- The type and the length of the entry. -/
  header : Option (MsgType × ℕ)
  /-- The bytes after the header. -/
  data : List UInt8
  deriving DecidableEq

/-- **A log** (`tpclog_t`). -/
structure TpcLog where
  /-- The entry files, by number. -/
  files : Finmap (fun _ : ℕ => LogFile)
  /-- The number the next entry is stored under. -/
  nextid : ℕ
  /-- The position of the current iteration. -/
  iterpos : ℕ

/-- The file with a given number. -/
def TpcLog.slot (log : TpcLog) (i : ℕ) : Option LogFile := log.files.lookup i

/-- Enough probes for any log. -/
def TpcLog.fuel (log : TpcLog) : ℕ := log.files.keys.card + 1

/-- `tpclog_init`: the next number is the first that names no file. -/
def tpclogInit (log : TpcLog) : TpcLog :=
  { log with nextid := Numbered.firstFree log.slot log.fuel 0 }

/-- The data of the entry `tpclog_log` writes, where the strings the type
needs can be read. -/
def logData (type : MsgType) (key value : Ptr CString) : Option (List UInt8) :=
  match type with
  | .putReq => do
    let key ← key.deref
    let value ← value.deref
    pure (key.stored ++ value.stored)
  | .delReq => do
    let key ← key.deref
    pure key.stored
  | _ => some []

/-- **`tpclog_log`**. The file is created and the next number taken before
the strings are read; the return code is absent where reading one kills the
process. -/
def tpclogLog (log : TpcLog) (type : MsgType) (key value : Ptr CString) :
    TpcLog × Option Int :=
  if type ≠ .putReq ∧ type ≠ .delReq ∧ type ≠ .abort ∧ type ≠ .commit then
    (log, some errInvldMsg)
  else
    match logData type key value with
    | none =>
      ({ log with
         files := log.files.insert log.nextid ⟨none, []⟩
         nextid := log.nextid + 1 }, none)
    | some data =>
      ({ log with
         files := log.files.insert log.nextid ⟨some (type, data.length), data⟩
         nextid := log.nextid + 1 }, some 0)

/-- `tpclog_load_entry`: the entry of a file that holds all of it. -/
def tpclogLoadEntry (file : LogFile) : Option LogEntry :=
  match file.header with
  | none => none
  | some (type, length) =>
    if file.data.length < length then none
    else some ⟨type, length, file.data.take length⟩

/-- `tpclog_iterate_begin`. -/
def tpclogIterateBegin (log : TpcLog) : TpcLog := { log with iterpos := 0 }

/-- `tpclog_iterate_has_next`. -/
def tpclogIterateHasNext (log : TpcLog) : Bool := (log.slot log.iterpos).isSome

/-- `tpclog_iterate_next`. -/
def tpclogIterateNext (log : TpcLog) : Option LogEntry × TpcLog :=
  match log.slot log.iterpos with
  | none => (none, log)
  | some file => (tpclogLoadEntry file, { log with iterpos := log.iterpos + 1 })

/-- The loop `while (tpclog_iterate_has_next) entry = tpclog_iterate_next`:
what each round returns, and the log when the loop ends. -/
def tpclogIterate : ℕ → TpcLog → List (Option LogEntry) × TpcLog
  | 0, log => ([], log)
  | fuel + 1, log =>
    if tpclogIterateHasNext log then
      let next := tpclogIterateNext log
      let rest := tpclogIterate fuel next.2
      (next.1 :: rest.1, rest.2)
    else ([], log)

/-! ## Records -/

/-- **What is logged**: a request, or a decision of the coordinator. -/
inductive LogRecord where
  | put (key value : CString)
  | del (key : CString)
  | commit
  | abort
  deriving DecidableEq

namespace LogRecord

/-- The message type of a record. -/
def type : LogRecord → MsgType
  | put _ _ => .putReq
  | del _ => .delReq
  | commit => .commit
  | abort => .abort

/-- The data of a record. -/
def data : LogRecord → List UInt8
  | put key value => key.stored ++ value.stored
  | del key => key.stored
  | commit => []
  | abort => []

/-- The entry of a record, as it is loaded. -/
def entry (r : LogRecord) : LogEntry := ⟨r.type, r.data.length, r.data⟩

/-- The file of a record, as it is written. -/
def file (r : LogRecord) : LogFile := ⟨some (r.type, r.data.length), r.data⟩

@[simp] theorem tpclogLoadEntry_file (r : LogRecord) : tpclogLoadEntry r.file = some r.entry := by
  unfold tpclogLoadEntry file entry
  simp

@[simp] theorem key_entry_put (key value : CString) : (put key value).entry.key = key :=
  CString.ofData_stored key _

@[simp] theorem val_entry_put (key value : CString) : (put key value).entry.val = value := by
  unfold LogEntry.val
  rw [key_entry_put]
  exact CString.ofData_stored_append key value

@[simp] theorem key_entry_del (key : CString) : (del key).entry.key = key :=
  CString.ofData_stored_self key

end LogRecord

/-- The record an entry of the log is. -/
def LogEntry.record? (e : LogEntry) : Option LogRecord :=
  match e.type with
  | .putReq => some (.put e.key e.val)
  | .delReq => some (.del e.key)
  | .commit => some .commit
  | .abort => some .abort
  | _ => none

/-- **A record is found again** in its entry. -/
@[simp] theorem LogRecord.record?_entry (record : LogRecord) :
    record.entry.record? = some record := by
  cases record with
  | put key value =>
    show some (put (put key value).entry.key _) = _
    rw [key_entry_put, val_entry_put]
  | del key =>
    show some (del (del key).entry.key) = _
    rw [key_entry_del]
  | commit => rfl
  | abort => rfl

/-- **The log holds a list of records**: its files are theirs, in order, and
the next number is their count. -/
structure LogHolds (log : TpcLog) (records : List LogRecord) : Prop where
  /-- The files are those of the records. -/
  holds : Numbered.Holds log.slot (records.map LogRecord.file)
  /-- The next entry goes behind them. -/
  nextid : log.nextid = records.length

namespace LogHolds

variable {log : TpcLog} {records : List LogRecord}

/-- A log has fewer entries than the probes are given fuel. -/
theorem length_lt_fuel {files : List LogFile} (h : Numbered.Holds log.slot files) :
    files.length < log.fuel :=
  Nat.lt_succ_of_le ((show Numbered.Holds (fun i => log.files.lookup i) _ from
    h).length_le_card (fun _ _ => id))

theorem holds_of_files_empty (h : log.files = ∅) :
    Numbered.Holds log.slot (([] : List LogRecord).map LogRecord.file) := by
  intro i
  unfold TpcLog.slot
  rw [h]
  rfl

/-- **An initialisation finds the end of the log.** -/
theorem init (h : Numbered.Holds log.slot (records.map LogRecord.file)) :
    LogHolds (tpclogInit log) records where
  holds := h
  nextid := by
    have hlt := length_lt_fuel h
    have := h.firstFree_eq log.fuel 0 (Nat.zero_le _) (by omega)
    rwa [List.length_map] at this

/-- Writing the file of a record under the next number appends it. -/
theorem append (h : LogHolds log records) (r : LogRecord) {log' : TpcLog}
    (hfiles : log'.files = log.files.insert log.nextid r.file)
    (hnext : log'.nextid = log.nextid + 1) : LogHolds log' (records ++ [r]) where
  holds := by
    rw [List.map_append]
    refine h.holds.append _ (fun j => ?_)
    unfold TpcLog.slot
    rw [hfiles, h.nextid, List.length_map]
    by_cases hj : j = records.length
    · rw [if_pos hj, hj, Finmap.lookup_insert]
    · rw [if_neg hj, Finmap.lookup_insert_of_ne _ hj]
  nextid := by
    rw [hnext, h.nextid, List.length_append, List.length_singleton]

/-- **Logging a record appends it**: a type and strings that are those of
the record. -/
theorem tpclogLog_append (h : LogHolds log records) (r : LogRecord)
    (key value : Ptr CString) (hdata : logData r.type key value = some r.data) :
    (tpclogLog log r.type key value).2 = some 0
      ∧ LogHolds (tpclogLog log r.type key value).1 (records ++ [r])
      ∧ (tpclogLog log r.type key value).1.iterpos = log.iterpos := by
  have htype : ¬ (r.type ≠ .putReq ∧ r.type ≠ .delReq ∧ r.type ≠ .abort
      ∧ r.type ≠ .commit) := by
    cases r <;> simp [LogRecord.type]
  unfold tpclogLog
  rw [if_neg htype, hdata]
  exact ⟨rfl, h.append r rfl rfl, rfl⟩

/-- The rounds of an iteration, from any position in the log: each loads a file,
or fails to. -/
theorem tpclogIterate_eq {files : List LogFile} (h : Numbered.Holds log.slot files)
    (fuel i : ℕ) (hi : i ≤ files.length) (hf : files.length - i < fuel) :
    tpclogIterate fuel { log with iterpos := i }
      = ((files.drop i).map tpclogLoadEntry, { log with iterpos := files.length }) := by
  induction fuel generalizing i with
  | zero => omega
  | succ fuel ih =>
    have hslot : log.slot i = files[i]? := h i
    rw [tpclogIterate]
    unfold tpclogIterateHasNext tpclogIterateNext
    show (if (log.slot i).isSome = true then _ else _) = _
    by_cases hlt : i < files.length
    · rw [List.getElem?_eq_getElem hlt] at hslot
      have hslot' : ({ log with iterpos := i } : TpcLog).slot i = some (files.get ⟨i, hlt⟩) := hslot
      rw [hslot, if_pos (by rfl), hslot']
      dsimp only
      rw [ih (i + 1) hlt (by omega), List.drop_eq_getElem_cons hlt]
      rfl
    · obtain rfl : i = files.length := by omega
      rw [List.getElem?_eq_none le_rfl] at hslot
      rw [hslot, if_neg (by simp), List.drop_length]
      rfl

/-- **An iteration from the beginning goes over all files.** -/
theorem iterate_files {files : List LogFile} (h : Numbered.Holds log.slot files) :
    tpclogIterate log.fuel (tpclogIterateBegin log)
      = (files.map tpclogLoadEntry, { log with iterpos := files.length }) :=
  tpclogIterate_eq h log.fuel 0 (Nat.zero_le _) (by have := length_lt_fuel h; omega)

/-- It returns the records in order. -/
theorem iterate (h : Numbered.Holds log.slot (records.map LogRecord.file)) :
    tpclogIterate log.fuel (tpclogIterateBegin log)
      = (records.map (fun r => some r.entry),
          { log with iterpos := records.length }) := by
  rw [iterate_files h, List.map_map, List.length_map]
  refine Prod.ext (List.map_congr_left fun r _ => ?_) rfl
  exact r.tpclogLoadEntry_file

/-- Where the iteration stands is no part of what the log holds. -/
theorem iterpos (h : LogHolds log records) (i : ℕ) : LogHolds { log with iterpos := i } records :=
  ⟨h.holds, h.nextid⟩

end LogHolds

end Kv
