import Cs162.KvServerCrash

/-!
# Torn logs

`tpclog_log` creates the file of an entry and then writes the entry into it,
so a crash can leave a file that exists and holds less than its entry. The
iteration over the log goes by the existence of files: `tpclog_iterate_has_next`
says that there is an entry, `tpclog_iterate_next` returns null because it
cannot be loaded, and the rebuild reads the type of what it was given.

The other end of the range is no better: over a log without files the loop of
the rebuild assigns nothing, and the pointer it uses afterwards was never set.
The rebuild completes exactly over the logs that are complete and not empty
and are rebuilt from within bounds (`RebuildInBounds`).
-/

namespace Kv

/-- `sizeof(logentry_t)`: the type and the length. -/
def logentrySize : ℕ := 8

/-- **An entry that was not written to its end**: of its bytes, the header
first, only some reached the file. -/
structure TornEntry where
  /-- What was being logged. -/
  record : LogRecord
  /-- The number of bytes that were written. -/
  written : ℕ
  /-- Some are missing. -/
  short : written < logentrySize + record.data.length

namespace TornEntry

/-- The file a torn entry leaves. -/
def file (torn : TornEntry) : LogFile :=
  if torn.written < logentrySize then ⟨none, []⟩
  else
    ⟨some (torn.record.type, torn.record.data.length),
      torn.record.data.take (torn.written - logentrySize)⟩

/-- **A torn entry cannot be loaded.** -/
theorem tpclogLoadEntry_file (torn : TornEntry) : tpclogLoadEntry torn.file = none := by
  unfold file
  split
  · rfl
  · rename_i hheader
    have hshort := torn.short
    unfold tpclogLoadEntry
    dsimp only
    rw [if_pos]
    rw [List.length_take]
    omega

end TornEntry

/-- **A log directory that a crash of `tpclog_log` can leave**: complete entries
and, where the crash came between the creation of the file and the end of the
write, a torn one behind them. -/
def CrashedLog (log : TpcLog) (records : List LogRecord) (torn : Option TornEntry) : Prop :=
  Numbered.Holds log.slot (records.map LogRecord.file ++ torn.toList.map TornEntry.file)

/-- The directory as if an entry had never been logged. -/
def TpcLog.without (log : TpcLog) (i : ℕ) : TpcLog := { log with files := log.files.erase i }

variable {s s₀ : KvServer} {log : TpcLog} {store : KvStore} {records : List LogRecord}
  {torn : Option TornEntry}

/-- A crash while an entry is written leaves such a directory. -/
theorem LogHolds.crashedLog (h : LogHolds log records) (torn : TornEntry) :
    CrashedLog { log with files := log.files.insert log.nextid torn.file } records
      (some torn) := by
  refine h.holds.append torn.file fun j => ?_
  show Finmap.lookup j (log.files.insert log.nextid torn.file) = _
  rw [h.nextid, List.length_map]
  by_cases hj : j = records.length
  · rw [if_pos hj, hj, Finmap.lookup_insert]
  · rw [if_neg hj, Finmap.lookup_insert_of_ne _ hj]
    rfl

/-- Without a torn entry there is nothing to take away. -/
theorem CrashedLog.without_eq (h : CrashedLog log records none) :
    log.without records.length = log := by
  have hnone : log.files.lookup records.length = none := by
    have hslot := h records.length
    rwa [Option.toList_none, List.map_nil, List.append_nil,
      List.getElem?_eq_none (List.length_map ..).le] at hslot
  have herase : log.files.erase records.length = log.files := by
    refine Finmap.ext_lookup fun j => ?_
    by_cases hj : j = records.length
    · rw [hj, Finmap.lookup_erase, hnone]
    · exact Finmap.lookup_erase_ne hj
  unfold TpcLog.without
  rw [herase]

/-- **Over a complete log the rebuild completes exactly where it stays in
bounds.** -/
theorem rebuild_completes_iff (h : Numbered.Holds s.log.slot (records.map LogRecord.file)) :
    (∃ t sent, kvserverRebuildStateChecked s = .ok (t, some sent)) ↔ RebuildInBounds records := by
  obtain ⟨hbounds, heq⟩ | ⟨hbounds, fault, hfault⟩ := kvserverRebuildStateChecked_cases h
  · refine iff_of_true ?_ hbounds
    suffices hsome : ∃ t sent, kvserverRebuildState s = (t, some sent) by
      obtain ⟨t, sent, hsent⟩ := hsome
      exact ⟨t, sent, heq.trans (congrArg _ hsent)⟩
    obtain ⟨record, hlast⟩ := hbounds.exists_last
    rw [kvserverRebuildState_eq h, hlast]
    cases record with
    | put key value | del key =>
      dsimp only
      split <;> exact ⟨_, _, rfl⟩
    | abort => exact ⟨_, _, rfl⟩
    | commit =>
      obtain ⟨key, value, hprev⟩ := hbounds.exists_put hlast
      rw [hprev]
      exact ⟨_, _, rfl⟩
  · refine iff_of_false ?_ hbounds
    rintro ⟨t, sent, hsent⟩
    cases hfault.symm.trans hsent

/-- **Over a torn log the rebuild never completes.** -/
theorem rebuild_torn {torn : TornEntry} (h : CrashedLog s.log records (some torn)) :
    kvserverRebuildStateChecked s = .error .noEntry := by
  have hrounds : (tpclogIterate s.log.fuel (tpclogIterateBegin s.log)).1.mapM id = none := by
    rw [LogHolds.iterate_files h]
    show ((records.map LogRecord.file ++ [torn.file]).map tpclogLoadEntry).mapM id = none
    rw [List.map_append, List.mapM_append, List.map_singleton, torn.tpclogLoadEntry_file]
    cases ((records.map LogRecord.file).map tpclogLoadEntry).mapM id <;> rfl
  unfold kvserverRebuildStateChecked
  dsimp only
  rw [hrounds]

/-- **Recovery from a crash**: the rebuild completes, with the store and the
waiting state of the rebuild over another directory. -/
def RecoversLike (s s₀ : KvServer) : Prop :=
  ∃ t sent t₀ sent₀, kvserverRebuildStateChecked s = .ok (t, some sent)
    ∧ kvserverRebuildStateChecked s₀ = .ok (t₀, some sent₀)
    ∧ t.store = t₀.store ∧ (t.state = .wait ↔ t₀.state = .wait)

/-- **Recovery survives exactly the logs that are not torn** and are rebuilt from
within bounds. -/
theorem rebuild_afterCrash_iff {numSets elemPerSet : ℕ} (hlog : CrashedLog log records torn)
    (hinit : kvserverInit store log numSets elemPerSet true = .ok s)
    (hinit₀ : kvserverInit store (log.without records.length) numSets elemPerSet true
      = .ok s₀) :
    RecoversLike s s₀ ↔ torn = none ∧ RebuildInBounds records := by
  have hslot : s.log.slot = log.slot := by
    unfold kvserverInit at hinit
    split at hinit <;> cases hinit
    rfl
  have hlog' : CrashedLog s.log records torn := by
    unfold CrashedLog
    rw [hslot]
    exact hlog
  cases torn with
  | some torn =>
    refine iff_of_false ?_ nofun
    rintro ⟨t, sent, -, -, hsent, -⟩
    cases (rebuild_torn hlog').symm.trans hsent
  | none =>
    rw [hlog.without_eq, hinit] at hinit₀
    cases hinit₀
    have hcomplete := hlog'
    unfold CrashedLog at hcomplete
    rw [Option.toList_none, List.map_nil, List.append_nil] at hcomplete
    rw [and_iff_right rfl, ← rebuild_completes_iff hcomplete]
    constructor
    · rintro ⟨t, sent, -, -, hsent, -⟩
      exact ⟨t, sent, hsent⟩
    · rintro ⟨t, sent, hsent⟩
      exact ⟨t, sent, t, sent, hsent, hsent, rfl, Iff.rfl⟩

theorem newServer_logHolds : LogHolds newServer.log [] :=
  ⟨LogHolds.holds_of_files_empty rfl, rfl⟩

/-- A log of one PUT. -/
def putLog : TpcLog :=
  ⟨(∅ : Finmap _).insert 0 (LogRecord.put letterA letterA).file, 1, 0⟩

/-- The server on that log. -/
def putServer : KvServer := { newServer with log := tpclogInit putLog }

/-- A pending PUT survives. -/
theorem rebuild_afterCrash_iff_put : RecoversLike putServer putServer := by
  have hlog : CrashedLog putLog [.put letterA letterA] none :=
    (newServer_logHolds.append (.put letterA letterA) rfl rfl).holds
  have hinit : kvserverInit ⟨false, ∅⟩ putLog 1 2 true = .ok putServer := rfl
  have hinit₀ : kvserverInit ⟨false, ∅⟩ (putLog.without 1) 1 2 true = .ok putServer := by
    rw [show putLog.without 1 = putLog from hlog.without_eq]
    exact hinit
  have hshort : letterA.strlen < maxValLen := by decide
  exact (rebuild_afterCrash_iff hlog hinit hinit₀).mpr ⟨rfl, hshort⟩

/-- A PUT of which nothing was written. -/
def tornPut : TornEntry := ⟨.put letterA letterA, 0, by decide⟩

/-- A log with that entry. -/
def tornLog : TpcLog := ⟨(∅ : Finmap _).insert 0 tornPut.file, 0, 0⟩

/-- The server on that log. -/
def tornServer : KvServer := { newServer with log := tpclogInit tornLog }

/-- **Neither a log with an empty file nor a log without files is recovered
from**: the rebuild dies in both. -/
theorem tornServer_notRecovered :
    CrashedLog tornLog [] (some tornPut)
      ∧ kvserverInit ⟨false, ∅⟩ tornLog 1 2 true = .ok tornServer
      ∧ kvserverRebuildStateChecked tornServer = .error .noEntry
      ∧ CrashedLog ⟨∅, 0, 0⟩ [] none
      ∧ kvserverInit ⟨false, ∅⟩ ⟨∅, 0, 0⟩ 1 2 true = .ok newServer
      ∧ kvserverRebuildStateChecked newServer = .error .noEntry := by
  have htorn : CrashedLog tornLog [] (some tornPut) := newServer_logHolds.crashedLog tornPut
  exact ⟨htorn, rfl, rebuild_torn htorn, newServer_logHolds.holds, rfl, rfl⟩

end Kv
