import Cs162.UserProcessRuns

/-!
# The descriptor table of a process

`process_add_file` gives an open file the next number, `process_get_file` looks
a number up, and `process_close_file` walks the list and closes the entry with a
number – or every entry, where the number is `CLOSE_ALL`, which is -1. The system
call `close` hands on whatever number the process gives, so a process that calls
`close (-1)` loses every file it has open. And the next number is an `int` that
is never checked: the number after 2147483647 is negative.

What the table should do is said by the calls alone (`openFile`): a number stands
for the file it was given for until it is closed. This is what it does, call by
call, up to the first call that is one of the two above (`descriptorTable_iff`).
-/

namespace Pintos

open Command
open Transition (Run)

/-! ## Lists of keys and values -/

section

variable {α β : Type} [DecidableEq α] {list : List (α × β)}

theorem lookup_eq_none_of_notMem {k : α} (h : k ∉ list.map Prod.fst) : list.lookup k = none := by
  rw [List.lookup_eq_none_iff]
  intro e he
  rw [bne_iff_ne]
  rintro rfl
  exact h (List.mem_map_of_mem he)

theorem lookup_of_mem (hkeys : (list.map Prod.fst).Nodup) {k : α} {v : β} (hmem : (k, v) ∈ list) :
    list.lookup k = some v := by
  induction list with
  | nil => cases hmem
  | cons e list ih =>
    obtain ⟨hnot, hkeys⟩ := List.nodup_cons.mp (List.map_cons .. ▸ hkeys)
    rcases List.mem_cons.mp hmem with rfl | hmem
    · rw [List.lookup_cons, beq_self_eq_true]
    · have hne : k ≠ e.1 := fun heq => hnot (heq ▸ List.mem_map_of_mem hmem)
      rw [List.lookup_cons, beq_eq_false_iff_ne.mpr hne]
      exact ih hkeys hmem

theorem lookup_erase [DecidableEq β] {entry : α × β} (hkeys : (list.map Prod.fst).Nodup)
    (hmem : entry ∈ list) (k : α) :
    (list.erase entry).lookup k = if k = entry.1 then none else list.lookup k := by
  induction list with
  | nil => cases hmem
  | cons e list ih =>
    obtain ⟨hnot, hkeys⟩ := List.nodup_cons.mp (List.map_cons .. ▸ hkeys)
    by_cases he : e = entry
    · subst he
      rw [List.erase_cons_head]
      split
      · rename_i hk
        exact hk ▸ lookup_eq_none_of_notMem hnot
      · rename_i hk
        rw [List.lookup_cons, beq_eq_false_iff_ne.mpr hk]
    · have hmem : entry ∈ list := (List.mem_cons.mp hmem).resolve_left (Ne.symm he)
      have hne : e.1 ≠ entry.1 := fun heq => hnot (heq ▸ List.mem_map_of_mem hmem)
      rw [List.erase_cons_tail (by simpa using he), List.lookup_cons, List.lookup_cons,
        ih hkeys hmem]
      by_cases hk : k = e.1
      · rw [beq_iff_eq.mpr hk]
        exact (if_neg (hk ▸ hne)).symm
      · rw [beq_eq_false_iff_ne.mpr hk]

end

/-! ## The calls on the table -/

/-- **What a process does with its descriptors.** -/
inductive TableEvent
  /-- A file is opened and given a descriptor. -/
  | opened (fd : Int32) (file : ℕ)
  /-- There is no such file. -/
  | refused
  | closed (fd : Int32)

/-- **A system call on the table**, with what it returns. -/
inductive TableStep (p : ℕ) : System → TableEvent → System → Prop
  | opened {s s' : System} {name : CString} {fd : Int32} {file : ℕ} {fs : Filesys} :
      filesysOpen name s.fs = .ok (some file, fs) →
      SystemCall.run p (.open (some name)) s = .ok (.returns (some fd), s') →
      TableStep p s (.opened fd file) s'
  | refused {s s' : System} {name : CString} {fs : Filesys} :
      filesysOpen name s.fs = .ok (none, fs) →
      SystemCall.run p (.open (some name)) s = .ok (.returns (some callError), s') →
      TableStep p s .refused s'
  | closed {s s' : System} {fd : Int32} :
      SystemCall.run p (.close fd) s = .ok (.returns none, s') → TableStep p s (.closed fd) s'

/-! ## What the table should be -/

/-- The descriptors that were handed out, in order. -/
def handedOut (log : List TableEvent) : List Int32 :=
  log.filterMap fun
    | .opened fd _ => some fd
    | _ => none

/-- The effect of an event on the table. -/
def TableEvent.apply (table : Int32 → Option ℕ) : TableEvent → Int32 → Option ℕ
  | .opened fd file => Function.update table fd (some file)
  | .refused => table
  | .closed fd => Function.update table fd none

/-- **The file open under a descriptor**: the one it was given for, if it has not been closed
since. -/
def openFile (log : List TableEvent) : Int32 → Option ℕ :=
  log.foldl TableEvent.apply fun _ => none

/-- **The table is what it should be**: the descriptors handed out are distinct and at least 2,
and `process_get_file` returns the file that is open under a descriptor, or nothing. -/
structure Faithful (p : ℕ) (log : List TableEvent) (s : System) : Prop where
  distinct : (handedOut log).Nodup
  least : ∀ fd ∈ handedOut log, minFd ≤ fd
  table : ∀ fd, s.processGetFile p fd = openFile log fd

/-- **A close is selective**: every other descriptor is open on the same file, and no file is
closed but the one that was open under the descriptor. -/
structure Selective (p : ℕ) (fd : Int32) (s s' : System) : Prop where
  others : ∀ fd', fd' ≠ fd → s'.processGetFile p fd' = s.processGetFile p fd'
  files : s.fs.Carries {file | s.processGetFile p fd = some file} s'.fs

/-- **The calls that are handled well**: a file is opened while the next descriptor is not
negative, and `close` is not called with -1 unless nothing is open. -/
def TableEvent.Sound (p : ℕ) (s : System) : TableEvent → Prop
  | .opened _ _ => minFd ≤ (s.processes p).fd
  | .refused => True
  | .closed fd => fd = closeAll → (s.processes p).fileList = []

/-- A call on the table that is handled well. -/
def SoundStep (p : ℕ) (s : System) (e : TableEvent) (s' : System) : Prop :=
  TableStep p s e s' ∧ e.Sound p s

/-! ## What the calls do -/

section

variable {blockSize p file : ℕ} {fd : Int32} {s s' : System}

/-- **`open`** adds an entry under the next descriptor. -/
theorem TableStep.opened_eq (hstep : TableStep p s (.opened fd file) s') : fd = (s.processes p).fd
      ∧ s'.processes p = { s.processes p with
          fileList := (s.processes p).fileList ++ [(fd, file)], fd := fd + 1 }
      ∧ ∃ name, SystemCall.run p (.open (some name)) s = .ok (.returns (some fd), s') := by
  cases hstep with
  | @opened _ name _ _ fs hopen hrun =>
    have hinside : onFilesys (filesysOpen name) s = .ok (some file, { s with fs := fs }) := by
      unfold onFilesys Command.inside
      rw [hopen]
    have hcall : SystemCall.run p (.open (some name)) s
        = .ok (.returns (some (s.processes p).fd), { s with fs := fs }.update p fun process =>
          { process with
            fileList := process.fileList ++ [((s.processes p).fd, file)], fd := process.fd + 1 }) :=
      bind_apply hinside
    have heq := Except.ok.inj (hcall.symm.trans hrun)
    obtain ⟨hresult, rfl⟩ := Prod.mk.inj heq
    cases hresult
    exact ⟨rfl, Function.update_self .., name, hrun⟩

/-- An `open` that finds no file changes nothing of the table. -/
theorem TableStep.refused_eq (hstep : TableStep p s .refused s') : s'.processes p = s.processes p
      ∧ ∃ name, SystemCall.run p (.open (some name)) s = .ok (.returns (some callError), s') := by
  cases hstep with
  | @refused _ name fs hopen hrun =>
    have hinside : onFilesys (filesysOpen name) s = .ok (none, { s with fs := fs }) := by
      unfold onFilesys Command.inside
      rw [hopen]
    have hcall : SystemCall.run p (.open (some name)) s
        = .ok (.returns (some callError), { s with fs := fs }) :=
      bind_apply hinside
    obtain ⟨-, rfl⟩ := Prod.mk.inj (Except.ok.inj (hcall.symm.trans hrun))
    exact ⟨rfl, name, hrun⟩

/-- **`close`** closes the entries that `process_close_file` selects. -/
theorem System.Inv.closed (h : s.Inv False blockSize) (hp : p < s.nextTid)
    (hstep : TableStep p s (.closed fd) s') :
    s'.Inv False blockSize ∧ s.Closes p (closedEntries fd (s.processes p).fileList) s' := by
  cases hstep with
  | closed hrun =>
    have hends : Ensures (fun _ => True) s (SystemCall.run p (.close fd)) fun _ s' =>
        s'.Inv False blockSize ∧ s.Closes p (closedEntries fd (s.processes p).fileList) s' :=
      (h.processCloseFile nofun hp).bind fun _ _ hclosed => .pure hclosed
    exact hends.of_ok hrun

/-- `close` returns, whatever the descriptor. -/
theorem System.Inv.exists_closed (h : s.Inv False blockSize) (hp : p < s.nextTid) (fd : Int32) :
    ∃ s', TableStep p s (.closed fd) s' := by
  have hends : Ensures (fun _ => False) s (Pintos.processCloseFile p fd) fun _ _ => True :=
    (h.processCloseFile nofun hp).mono fun _ _ _ => trivial
  cases hclose : Pintos.processCloseFile p fd s with
  | error e => exact (hends.of_error hclose).elim
  | ok result => exact ⟨result.2, .closed (bind_apply hclose)⟩

end

/-! ## The numbers -/

/-- The descriptors in the order in which they are handed out. -/
def descriptor (i : ℕ) : Int32 := .ofNat (2 + i)

theorem toInt_descriptor {i : ℕ} (hi : i < 2 ^ 31 - 2) : (descriptor i).toInt = 2 + i := by
  refine (Int32.toInt_ofNat_of_lt ?_).trans ?_
  · omega
  · push_cast
    rfl

theorem minFd_le_descriptor {i : ℕ} (hi : i < 2 ^ 31 - 2) : minFd ≤ descriptor i := by
  rw [Int32.le_iff_toInt_le, toInt_descriptor hi]
  show (2 : ℤ) ≤ 2 + i
  omega

/-- After the greatest number comes the least. -/
theorem descriptor_wraps : ¬ minFd ≤ descriptor (2 ^ 31 - 2) := by
  decide

theorem nodup_descriptors {n : ℕ} (hn : n ≤ 2 ^ 31 - 2) :
    ((List.range n).map descriptor).Nodup := by
  refine List.Nodup.map_on (fun i hi j hj heq => ?_) List.nodup_range
  have heq := congrArg Int32.toInt heq
  rw [toInt_descriptor (by have := List.mem_range.mp hi; omega),
    toInt_descriptor (by have := List.mem_range.mp hj; omega)] at heq
  omega

/-! ## The invariant -/

/-- **The table of a process that made only calls that are handled well.** -/
structure TableInv (blockSize p : ℕ) (log : List TableEvent) (s : System) : Prop where
  inv : s.Inv False blockSize
  running : (s.processes p).phase = .running
  few : (handedOut log).length ≤ 2 ^ 31 - 2
  handed : handedOut log = (List.range (handedOut log).length).map descriptor
  fd : (s.processes p).fd = descriptor (handedOut log).length
  keys : ((s.processes p).fileList.map Prod.fst).Sublist (handedOut log)
  table : ∀ fd, s.processGetFile p fd = openFile log fd

namespace TableInv

variable {blockSize p file : ℕ} {fd : Int32} {s s' : System} {log : List TableEvent}
  {e : TableEvent}

theorem handed_nodup (h : TableInv blockSize p log s) : (handedOut log).Nodup :=
  h.handed ▸ nodup_descriptors h.few

theorem least (h : TableInv blockSize p log s) : ∀ fd ∈ handedOut log, minFd ≤ fd := by
  intro fd hfd
  rw [h.handed] at hfd
  obtain ⟨i, hi, rfl⟩ := List.mem_map.mp hfd
  have := List.mem_range.mp hi
  have := h.few
  exact minFd_le_descriptor (by omega)

theorem faithful (h : TableInv blockSize p log s) : Faithful p log s :=
  ⟨h.handed_nodup, h.least, h.table⟩

theorem lt_nextTid (h : TableInv blockSize p log s) : p < s.nextTid :=
  h.inv.lt_nextTid (by rw [h.running]; exact nofun)

/-- No descriptor that is open is `CLOSE_ALL`. -/
theorem ne_closeAll (h : TableInv blockSize p log s)
    (hmem : fd ∈ (s.processes p).fileList.map Prod.fst) : fd ≠ closeAll := by
  rintro rfl
  exact absurd (h.least _ (h.keys.subset hmem)) (by decide)

/-- Calls that leave the table and what was handed out alone. -/
theorem of_same (h : TableInv blockSize p log s) (hinv : s'.Inv False blockSize)
    (hself : s'.processes p = s.processes p) (hlog : handedOut (log ++ [e]) = handedOut log)
    (htable : openFile (log ++ [e]) = openFile log) : TableInv blockSize p (log ++ [e]) s' where
  inv := hinv
  running := hself ▸ h.running
  few := hlog ▸ h.few
  handed := hlog ▸ h.handed
  fd := by rw [hlog, hself, h.fd]
  keys := by rw [hlog, hself]; exact h.keys
  table fd := by
    rw [htable, ← h.table]
    unfold System.processGetFile
    rw [hself]

theorem refused (h : TableInv blockSize p log s) (hstep : TableStep p s .refused s') :
    TableInv blockSize p (log ++ [.refused]) s' := by
  obtain ⟨hself, name, hrun⟩ := hstep.refused_eq
  refine h.of_same ((h.inv.call h.running nofun).of_ok hrun).1 hself ?_ ?_
  · unfold handedOut
    rw [List.filterMap_append]
    exact List.append_nil _
  · unfold openFile
    rw [List.foldl_append]
    rfl

theorem handedOut_opened (log : List TableEvent) (fd : Int32) (file : ℕ) :
    handedOut (log ++ [.opened fd file]) = handedOut log ++ [fd] := by
  unfold handedOut
  rw [List.filterMap_append]
  rfl

theorem openFile_concat (log : List TableEvent) (e : TableEvent) :
    openFile (log ++ [e]) = e.apply (openFile log) := by
  unfold openFile
  rw [List.foldl_append]
  rfl

/-- **A file is opened** while the next descriptor is not negative. -/
theorem opened (h : TableInv blockSize p log s) (hstep : TableStep p s (.opened fd file) s')
    (hsound : minFd ≤ (s.processes p).fd) : TableInv blockSize p (log ++ [.opened fd file]) s' := by
  obtain ⟨hfd, hself, name, hrun⟩ := hstep.opened_eq
  have hfew := h.few
  have hlt : (handedOut log).length < 2 ^ 31 - 2 := by
    refine lt_of_le_of_ne hfew fun heq => descriptor_wraps ?_
    rw [← heq, ← h.fd]
    exact hsound
  have hnext : fd = descriptor (handedOut log).length := hfd.trans h.fd
  have hnew : fd ∉ handedOut log := by
    rw [h.handed, hnext]
    intro hmem
    have hnodup := nodup_descriptors (n := (handedOut log).length + 1) (by omega)
    rw [List.range_succ, List.map_append] at hnodup
    exact List.disjoint_of_nodup_append hnodup hmem (List.mem_singleton_self _)
  have hlength : (handedOut (log ++ [.opened fd file])).length = (handedOut log).length + 1 := by
    rw [handedOut_opened, List.length_append, List.length_singleton]
  have hlist : (s'.processes p).fileList = (s.processes p).fileList ++ [(fd, file)] :=
    congrArg UserProcess.fileList hself
  refine ⟨((h.inv.call h.running nofun).of_ok hrun).1, ?_, ?_, ?_, ?_, ?_, fun k => ?_⟩
  · rw [hself]
    exact h.running
  · rw [hlength]
    omega
  · rw [hlength, handedOut_opened, List.range_succ, List.map_append, ← h.handed, hnext]
    rfl
  · rw [hself, hlength]
    show fd + 1 = Int32.ofNat (2 + (handedOut log).length + 1)
    rw [Int32.ofNat_add, hnext]
    rfl
  · rw [handedOut_opened, hlist, List.map_append]
    exact h.keys.append (List.Sublist.refl _)
  · rw [openFile_concat]
    show (s'.processes p).fileList.lookup k = Function.update (openFile log) fd (some file) k
    rw [hlist, List.lookup_append, show (s.processes p).fileList.lookup k = openFile log k from
      h.table k, Function.update_apply]
    by_cases hk : k = fd
    · have hnone : openFile log fd = none := (h.table fd).symm.trans
        (lookup_eq_none_of_notMem fun hmem => hnew (h.keys.subset hmem))
      rw [if_pos hk, hk, hnone, List.lookup_cons, beq_self_eq_true]
      rfl
    · rw [if_neg hk, List.lookup_cons, beq_eq_false_iff_ne.mpr hk, List.lookup_nil, Option.or_none]

/-- The entries that a close selects, where it is not for all. -/
theorem closedEntries_cases (hall : fd ≠ closeAll) (list : List (Int32 × ℕ)) :
    (fd ∉ list.map Prod.fst ∧ closedEntries fd list = [])
      ∨ ∃ file, (fd, file) ∈ list ∧ closedEntries fd list = [(fd, file)] := by
  unfold closedEntries
  rw [if_neg hall]
  cases hfind : list.find? fun entry => fd = entry.1 with
  | none =>
    refine .inl ⟨fun hmem => ?_, rfl⟩
    obtain ⟨entry, hentry, rfl⟩ := List.mem_map.mp hmem
    exact absurd (List.find?_eq_none.mp hfind entry hentry) (by simp)
  | some entry =>
    have hkey : fd = entry.1 := by simpa using List.find?_some hfind
    subst hkey
    exact .inr ⟨entry.2, List.mem_of_find?_eq_some hfind, rfl⟩

/-- **What a close does to the lookups**, where it is handled well: it takes the descriptor
away and leaves the others. -/
theorem lookup_closed (h : TableInv blockSize p log s) (hcloses :
      s.Closes p (closedEntries fd (s.processes p).fileList) s')
    (hsound : fd = closeAll → (s.processes p).fileList = []) (k : Int32) :
    s'.processGetFile p k = Function.update (openFile log) fd none k := by
  show (s'.processes p).fileList.lookup k = _
  rw [hcloses.list, Function.update_apply, ← h.table k]
  show _ = if k = fd then none else (s.processes p).fileList.lookup k
  have hnodup : ((s.processes p).fileList.map Prod.fst).Nodup := h.keys.nodup h.handed_nodup
  by_cases hall : fd = closeAll
  · rw [hsound hall, List.nil_diff, List.lookup_nil, ite_self]
  · rcases closedEntries_cases hall (s.processes p).fileList with ⟨hnot, hnone⟩ | ⟨file, hmem, hone⟩
    · rw [hnone, List.diff_nil]
      split
      · rename_i hk
        exact hk ▸ lookup_eq_none_of_notMem hnot
      · rfl
    · rw [hone, List.diff_cons, List.diff_nil]
      exact lookup_erase hnodup hmem k

/-- **A close that is handled well.** -/
theorem closed (h : TableInv blockSize p log s) (hstep : TableStep p s (.closed fd) s')
    (hsound : fd = closeAll → (s.processes p).fileList = []) :
    TableInv blockSize p (log ++ [.closed fd]) s' := by
  obtain ⟨hinv, hcloses⟩ := h.inv.closed h.lt_nextTid hstep
  obtain ⟨list, hself⟩ := hcloses.self
  have hlog : handedOut (log ++ [.closed fd]) = handedOut log := by
    unfold handedOut
    rw [List.filterMap_append]
    exact List.append_nil _
  refine ⟨hinv, ?_, hlog ▸ h.few, hlog ▸ h.handed, ?_, ?_, fun k => ?_⟩
  · rw [hself]
    exact h.running
  · rw [hself, hlog]
    exact h.fd
  · rw [hlog, hcloses.list]
    exact ((List.diff_sublist _ _).map _).trans h.keys
  · rw [openFile_concat]
    exact h.lookup_closed hcloses hsound k

theorem selective (h : TableInv blockSize p log s) (hstep : TableStep p s (.closed fd) s')
    (hsound : fd = closeAll → (s.processes p).fileList = []) : Selective p fd s s' := by
  obtain ⟨-, hcloses⟩ := h.inv.closed h.lt_nextTid hstep
  refine ⟨fun k hk => ?_, hcloses.files.mono ?_⟩
  · rw [h.lookup_closed hcloses hsound k, Function.update_of_ne hk, h.table]
  · rintro file ⟨k, hmem⟩
    have hnodup : ((s.processes p).fileList.map Prod.fst).Nodup := h.keys.nodup h.handed_nodup
    by_cases hall : fd = closeAll
    · unfold closedEntries at hmem
      rw [if_pos hall, hsound hall] at hmem
      cases hmem
    · rcases closedEntries_cases hall (s.processes p).fileList with ⟨-, hnone⟩ | ⟨f, hf, hone⟩
      · rw [hnone] at hmem
        cases hmem
      · rw [hone] at hmem
        obtain ⟨rfl, rfl⟩ := Prod.mk.inj (List.mem_singleton.mp hmem)
        exact lookup_of_mem hnodup hf

/-- **The step lemma.** -/
theorem step (h : TableInv blockSize p log s) (hstep : SoundStep p s e s') :
    TableInv blockSize p (log ++ [e]) s' := by
  obtain ⟨hstep, hsound⟩ := hstep
  cases e with
  | opened fd file => exact h.opened hstep hsound
  | refused => exact h.refused hstep
  | closed fd => exact h.closed hstep hsound

/-! ## The calls that are not handled well -/

/-- A descriptor that is negative is handed out. -/
theorem sound_of_opened (hstep : TableStep p s (.opened fd file) s')
    (hleast : ∀ k ∈ handedOut (log ++ [.opened fd file]), minFd ≤ k) :
    minFd ≤ (s.processes p).fd := by
  rw [← hstep.opened_eq.1]
  refine hleast fd ?_
  rw [handedOut_opened]
  exact List.mem_append_right _ (List.mem_singleton_self fd)

/-- `close (-1)` takes every descriptor away. -/
theorem closedAll (h : TableInv blockSize p log s) (hstep : TableStep p s (.closed closeAll) s') :
    (s'.processes p).fileList = [] := by
  obtain ⟨-, hcloses⟩ := h.inv.closed h.lt_nextTid hstep
  rw [hcloses.list]
  unfold closedEntries
  rw [if_pos rfl, List.eq_nil_iff_forall_not_mem]
  intro entry hentry
  obtain ⟨hmem, hnot⟩ := (h.keys.nodup h.handed_nodup).of_map.mem_sdiff_iff.mp hentry
  exact hnot hmem

theorem sound_of_closed (h : TableInv blockSize p log s)
    (hstep : TableStep p s (.closed closeAll) s')
    (htable : ∀ k, s'.processGetFile p k = openFile (log ++ [.closed closeAll]) k) :
    (s.processes p).fileList = [] := by
  have hnil := h.closedAll hstep
  by_contra hne
  obtain ⟨entry, hmem⟩ := List.exists_mem_of_ne_nil _ hne
  have hkey := h.ne_closeAll (List.mem_map_of_mem hmem)
  have hopen : openFile log entry.1 = some entry.2 :=
    (h.table entry.1).symm.trans (lookup_of_mem (h.keys.nodup h.handed_nodup) hmem)
  have hlost := htable entry.1
  unfold System.processGetFile at hlost
  rw [hnil, openFile_concat] at hlost
  have hkept : openFile log entry.1 = none :=
    (Function.update_of_ne hkey ..).symm.trans hlost.symm
  rw [hopen] at hkept
  cases hkept

end TableInv

/-- **A process that has just been started** has its executable open. -/
theorem System.Inv.started {blockSize p : ℕ} {s₁ s₀ : System} (h : s₁.Inv False blockSize)
    (hstart : SystemStep s₁ (.denyExecutable p) s₀) :
    TableInv blockSize p [.opened minFd s₁.fs.files.length] s₀ := by
  have hinv := h.step hstart nofun
  obtain ⟨henabled, result, hrun⟩ := hstart
  unfold SystemEvent.enabled at henabled
  unfold SystemEvent.run at hrun
  dsimp only at henabled hrun
  split at henabled
  · rename_i name hphase
    rw [hphase] at hrun
    obtain ⟨-, -, hrunning, hfd, hlist⟩ :=
      (h.denyExecutable (E := fun _ => True) hphase fun _ _ => trivial).of_ok hrun
    refine ⟨hinv, hrunning, ?_, ?_, hfd, ?_, fun k => ?_⟩
    · exact (by decide : 1 ≤ 2 ^ 31 - 2)
    · exact (by decide : [minFd] = [descriptor 0])
    · rw [hlist]
      exact List.Sublist.refl _
    · unfold System.processGetFile
      rw [hlist, List.lookup_cons]
      show _ = Function.update (fun _ => none) minFd (some s₁.fs.files.length) k
      rw [Function.update_apply]
      by_cases hk : k = minFd
      · rw [if_pos hk, beq_iff_eq.mpr hk]
      · rw [if_neg hk, beq_eq_false_iff_ne.mpr hk, List.lookup_nil]
  · cases henabled

/-- **The descriptor table.** Let a process that has just been started, with its executable
under the descriptor 2, call `open` and `close` any number of times, and let the calls so far
have been handled well. Then the table is what it should be, and `close` returns whatever its
argument. A further call leaves the table as it should be, and closes no other file, if and only
if it is handled well: the next descriptor must not have become negative, after 2³¹ - 2 of them,
and `close` must not be called with -1 while a file is open. -/
theorem descriptorTable_iff {blockSize : UInt32} {fs : Filesys} {events : List SystemEvent}
    {p : ℕ} {s₁ s₀ s : System} {log : List TableEvent} (hprepared : fs.Prepared blockSize)
    (hrun : Run SystemStep (.initial fs) events s₁) (hstart : SystemStep s₁ (.denyExecutable p) s₀)
    (hcalls : Run (SoundStep p) s₀ log s) :
    Faithful p (.opened minFd s₁.fs.files.length :: log) s
      ∧ (∀ fd, ∃ s', TableStep p s (.closed fd) s')
      ∧ ∀ e s', TableStep p s e s' →
        (Faithful p (.opened minFd s₁.fs.files.length :: log ++ [e]) s'
            ∧ (∀ fd, e = .closed fd → Selective p fd s s')
          ↔ e.Sound p s) := by
  have hinv₁ : s₁.Inv False blockSize.toNat :=
    hrun.invariant (I := fun _ s => s.Inv False blockSize.toNat)
      (System.initial_inv hprepared.sound) fun _ _ _ _ hinv hstep => hinv.step hstep nofun
  have hinv₀ := hinv₁.started hstart
  have hinv : TableInv blockSize.toNat p (.opened minFd s₁.fs.files.length :: log) s :=
    hcalls.invariant
      (I := fun log s => TableInv blockSize.toNat p (.opened minFd s₁.fs.files.length :: log) s)
      hinv₀ fun _ _ _ _ h hstep => h.step hstep
  refine ⟨hinv.faithful, hinv.inv.exists_closed hinv.lt_nextTid, fun e s' hstep =>
    ⟨fun ⟨hfaithful, _⟩ => ?_, fun hsound => ⟨(hinv.step ⟨hstep, hsound⟩).faithful, ?_⟩⟩⟩
  · cases e with
    | opened fd file => exact TableInv.sound_of_opened hstep hfaithful.least
    | refused => trivial
    | closed fd =>
      rintro rfl
      exact hinv.sound_of_closed hstep hfaithful.table
  · rintro fd rfl
    exact hinv.selective hstep hsound

/-! ## A process that opens a file -/

/-- A process is started and opens a file: the state after it was started, what `open` returns,
and the state after that. -/
def startAndOpen (p : ℕ) (name : CString) (s₁ : System) :
    Option (System × CallResult × System) := do
  let s₀ ← systemNext s₁ (.denyExecutable p)
  let (result, s) ← (SystemCall.run p (.open (some name)) s₀).toOption
  pure (s₀, result, s)

theorem startAndOpen_eq {p : ℕ} {name : CString} {s₁ s₀ s : System} {result : CallResult}
    (h : startAndOpen p name s₁ = some (s₀, result, s)) : SystemStep s₁ (.denyExecutable p) s₀
      ∧ SystemCall.run p (.open (some name)) s₀ = .ok (result, s) := by
  obtain ⟨s₀', hnext, h⟩ := Option.bind_eq_some_iff.mp h
  obtain ⟨⟨result', s'⟩, hopen, h⟩ := Option.bind_eq_some_iff.mp h
  cases h
  exact ⟨systemStep_of_next _ _ _ hnext, Command.eq_ok_of_toOption hopen⟩

/-- The events up to the start of a process. -/
def loadedEvents : List SystemEvent :=
  [.call 0 (.exec (some programName) (.enough 0)), .startProcess 1 true true, .resume 0]

/-- **A process that opens the file of its program** gets the descriptor 3. -/
theorem exists_opening : ∃ fs s₁ s₀ s, fs.Prepared 16 ∧ Run SystemStep (.initial fs) loadedEvents s₁
      ∧ SystemStep s₁ (.denyExecutable 1) s₀ ∧ SoundStep 1 s₀ (.opened 3 3) s
      ∧ s.processGetFile 1 3 = some 3 := by
  have hcomputed : ((programRun loadedEvents).bind fun r =>
      (startAndOpen 1 programName r.2).map fun t =>
        (t.2.1, (filesysOpen programName t.1.fs).toOption.map Prod.fst,
          decide (minFd ≤ (t.1.processes 1).fd), t.2.2.processGetFile 1 3))
      = some (CallResult.returns (some 3), some (some 3), true, some 3) := by
    decide +kernel
  obtain ⟨⟨fs, s₁⟩, hprogram, hcomputed⟩ := Option.bind_eq_some_iff.mp hcomputed
  obtain ⟨⟨s₀, result, s⟩, hopened, hstate⟩ := Option.map_eq_some_iff.mp hcomputed
  simp only [Prod.mk.injEq, decide_eq_true_eq] at hstate
  obtain ⟨rfl, hfile, hsound, hget⟩ := hstate
  obtain ⟨⟨file, fs'⟩, hfile, rfl⟩ := Option.map_eq_some_iff.mp hfile
  obtain ⟨hprepared, hrun⟩ := computedRun_eq hprogram
  obtain ⟨hstart, hopen⟩ := startAndOpen_eq hopened
  exact ⟨fs, s₁, s₀, s, hprepared, hrun, hstart,
    ⟨.opened (Command.eq_ok_of_toOption hfile) hopen, hsound⟩, hget⟩

/-- The table of that process is what it should be, and stays so when it closes the file. -/
theorem descriptorTable_iff_opening :
    ∃ fs s₁ s₀ s s', fs.Prepared 16 ∧ Run SystemStep (.initial fs) loadedEvents s₁
      ∧ SystemStep s₁ (.denyExecutable 1) s₀ ∧ Run (SoundStep 1) s₀ [.opened 3 3] s
      ∧ Faithful 1 [.opened minFd s₁.fs.files.length, .opened 3 3] s
      ∧ TableStep 1 s (.closed 3) s'
      ∧ Faithful 1 [.opened minFd s₁.fs.files.length, .opened 3 3, .closed 3] s'
      ∧ Selective 1 3 s s' := by
  obtain ⟨fs, s₁, s₀, s, hprepared, hrun, hstart, hopened, -⟩ := exists_opening
  have hcalls : Run (SoundStep 1) s₀ [.opened 3 3] s := Run.nil.snoc hopened
  obtain ⟨hfaithful, hends, hiff⟩ := descriptorTable_iff hprepared hrun hstart hcalls
  obtain ⟨s', hclosed⟩ := hends 3
  obtain ⟨hfaithful', hselective⟩ := (hiff _ s' hclosed).mpr fun heq => absurd heq (by decide)
  exact ⟨fs, s₁, s₀, s, s', hprepared, hrun, hstart, hcalls, hfaithful, hclosed, hfaithful',
    hselective 3 rfl⟩

/-- **`close (-1)` closes every file**: the file that the process has open under 3 is gone. -/
theorem close_closesAll :
    ∃ fs s₁ s₀ s s', fs.Prepared 16 ∧ Run SystemStep (.initial fs) loadedEvents s₁
      ∧ SystemStep s₁ (.denyExecutable 1) s₀ ∧ TableStep 1 s₀ (.opened 3 3) s
      ∧ TableStep 1 s (.closed (-1)) s'
      ∧ s.processGetFile 1 3 = some 3 ∧ s'.processGetFile 1 3 = none := by
  obtain ⟨fs, s₁, s₀, s, hprepared, hrun, hstart, hopened, hget⟩ := exists_opening
  have hinv₁ : s₁.Inv False 16 :=
    hrun.invariant (I := fun _ s => s.Inv False 16)
      (System.initial_inv hprepared.sound) fun _ _ _ _ hinv hstep => hinv.step hstep nofun
  have hinv := (hinv₁.started hstart).step hopened
  obtain ⟨s', hclosed⟩ := hinv.inv.exists_closed hinv.lt_nextTid (-1)
  refine ⟨fs, s₁, s₀, s, s', hprepared, hrun, hstart, hopened.1, hclosed, hget, ?_⟩
  unfold System.processGetFile
  rw [hinv.closedAll hclosed, List.lookup_nil]

end Pintos
