import Cs162.ArgumentPassing
import Cs162.UserProcessInv

/-!
# Runs of user processes

From a file system that is formatted and has some files in it, any number of
processes make system calls with any arguments, one call after another. The calls on
files hold `filesys_lock`; `load`, the rest of `start_process` and `process_exit` do not,
and are taken not to be interrupted.

The executable of a process is an ordinary descriptor, the first one the process
gets. A process that closes it, by its number or with all others by `CLOSE_ALL`,
ends the denial of writes while it goes on running (`executable_writable`). In
every run in which no process does so, writes to the executable are denied from
`start_process` until the process exits (`executable_guarded`).

An assertion, a null record or a freed one can be reached from user arguments
(`systemCall_panics`): a size or a position of `2 ^ 31` or more becomes a negative
`off_t`, a command line of spaces has no program's name in it, one of many short words
does not fit into `args`, and of a buffer only an end or two are tested. These cases
are all there are (`systemCall_ends`).
-/

namespace Pintos

open Command (Ensures)
open Transition (Run)

/-! ## Where processes start -/

/-- **A file system that processes start from**: it has been formatted, and the initial
thread has put files there and closed them. -/
def Filesys.Prepared (blockSize : UInt32) (fs : Filesys) : Prop :=
  ∃ disk unused fs₀ ops, filesysInit blockSize true (.boot disk unused) = .ok ((), fs₀)
    ∧ Run FilesysStep fs₀ ops fs ∧ ∀ file ∈ fs.files, file = none

theorem Filesys.Prepared.sound {blockSize : UInt32} {fs : Filesys} (h : fs.Prepared blockSize) :
    fs.Sound blockSize.toNat := by
  obtain ⟨disk, unused, fs₀, ops, hinit, hrun, hclosed⟩ := h
  have hinv := (filesysInit_inv hinit).run hrun
  have hnone : ∀ f, some f ∉ fs.files := fun f hf => by cases hclosed _ hf
  have herase : fs.erase = fs := by
    have hinodes : (fun sector => (fs.openInodes sector).map Inode.erase) = fs.openInodes := by
      funext sector
      cases hnode : fs.openInodes sector with
      | none => rfl
      | some node =>
        obtain ⟨-, -, hzero, -⟩ := hinv.agrees sector node hnode
        refine congrArg some ?_
        unfold Inode.erase
        rw [← hzero]
    have hfiles : fs.files.map (Option.map File.erase) = fs.files :=
      (List.map_congr_left fun file hfile => by rw [hclosed file hfile]; rfl).trans
        (List.map_id fs.files)
    unfold Filesys.erase
    rw [hinodes, hfiles]
  refine ⟨by rw [herase]; exact hinv, fun sector => ?_, fun f hf => absurd hf (hnone f)⟩
  rw [Filesys.denierCnt_eq_zero fun f hf => absurd hf (hnone f)]
  unfold Filesys.denyCnt
  cases hnode : fs.openInodes sector with
  | none => rfl
  | some node => exact (hinv.agrees sector node hnode).2.2.1

theorem System.initial_inv {careful : Prop} {blockSize : ℕ} {fs : Filesys}
    (h : fs.Sound blockSize) : (System.initial fs).Inv careful blockSize := by
  have hlists (p : ℕ) : ((System.initial fs).processes p).fileList = [] := by
    unfold System.initial
    dsimp only
    split <;> rfl
  refine ⟨h, fun p => ?_, fun p q _ entry hentry => ?_, fun p hp => ?_, fun p q hq => ?_⟩
  · unfold System.initial
    dsimp only
    split
    · exact { UserProcess.Ok.blank with
        awaited := fun c hc => by rcases hc with hc | hc <;> cases hc
        unstarted := nofun }
    · exact .blank
  · rw [hlists] at hentry
    cases hentry
  · exact if_neg (Nat.ne_of_gt hp)
  · unfold System.initial at hq
    dsimp only at hq
    split at hq <;> cases hq

/-! ## When a call ends -/

/-- **A call that does not stop the kernel.** One that makes its process exit needs the
record of the process. `create` needs a size below `2 ^ 31`, unless the device is
full, and `seek` a position below `2 ^ 31`, if the file is open. `exec` needs memory
and a byte that is not a space among those that fit into a page. The bytes that `read`
and `write` copy have to be in memory that is there, which they do not test. -/
def SystemCall.Harmless (s : System) (p : ℕ) : SystemCall → Prop
  | exit _ | exec none _ | create none _ | remove none | .open none | badStack =>
    s.recordListed p = true
  | exec (some cmdLine) memory =>
    (firstToken (pageCopy cmdLine)).isSome ∧ ∃ status, memory = .enough status
  | create (some _) initialSize =>
    initialSize.toNat < 2 ^ 31 ∨ bitmapScan s.fs.freeMap 0 1 false = none
  | read fd memory buffer size =>
    if fd = 1 ∨ ¬ memory.isSafe buffer = true then s.recordListed p = true
    else fd = 0 ∨ ∀ file bytes fs', s.processGetFile p fd = some file →
      fileRead file size.toInt32 s.fs = .ok (bytes, fs') → memory.Writable buffer bytes.length
  | write fd memory buffer size =>
    if fd = 0 ∨ ¬ (memory.isSafe buffer && memory.isSafe (buffer + size)) = true then
      s.recordListed p = true
    else if fd = 1 then memory.Readable buffer size.toNat
    else (s.processGetFile p fd = none → s.recordListed p = true)
      ∧ ∀ file writtenSize fs', s.processGetFile p fd = some file →
        fileWrite file (memory.bytesFrom buffer) size.toInt32 s.fs = .ok (writtenSize, fs') →
          memory.Readable buffer writtenSize
  | seek fd position => s.processGetFile p fd = none ∨ position.toNat < 2 ^ 31
  | _ => True

/-- **A call that leaves the executable open.** -/
def SystemCall.Careful : SystemCall → Prop
  | close fd => fd ≠ minFd ∧ fd ≠ closeAll
  | _ => True

theorem toInt32_neg_iff (x : UInt32) : x.toInt32 < 0 ↔ 2 ^ 31 ≤ x.toNat := by
  rw [Int32.lt_iff_toInt_lt]
  show x.toBitVec.toInt < 0 ↔ _
  rw [BitVec.toInt_neg_iff]
  show 2 ^ 32 ≤ 2 * x.toNat ↔ _
  omega

section

variable {careful : Prop} {blockSize p : ℕ} {s : System}

theorem System.Inv.exit_iff (h : s.Inv careful blockSize)
    (hphase : (s.processes p).phase = .running) (status : Int32) {H : Prop}
    (hH : H ↔ s.recordListed p = true) :
    Ensures (fun _ => ¬ H) s (Pintos.exit p status) fun result s' =>
      s'.Inv careful blockSize ∧ (result ≠ .hangs ↔ H) := by
  refine (h.exit hphase status fun hno => ?_).mono ?_
  · rw [hH, hno]
    exact Bool.false_ne_true
  · rintro - s' ⟨hyes, rfl, hinv⟩
    exact ⟨hinv, fun _ => hH.mpr hyes, fun _ => nofun⟩

theorem System.Inv.withFile {fd : Int32} {missing : SystemM CallResult}
    {c : ℕ → SystemM CallResult} {E : SystemPanic → Prop} {Q : CallResult → System → Prop}
    (h : s.Inv careful blockSize) (hmissing : s.processGetFile p fd = none → Ensures E s missing Q)
    (hfound : ∀ file f, s.processGetFile p fd = some file → s.fs.files[file]? = some (some f) →
      Ensures E s (c file) Q) : Ensures E s (SystemCall.withFile p fd missing c) Q := by
  unfold SystemCall.withFile
  refine .get_bind ?_
  cases hfile : s.processGetFile p fd with
  | none => exact hmissing hfile
  | some file =>
    obtain ⟨f, hf⟩ := h.exists_file hfile
    exact hfound file f hfile hf

/-- Bytes go from a file to a buffer or back, and all of them have to be in memory. -/
theorem System.Inv.transfer {α : Type} {file : ℕ} {f : File} {c : FilesysM α} {copied : α → Prop}
    [DecidablePred copied] {eax : α → Int32} {H : Prop} (h : s.Inv careful blockSize)
    (hf : s.fs.files[file]? = some (some f))
    (hc : Ensures (fun _ => ¬ H) s.fs c fun _ fs' => fs'.Sound blockSize
      ∧ ∃ pos, fs'.files = s.fs.files.set file (some { f with pos := pos }))
    (hH : H ↔ ∀ a fs', c s.fs = .ok (a, fs') → copied a) :
    Ensures (fun _ => ¬ H) s (do
        let a ← Pintos.onFilesys c
        if copied a then pure (CallResult.returns (some (eax a))) else Command.stop .pageFault)
      fun result s' => s'.Inv careful blockSize ∧ (result ≠ .hangs ↔ H) := by
  refine Ensures.bind (Ensures.inside (E := fun _ => ¬ H) hc.and_run) ?_
  rintro a - ⟨fs', ⟨⟨hsound, pos, hfiles⟩, hrun⟩, rfl⟩
  refine .ite (fun hcopied => ?_) fun hcopied => .stop fun hok => hcopied (hH.mp hok a fs' hrun)
  refine .pure ⟨h.setFs hsound (.of_setPos hf hfiles) fun _ _ _ => Set.notMem_empty _,
    fun _ => hH.mpr fun a' fs'' hrun' => ?_, fun _ => nofun⟩
  cases hrun.symm.trans hrun'
  exact hcopied

/-- **One call.** -/
theorem System.Inv.call (h : s.Inv careful blockSize) (hphase : (s.processes p).phase = .running)
    {c : SystemCall} (hcare : careful → c.Careful) :
    Ensures (fun _ => ¬ c.Harmless s p) s (c.run p) fun result s' =>
      s'.Inv careful blockSize ∧ (result ≠ .hangs ↔ c.Harmless s p) := by
  have hp : p < s.nextTid := h.lt_nextTid (by rw [hphase]; exact nofun)
  have hset {fs' : Filesys} (hsound : fs'.Sound blockSize) (hcarry : s.fs.Carries ∅ fs') :
      { s with fs := fs' }.Inv careful blockSize :=
    h.setFs hsound hcarry fun _ _ _ => Set.notMem_empty _
  cases c with
  | halt => exact .pure ⟨h, fun _ => trivial, fun _ => nofun⟩
  | exit status => exact h.exit_iff hphase status Iff.rfl
  | exec cmdLine memory =>
    cases cmdLine with
    | none => exact h.exit_iff hphase _ Iff.rfl
    | some cmdLine => exact h.exec hp cmdLine fun _ => id
  | wait pid =>
    exact (h.processWait hp pid.toInt).mono
      fun _ _ ⟨hresult, hinv⟩ => ⟨hinv, fun _ => trivial, fun _ => hresult⟩
  | create file initialSize =>
    cases file with
    | none => exact h.exit_iff hphase _ Iff.rfl
    | some file =>
      refine Ensures.bind (h.onFilesys (R := fun _ => SystemCall.Harmless s p
        (.create (some file) initialSize)) ?_) ?_
      · refine (h.sound.filesysCreate file fun hneg hfree hharmless => ?_).mono ?_
        · rcases hharmless with hsmall | hfull
          · exact absurd ((toInt32_neg_iff _).mp hneg) (not_le.mpr hsmall)
          · exact hfree hfull
        · rintro - fs' ⟨hsize, hsound, hfiles⟩
          refine ⟨hsize.imp_left fun hnonneg => ?_, hsound, .of_eq hfiles⟩
          by_contra hbig
          have hneg := (toInt32_neg_iff initialSize).mpr (not_lt.mp hbig)
          rw [Int32.lt_iff_toInt_lt] at hneg
          exact absurd hneg (not_lt.mpr hnonneg)
      · rintro success s' ⟨hharmless, hinv⟩
        exact .pure ⟨hinv, fun _ => hharmless, fun _ => nofun⟩
  | remove file =>
    cases file with
    | none => exact h.exit_iff hphase _ Iff.rfl
    | some file =>
      refine Ensures.bind (h.onFilesys (R := fun _ => True) ((h.sound.filesysRemove file).mono
        fun _ _ ⟨hsound, hfiles⟩ => ⟨trivial, hsound, .of_eq hfiles⟩)) ?_
      rintro success s' ⟨-, hinv⟩
      exact .pure ⟨hinv, fun _ => trivial, fun _ => nofun⟩
  | «open» file =>
    cases file with
    | none => exact h.exit_iff hphase _ Iff.rfl
    | some file =>
      refine Ensures.bind (h.sound.filesysOpen file).inside ?_
      rintro f - ⟨fs', ⟨-, hsound, hopened⟩, rfl⟩
      cases f with
      | none => exact .pure ⟨hset hsound (.of_eq hopened), fun _ => trivial, fun _ => nofun⟩
      | some f =>
        obtain ⟨rfl, inode, hfiles⟩ := hopened
        have hnew : fs'.files[s.fs.files.length]? = some (some ⟨inode, 0, false⟩) := by
          rw [hfiles, List.getElem?_concat_length]
        refine ((hset hsound (.of_append hfiles)).processAddFile ⟨_, hnew⟩
          (fun q _ => h.ne_length q) hphase hp).bind fun fd s' hinv => ?_
        exact .pure ⟨hinv, fun _ => trivial, fun _ => nofun⟩
  | filesize fd =>
    refine h.withFile (fun _ => .pure ⟨h, fun _ => trivial, fun _ => nofun⟩)
      fun file f _ hf => ?_
    refine Ensures.bind (h.sound.fileLength hf).inside ?_
    rintro size - ⟨fs', rfl, rfl⟩
    exact .pure ⟨h, fun _ => trivial, fun _ => nofun⟩
  | read fd memory buffer size =>
    refine .ite (fun hfd => h.exit_iff hphase _ (iff_of_eq (if_pos (.inl hfd)))) fun hfd => ?_
    refine .ite (fun hsafe => ?_) fun hsafe =>
      h.exit_iff hphase _ (iff_of_eq (if_pos (.inr hsafe)))
    have hharmless := iff_of_eq (if_neg (not_or.mpr ⟨hfd, not_not.mpr hsafe⟩) :
      SystemCall.Harmless s p (.read fd memory buffer size) = _)
    refine .ite (fun hzero => .pure ⟨h, fun _ => hharmless.mpr (.inl hzero), fun _ => nofun⟩)
      fun hzero => ?_
    refine h.withFile (fun hmissing => .pure ⟨h, fun _ => hharmless.mpr (.inr ?_), fun _ => nofun⟩)
      fun file f hfile hf => ?_
    · intro file _ _ hfile
      cases hmissing.symm.trans hfile
    refine h.transfer hf (h.sound.fileRead hf _) (hharmless.trans
      ⟨fun hok bytes fs' => hok.resolve_left hzero file bytes fs' hfile, fun hall => .inr ?_⟩)
    intro file' bytes fs' hfile'
    cases hfile.symm.trans hfile'
    exact hall bytes fs'
  | write fd memory buffer size =>
    refine .ite (fun hfd => h.exit_iff hphase _ (iff_of_eq (if_pos (.inl hfd)))) fun hfd => ?_
    refine .ite (fun hsafe => ?_) fun hsafe =>
      h.exit_iff hphase _ (iff_of_eq (if_pos (.inr hsafe)))
    have hharmless := iff_of_eq (if_neg (not_or.mpr ⟨hfd, not_not.mpr hsafe⟩) :
      SystemCall.Harmless s p (.write fd memory buffer size) = _)
    refine .ite (fun hone => ?_) fun hone => ?_
    · have hharmless := hharmless.trans (iff_of_eq (if_pos hone))
      exact .ite (fun hall => .pure ⟨h, fun _ => hharmless.mpr hall, fun _ => nofun⟩)
        fun hall => .stop (mt hharmless.mp hall)
    have hharmless := hharmless.trans (iff_of_eq (if_neg hone))
    refine h.withFile (fun hmissing => h.exit_iff hphase _
      ⟨fun hok => (hharmless.mp hok).1 hmissing,
        fun hlisted => hharmless.mpr ⟨fun _ => hlisted, ?_⟩⟩) fun file f hfile hf => ?_
    · intro file _ _ hfile
      cases hmissing.symm.trans hfile
    refine h.transfer hf (h.sound.fileWrite hf _ _) (hharmless.trans
      ⟨fun hok written fs' => hok.2 file written fs' hfile, fun hall => ⟨fun hmissing => ?_, ?_⟩⟩)
    · cases hmissing.symm.trans hfile
    intro file' written fs' hfile'
    cases hfile.symm.trans hfile'
    exact hall written fs'
  | seek fd position =>
    refine h.withFile (fun hmissing => .pure ⟨h, fun _ => .inl hmissing, fun _ => nofun⟩)
      fun file f hfile hf => ?_
    refine Ensures.bind (h.sound.fileSeek hf fun hneg hharmless => ?_).inside ?_
    · rcases hharmless with hmissing | hsmall
      · cases hfile.symm.trans hmissing
      · exact absurd ((toInt32_neg_iff _).mp hneg) (not_le.mpr hsmall)
    · rintro - - ⟨fs', ⟨hnonneg, hsound, pos, hfiles⟩, rfl⟩
      refine .pure ⟨hset hsound (.of_setPos hf hfiles), fun _ => .inr ?_, fun _ => nofun⟩
      exact not_le.mp fun hbig => hnonneg ((toInt32_neg_iff _).mpr hbig)
  | tell fd =>
    refine h.withFile (fun _ => .pure ⟨h, fun _ => trivial, fun _ => nofun⟩)
      fun file f _ hf => ?_
    refine Ensures.bind (Filesys.Sound.fileTell hf).inside ?_
    rintro offset - ⟨fs', rfl, rfl⟩
    exact .pure ⟨h, fun _ => trivial, fun _ => nofun⟩
  | close fd =>
    refine (h.processCloseFile (fun hcareful _ => hcare hcareful) hp).bind ?_
    rintro - s' ⟨hinv, -⟩
    exact .pure ⟨hinv, fun _ => trivial, fun _ => nofun⟩
  | null i => exact .pure ⟨h, fun _ => trivial, fun _ => nofun⟩
  | badStack => exact h.exit_iff hphase _ Iff.rfl
  | unknown => exact .pure ⟨h, fun _ => trivial, fun _ => nofun⟩

/-! ## Every run -/

/-- What happens leaves the executables open. -/
def SystemEvent.Careful : SystemEvent → Prop
  | call _ c => c.Careful
  | _ => True

instance : (c : SystemCall) → Decidable c.Careful
  | .close _ => inferInstanceAs (Decidable (_ ∧ _))
  | .halt | .exit _ | .exec _ _ | .wait _ | .create _ _ | .remove _ | .open _ | .filesize _
  | .read _ _ _ _ | .write _ _ _ _ | .seek _ _ | .tell _ | .null _ | .badStack | .unknown =>
    isTrue trivial

instance : (e : SystemEvent) → Decidable e.Careful
  | .call _ c => inferInstanceAs (Decidable c.Careful)
  | .resume _ | .startProcess _ _ _ | .denyExecutable _ => isTrue trivial

/-- A step that leaves the executables open. -/
def GuardedStep (s : System) (e : SystemEvent) (s' : System) : Prop :=
  SystemStep s e s' ∧ e.Careful

/-- A call that can go on is one that has waited. -/
theorem exists_awaited (h : (SystemEvent.resume p).enabled s = true) :
    ∃ c, (s.processes p).phase = .awaitingLoad c ∨ (s.processes p).phase = .waiting c := by
  unfold SystemEvent.enabled at h
  dsimp only at h
  split at h
  · exact ⟨_, .inl ‹_›⟩
  · exact ⟨_, .inr ‹_›⟩
  · cases h

/-- **One step.** -/
theorem System.Inv.step {e : SystemEvent} {s' : System} (h : s.Inv careful blockSize)
    (hstep : SystemStep s e s') (hcare : careful → e.Careful) : s'.Inv careful blockSize := by
  obtain ⟨henabled, result, hrun⟩ := hstep
  cases e with
  | call p c =>
    have hphase : (s.processes p).phase = .running := (of_decide_eq_true henabled).1
    exact ((h.call hphase hcare).of_ok hrun).1
  | resume p =>
    exact ((h.resume (E := fun _ => True) (exists_awaited henabled)).of_ok hrun).2
  | startProcess p page good =>
    unfold SystemEvent.enabled at henabled
    unfold SystemEvent.run at hrun
    dsimp only at henabled hrun
    split at henabled
    · rename_i name line hphase
      rw [hphase] at hrun
      exact ((h.startProcess (E := fun _ => True) hphase page good fun _ _ => trivial).of_ok hrun).2
    · cases henabled
  | denyExecutable p =>
    unfold SystemEvent.enabled at henabled
    unfold SystemEvent.run at hrun
    dsimp only at henabled hrun
    split at henabled
    · rename_i name line hphase
      rw [hphase] at hrun
      exact ((h.denyExecutable (E := fun _ => True) hphase fun _ _ => trivial).of_ok hrun).2.1
    · cases henabled

end

section

variable {blockSize : UInt32} {fs : Filesys} {events : List SystemEvent} {s : System}

/-- **Writes to the executable of a process are denied**, from `start_process` until the
process exits, in every run in which no process closes the descriptor of its
executable: the inode is open and `deny_write_cnt` is at least one, so that
`inode_write_at` returns zero and changes nothing. -/
theorem executable_guarded (hprepared : fs.Prepared blockSize)
    (hrun : Run GuardedStep (.initial fs) events s) {p sector : ℕ}
    (hexec : (s.processes p).executable = some sector) :
    (∃ node, s.fs.openInodes sector = some node ∧ 1 ≤ node.denyWriteCnt)
      ∧ ∀ buffer size offset, inodeWriteAt sector buffer size offset s.fs = .ok (0, s.fs) := by
  have hinv : s.Inv True blockSize.toNat := by
    refine hrun.invariant (I := fun _ s => s.Inv True blockSize.toNat)
      (System.initial_inv hprepared.sound) ?_
    rintro - s e s' hinv ⟨hstep, hcareful⟩
    exact hinv.step hstep fun _ => hcareful
  obtain ⟨file, f, -, hf, rfl, hdenies⟩ := (hinv.ok p).guarded trivial sector hexec
  have hdeny : 0 < s.fs.denyCnt f.inode := by
    rw [hinv.sound.deny]
    exact Filesys.denierCnt_pos (List.mem_of_getElem? hf) hdenies
  refine ⟨?_, Filesys.inodeWriteAt_denied hdeny⟩
  obtain ⟨node, hnode⟩ := hinv.sound.exists_node hf
  refine ⟨node, hnode, ?_⟩
  unfold Filesys.denyCnt at hdeny
  rw [hnode] at hdeny
  exact hdeny

/-- **System calls keep the open files in order**, where none is interrupted inside the file
system. In every state that processes reach with any calls in any order: the sectors of the
device are owned; `open_cnt` of an inode is the number of its open files, with one more for the
free map, and `deny_write_cnt` the number of those that deny writes, which is no larger; and the
file under a descriptor is open, and is under no other descriptor of any process. -/
theorem systemCalls_keepFiles (hprepared : fs.Prepared blockSize)
    (hrun : Run SystemStep (.initial fs) events s) :
    s.fs.Owned blockSize.toNat
    ∧ (∀ sector, s.fs.openCnt sector = s.fs.openerCnt sector
      ∧ s.fs.denyCnt sector = s.fs.denierCnt sector ∧ s.fs.denyCnt sector ≤ s.fs.openCnt sector)
    ∧ ∀ p, ∀ entry ∈ (s.processes p).fileList, (∃ f, s.fs.files[entry.2]? = some (some f))
      ∧ ∀ q, ∀ entry' ∈ (s.processes q).fileList, entry'.2 = entry.2 → q = p ∧ entry' = entry := by
  have hinv : s.Inv False blockSize.toNat :=
    hrun.invariant (I := fun _ s => s.Inv False blockSize.toNat)
      (System.initial_inv hprepared.sound) fun _ _ _ _ hinv hstep => hinv.step hstep False.elim
  have howners : s.fs.erase.inodeSector = s.fs.inodeSector := by
    funext o
    cases o <;> simp [Filesys.inodeSector, ownerSector, Filesys.erase, Inode.erase, Option.any_map]
  refine ⟨?_, fun sector => ⟨hinv.sound.openCnt_eq sector, hinv.sound.deny sector, ?_⟩,
    fun p entry hentry => ⟨(hinv.ok p).opened entry hentry, fun q entry' hentry' hfile => ?_⟩⟩
  · obtain ⟨hsize, hused, hdisjoint, hapart, hextent⟩ := hinv.sound.inv.toOwned
    rw [howners] at hused hdisjoint hapart hextent
    exact ⟨hsize, hused, hdisjoint, hapart, hextent⟩
  · rw [hinv.sound.openCnt_eq, hinv.sound.deny]
    exact s.fs.denierCnt_le_openerCnt sector
  · obtain rfl : q = p := by
      by_contra hne
      exact hinv.apart q p hne entry' hentry' entry hentry hfile
    exact ⟨rfl, List.inj_on_of_nodup_map (hinv.ok q).nodup hentry' hentry hfile⟩

end

/-! ## A process that runs a program -/

/-- The name of a program. -/
def programName : CString := ⟨[97], nul_not_mem_a⟩

/-- The program is executed and started. -/
def programEvents : List SystemEvent :=
  [.call 0 (.exec (some programName) (.enough 0)), .startProcess 1 true true, .resume 0,
    .denyExecutable 1]

/-- The next state, computed. -/
def systemNext (s : System) (e : SystemEvent) : Option System :=
  if e.enabled s then (e.run s s).toOption.map Prod.snd else none

theorem systemStep_of_next (s : System) (e : SystemEvent) (s' : System)
    (h : systemNext s e = some s') : SystemStep s e s' := by
  unfold systemNext at h
  split at h
  · rename_i henabled
    refine ⟨henabled, ?_⟩
    cases hrun : e.run s s with
    | error e =>
      rw [hrun] at h
      cases h
    | ok pair =>
      rw [hrun] at h
      cases h
      exact ⟨pair.1, rfl⟩
  · cases h

/-- A device is formatted, files are put on it, and then events happen. -/
def computedRun (blockSize : UInt32) (disk : Disk) (ops : List FilesysOp)
    (events : List SystemEvent) : Option (Filesys × System) := do
  let result ← (filesysInit blockSize true (.boot disk fun _ => false)).toOption
  let fs ← ops.foldlM filesysNext result.2
  let s ← events.foldlM systemNext (.initial fs)
  if fs.files.all Option.isNone then pure (fs, s) else none

theorem computedRun_eq {blockSize : UInt32} {disk : Disk} {ops : List FilesysOp}
    {events : List SystemEvent} {fs : Filesys} {s : System}
    (h : computedRun blockSize disk ops events = some (fs, s)) :
    fs.Prepared blockSize ∧ Run SystemStep (.initial fs) events s := by
  obtain ⟨result, hinit, h⟩ := Option.bind_eq_some_iff.mp h
  obtain ⟨fs', hops, h⟩ := Option.bind_eq_some_iff.mp h
  obtain ⟨s', hevents, h⟩ := Option.bind_eq_some_iff.mp h
  split at h
  · rename_i hclosed
    cases h
    refine ⟨⟨disk, fun _ => false, result.2, ops, Command.eq_ok_of_toOption hinit,
      Run.of_foldlM filesysStep_of_next hops, fun file hfile => ?_⟩,
      Run.of_foldlM systemStep_of_next hevents⟩
    exact Option.isNone_iff_eq_none.mp (List.all_eq_true.mp hclosed file hfile)
  · cases h

/-- A program is put on a device of sixteen sectors, and events happen. -/
def programRun (events : List SystemEvent) : Option (Filesys × System) :=
  computedRun 16 (fun _ _ => 0)
    [.create programName 600, .open programName, .write 0 (fun _ => 1) 600, .close 0] events

theorem executable_guarded_running :
    ∃ fs s, fs.Prepared 16 ∧ Run GuardedStep (.initial fs) programEvents s
      ∧ (s.processes 1).executable = some 4
      ∧ ((∃ node, s.fs.openInodes 4 = some node ∧ 1 ≤ node.denyWriteCnt)
        ∧ ∀ buffer size offset, inodeWriteAt 4 buffer size offset s.fs = .ok (0, s.fs)) := by
  have hcomputed : (programRun programEvents).map (fun r => (r.2.processes 1).executable)
      = some (some 4) := by
    decide +kernel
  obtain ⟨⟨fs, s⟩, hrun, hexec⟩ := Option.map_eq_some_iff.mp hcomputed
  obtain ⟨hprepared, hrun⟩ := computedRun_eq hrun
  have hcareful : Run GuardedStep (.initial fs) programEvents s := hrun.of_labels (by decide)
  exact ⟨fs, s, hprepared, hcareful, hexec, executable_guarded hprepared hcareful hexec⟩

/-- **A process that closes the descriptor of its executable** can have it written to
while it runs. -/
theorem executable_writable :
    ∃ fs s, fs.Prepared 16
      ∧ Run SystemStep (.initial fs)
        (programEvents ++ [.call 1 (.close minFd), .call 1 (.open (some programName))]) s
      ∧ (s.processes 1).phase = .running ∧ (s.processes 1).executable = some 4
      ∧ s.fs.denyCnt 4 = 0 ∧ ∃ fs', inodeWriteAt 4 (fun _ => 7) 1 0 s.fs = .ok (1, fs') := by
  have hcomputed : (programRun
      (programEvents ++ [.call 1 (.close minFd), .call 1 (.open (some programName))])).map
        (fun r => ((r.2.processes 1).phase, (r.2.processes 1).executable, r.2.fs.denyCnt 4,
          (inodeWriteAt 4 (fun _ => 7) 1 0 r.2.fs).toOption.map Prod.fst))
      = some (.running, some 4, 0, some 1) := by
    decide +kernel
  obtain ⟨⟨fs, s⟩, hrun, hsummary⟩ := Option.map_eq_some_iff.mp hcomputed
  obtain ⟨hprepared, hrun⟩ := computedRun_eq hrun
  simp only [Prod.mk.injEq] at hsummary
  obtain ⟨hphase, hexec, hdeny, hwrite⟩ := hsummary
  obtain ⟨⟨written, fs'⟩, hok, rfl⟩ := Option.map_eq_some_iff.mp hwrite
  refine ⟨fs, s, hprepared, hrun, hphase, hexec, hdeny, fs', ?_⟩
  cases hresult : inodeWriteAt 4 (fun _ => 7) 1 0 s.fs with
  | error e =>
    rw [hresult] at hok
    cases hok
  | ok pair =>
    rw [hresult] at hok
    cases hok
    rfl

/-- The program runs, and writes to it are denied once. -/
theorem systemCalls_keepFiles_running :
    ∃ fs s, fs.Prepared 16 ∧ Run SystemStep (.initial fs) programEvents s ∧ s.fs.Owned 16
      ∧ s.fs.denyCnt 4 = 1 ∧ s.fs.denierCnt 4 = 1 := by
  have hcomputed : (programRun programEvents).map (fun r => r.2.fs.denyCnt 4) = some 1 := by
    decide +kernel
  obtain ⟨⟨fs, s⟩, hrun, hdeny⟩ := Option.map_eq_some_iff.mp hcomputed
  obtain ⟨hprepared, hrun⟩ := computedRun_eq hrun
  obtain ⟨howned, hcounts, -⟩ := systemCalls_keepFiles hprepared hrun
  exact ⟨fs, s, hprepared, hrun, howned, hdeny, (hcounts 4).2.1.symm.trans hdeny⟩

end Pintos
