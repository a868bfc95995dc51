import Cs162.WriteDenial

/-!
# The file system with denied writes

A state is sound (`Filesys.Sound`) if it meets the invariant of the file system
when the denials are left out, and `deny_write_cnt` of every inode counts the
open files that deny writes to it. Every operation leads from a sound state to a
sound one. The assertions of `inode_deny_write` and `inode_allow_write` hold,
because the files that deny writes to an inode are among its openers.
-/

namespace Pintos

open Command (Ensures Mirrors)

namespace Filesys

variable {blockSize i sector : ℕ} {fs fs' : Filesys} {f g : File} {E : FilesysPanic → Prop}

/-- The open files that deny writes to an inode. -/
def denierCnt (fs : Filesys) (sector : ℕ) : ℕ :=
  fs.files.countP fun file => file.any fun f => f.denyWrite && f.inode == sector

theorem denierCnt_congr (h : fs'.files = fs.files) : fs'.denierCnt = fs.denierCnt := by
  unfold denierCnt
  rw [h]

theorem denierCnt_pos (h : some f ∈ fs.files) (hdeny : f.denyWrite = true) :
    0 < fs.denierCnt f.inode :=
  List.countP_pos_iff.mpr ⟨_, h, by simp [hdeny]⟩

/-- Whoever denies writes is an opener. -/
theorem denierCnt_le_openerCnt (fs : Filesys) (sector : ℕ) :
    fs.denierCnt sector ≤ fs.openerCnt sector := by
  refine (List.countP_mono_left fun file _ hfile => ?_).trans (Nat.le_add_right _ _)
  cases file with
  | none => cases hfile
  | some f => exact (Bool.and_eq_true_iff.mp hfile).2

theorem denierCnt_eq_zero (h : ∀ f, some f ∈ fs.files → f.inode ≠ sector) :
    fs.denierCnt sector = 0 := by
  refine List.countP_eq_zero.mpr fun file hfile => ?_
  cases file with
  | none => exact Bool.false_ne_true
  | some f => simp [h f hfile]

theorem denierCnt_setFiles_set (h : fs.files[i]? = some (some f)) (file : Option File) :
    (fs.setFiles (fs.files.set i file)).denierCnt sector
      = fs.denierCnt sector - (if f.denyWrite && f.inode == sector then 1 else 0)
        + if file.any fun g => g.denyWrite && g.inode == sector then 1 else 0 := by
  obtain ⟨hi, hf⟩ := List.getElem?_eq_some_iff.mp h
  unfold denierCnt setFiles
  dsimp only
  rw [List.countP_set hi, hf]
  rfl

theorem denierCnt_setFiles_pos (h : fs.files[i]? = some (some f))
    (hdeny : g.denyWrite = f.denyWrite) (hinode : g.inode = f.inode) :
    (fs.setFiles (fs.files.set i (some g))).denierCnt = fs.denierCnt := by
  funext sector
  rw [denierCnt_setFiles_set h, Option.any_some, hdeny, hinode]
  split
  · rename_i hdenier
    obtain ⟨hdenies, hsector⟩ := Bool.and_eq_true_iff.mp hdenier
    have hpos := denierCnt_pos (List.mem_of_getElem? h) hdenies
    rw [beq_iff_eq.mp hsector] at hpos
    exact Nat.sub_add_cancel hpos
  · rfl

/-! ## Leaving the denials out -/

theorem openerCnt_erase (fs : Filesys) : fs.erase.openerCnt = fs.openerCnt := by
  funext sector
  unfold openerCnt erase
  dsimp only
  rw [List.countP_map]
  congr 2
  funext file
  cases file <;> rfl

theorem files_erase (h : fs.files[i]? = some (some f)) :
    fs.erase.files[i]? = some (some f.erase) := by
  unfold erase
  dsimp only
  rw [List.getElem?_map, h]
  rfl

theorem mem_files_erase (h : some f ∈ fs.files) : some f.erase ∈ fs.erase.files :=
  List.mem_map.mpr ⟨_, h, rfl⟩

theorem exists_of_mem_files_erase (h : some g ∈ fs.erase.files) :
    ∃ f, some f ∈ fs.files ∧ f.erase = g := by
  obtain ⟨file, hfile, herase⟩ := List.mem_map.mp h
  obtain ⟨f, rfl, hf⟩ := Option.map_eq_some_iff.mp herase
  exact ⟨f, hfile, hf⟩

theorem erase_setFiles_set (fs : Filesys) (i : ℕ) (file : Option File) :
    (fs.setFiles (fs.files.set i file)).erase
      = fs.erase.setFiles (fs.erase.files.set i (file.map File.erase)) :=
  congrArg fs.erase.setFiles List.map_set

/-- A denial more or less in an inode. -/
theorem erase_setInode_deny {node : Inode} (h : fs.openInodes sector = some node) (cnt : ℕ) :
    (fs.setInode sector (some { node with denyWriteCnt := cnt })).erase = fs.erase := by
  have hself : fs.erase.openInodes sector = some node.erase := openInodes_erase h
  rw [erase_setInode]
  show fs.erase.setInode sector (some node.erase) = fs.erase
  unfold setInode
  rw [← hself, Function.update_eq_self]

/-- A file that begins to deny writes. -/
theorem erase_setFiles_deny (h : fs.files[i]? = some (some f)) :
    (fs.setFiles (fs.files.set i (some { f with denyWrite := true }))).erase = fs.erase := by
  obtain ⟨hi, hf⟩ := List.getElem?_eq_some_iff.mp (files_erase h)
  rw [erase_setFiles_set]
  show fs.erase.setFiles (fs.erase.files.set i (some f.erase)) = fs.erase
  rw [← hf, List.set_getElem_self]
  rfl

/-- **A write to an inode with denials** does nothing. -/
theorem inodeWriteAt_denied (h : 0 < fs.denyCnt sector) (buffer : ℕ → UInt8) (size : ℤ)
    (offset : ℕ) : inodeWriteAt sector buffer size offset fs = .ok (0, fs) := by
  unfold denyCnt at h
  cases hnode : fs.openInodes sector with
  | none =>
    rw [hnode] at h
    cases h
  | some node =>
    rw [hnode] at h
    have hdenied : node.denyWriteCnt ≠ 0 := Nat.ne_of_gt h
    unfold inodeWriteAt
    rw [Command.bind_apply (inodeOf_eq hnode), if_pos hdenied]
    rfl

/-- A command that looks at a file first. -/
theorem mirrors_fileOf_bind {β : Type} {k k' : File → FilesysM β} {K : β → Filesys → Prop}
    (hf : fs.files[i]? = some (some f)) (h : Mirrors erase fs (k f) (k' f.erase) K) :
    Mirrors erase fs (fileOf i >>= k) (fileOf i >>= k') K := by
  unfold Mirrors at h ⊢
  rw [Command.bind_apply (Inv.fileOf_eq hf), Command.bind_apply (Inv.fileOf_eq (files_erase hf))]
  exact h

/-! ## Sound states -/

/-- **A sound state.** No file is the free map. -/
structure Sound (blockSize : ℕ) (fs : Filesys) : Prop where
  inv : fs.erase.Inv blockSize ∅ fs.erase.openerCnt
  deny : ∀ sector, fs.denyCnt sector = fs.denierCnt sector
  files : ∀ f, some f ∈ fs.files → f.inode ≠ freeMapSector

namespace Sound

theorem ne_rootDirSector (h : fs.Sound blockSize) (hf : some f ∈ fs.files) :
    f.inode ≠ rootDirSector :=
  (h.inv.allowed f.erase (mem_files_erase hf)).2.1

theorem openCnt_eq (h : fs.Sound blockSize) (sector : ℕ) :
    fs.openCnt sector = fs.openerCnt sector := by
  rw [← openerCnt_erase, ← h.inv.count sector]
  show _ = ((fs.openInodes sector).map Inode.erase).elim 0 Inode.openCnt
  unfold openCnt
  cases fs.openInodes sector <;> rfl

theorem exists_node (h : fs.Sound blockSize) (hf : fs.files[i]? = some (some f)) :
    ∃ node, fs.openInodes f.inode = some node := by
  have hpos : 0 < fs.openCnt f.inode := by
    rw [h.openCnt_eq]
    exact (Nat.zero_le _).trans_lt (openerCnt_pos hf)
  unfold openCnt at hpos
  cases hnode : fs.openInodes f.inode with
  | none =>
    rw [hnode] at hpos
    cases hpos
  | some node => exact ⟨node, rfl⟩

theorem steady (h : fs.Sound blockSize) : fs.Steady fs.denierCnt fun _ => 0 where
  deny := h.deny
  held sector hpos := by
    rw [h.openCnt_eq]
    exact hpos.trans_le (fs.denierCnt_le_openerCnt sector)
  root := denierCnt_eq_zero fun _ hf => h.ne_rootDirSector hf
  map := denierCnt_eq_zero h.files
  mapFile file hfile := by
    obtain ⟨file', hmap, hinode⟩ := h.inv.mapFile
    rw [show fs.freeMapFile = some file' from hmap] at hfile
    cases hfile
    exact hinode

/-- An operation that opens and closes no file. -/
theorem settle (h : fs.Sound blockSize) {extra : ℕ → ℕ}
    (hinv : fs'.erase.Inv blockSize ∅ fs'.erase.openerCnt)
    (hkept : Kept fs.denierCnt extra fs fs') : fs'.Sound blockSize where
  inv := hinv
  deny sector := by
    rw [denierCnt_congr hkept.2]
    exact hkept.1.deny sector
  files := by
    rw [hkept.2]
    exact h.files

theorem setPos (h : fs.Sound blockSize) (hf : fs.files[i]? = some (some f)) (pos : ℕ) :
    (fs.setFiles (fs.files.set i (some { f with pos := pos }))).Sound blockSize where
  inv := by
    rw [erase_setFiles_set]
    exact h.inv.setPos (files_erase hf) pos
  deny sector := by
    rw [denierCnt_setFiles_pos hf (g := { f with pos := pos }) rfl rfl]
    exact h.deny sector
  files g hg := by
    rcases List.mem_or_eq_of_mem_set hg with hmem | heq
    · exact h.files g hmem
    · cases heq
      exact h.files f (List.mem_of_getElem? hf)

/-! ## The operations by name -/

theorem filesysCreate (h : fs.Sound blockSize) (name : CString) {initialSize : Int32}
    (hpanic : initialSize < 0 → bitmapScan fs.freeMap 0 1 false ≠ none → E .assertLength) :
    Ensures E fs (filesysCreate name initialSize) fun _ fs' =>
      (0 ≤ initialSize.toInt ∨ bitmapScan fs.freeMap 0 1 false = none)
        ∧ fs'.Sound blockSize ∧ fs'.files = fs.files :=
  ((mirrors_filesysCreate h.steady name initialSize).ensures
    (h.inv.filesysCreate name hpanic)).mono
    fun _ _ ⟨⟨hsize, hinv, _⟩, hkept⟩ => ⟨hsize, h.settle hinv hkept, hkept.2⟩

theorem filesysRemove (h : fs.Sound blockSize) (name : CString) :
    Ensures E fs (filesysRemove name) fun _ fs' =>
      fs'.Sound blockSize ∧ fs'.files = fs.files :=
  ((mirrors_filesysRemove h.steady name).ensures (h.inv.filesysRemove name)).mono
    fun _ _ ⟨⟨hinv, _⟩, hkept⟩ => ⟨h.settle hinv hkept, hkept.2⟩

theorem filesysOpen (h : fs.Sound blockSize) (name : CString) :
    Ensures E fs (filesysOpen name) fun file fs' =>
      (file = none ↔ fs.findEntry name = none) ∧ fs'.Sound blockSize ∧
      match file with
      | none => fs'.files = fs.files
      | some file => file = fs.files.length
        ∧ ∃ inode, fs'.files = fs.files ++ [some ⟨inode, 0, false⟩] := by
  refine ((mirrors_filesysOpen h.steady name).ensures (h.inv.filesysOpen name)).mono ?_
  rintro file fs' ⟨⟨hfound, hinv, -, -, hnew⟩, hopened⟩
  refine ⟨hfound, ?_⟩
  cases file with
  | none => exact ⟨h.settle hinv hopened, hopened.2⟩
  | some file =>
    obtain ⟨hfile, inode, hsteady, hfiles⟩ := hopened
    refine ⟨⟨hinv, fun sector => ?_, fun g hg => ?_⟩, hfile, inode, hfiles⟩
    · rw [hsteady.deny]
      unfold denierCnt
      rw [hfiles, List.countP_append]
      rfl
    · rcases hnew _ (mem_files_erase hg) with hmem | hne
      · obtain ⟨f, hf, herase⟩ := exists_of_mem_files_erase hmem
        have hinode : f.erase.inode = g.erase.inode := congrArg File.inode herase
        change f.inode = g.inode at hinode
        rw [← hinode]
        exact h.files f hf
      · exact hne

/-! ## The operations on a file -/

theorem fileRead (h : fs.Sound blockSize) (hf : fs.files[i]? = some (some f)) (size : Int32) :
    Ensures E fs (fileRead i size) fun _ fs' => fs'.Sound blockSize
      ∧ ∃ pos, fs'.files = fs.files.set i (some { f with pos := pos }) := by
  obtain ⟨node, hnode⟩ := h.exists_node hf
  unfold Pintos.fileRead
  exact .bind_ok (Inv.fileOf_eq hf)
    (.bind_ok (inodeReadAt_eq hnode) (.modify_bind (.pure ⟨h.setPos hf _, _, rfl⟩)))

theorem inodeWriteAt (h : fs.Sound blockSize) (hf : fs.files[i]? = some (some f))
    (buffer : ℕ → UInt8) (size : ℤ) (offset : ℕ) :
    Ensures E fs (inodeWriteAt f.inode buffer size offset) fun _ fs' =>
      fs'.Sound blockSize ∧ fs'.files = fs.files := by
  rcases Nat.eq_zero_or_pos (fs.denierCnt f.inode) with hzero | hpos
  · have hne : f.inode ≠ rootDirSector := h.ne_rootDirSector (List.mem_of_getElem? hf)
    obtain ⟨disk, hwrite, -, hinv⟩ := h.inv.inodeWriteAt buffer size offset
      ((Nat.zero_le _).trans_lt (openerCnt_pos (files_erase hf))) hne
      (h.files f (List.mem_of_getElem? hf))
    have hensures : Ensures E fs.erase (Pintos.inodeWriteAt f.inode buffer size offset)
        fun _ fs' => fs'.Inv blockSize ∅ fs.erase.openerCnt := .ok hwrite hinv
    refine ((mirrors_inodeWriteAt h.steady hzero buffer size offset).ensures hensures).mono ?_
    rintro - fs' ⟨hinv, hkept⟩
    have hfiles : fs'.erase.openerCnt = fs.erase.openerCnt := by
      rw [openerCnt_erase, openerCnt_erase, openerCnt_congr hkept.2]
    exact ⟨h.settle (by rw [hfiles]; exact hinv) hkept, hkept.2⟩
  · rw [← h.deny] at hpos
    exact .ok (inodeWriteAt_denied hpos buffer size offset) ⟨h, rfl⟩

theorem fileWrite (h : fs.Sound blockSize) (hf : fs.files[i]? = some (some f))
    (buffer : ℕ → UInt8) (size : Int32) :
    Ensures E fs (fileWrite i buffer size) fun _ fs' => fs'.Sound blockSize
      ∧ ∃ pos, fs'.files = fs.files.set i (some { f with pos := pos }) := by
  unfold Pintos.fileWrite
  refine .bind_ok (Inv.fileOf_eq hf) ((h.inodeWriteAt hf buffer size.toInt f.pos).bind ?_)
  rintro written fs₁ ⟨hsound, hfiles⟩
  rw [← hfiles] at hf ⊢
  exact .modify_bind (.pure ⟨hsound.setPos hf _, _, rfl⟩)

theorem fileSeek (h : fs.Sound blockSize) (hf : fs.files[i]? = some (some f)) {newPos : Int32}
    (hpanic : newPos < 0 → E .assertSeek) :
    Ensures E fs (fileSeek i newPos) fun _ fs' => ¬ newPos < 0 ∧ fs'.Sound blockSize
      ∧ ∃ pos, fs'.files = fs.files.set i (some { f with pos := pos }) := by
  unfold Pintos.fileSeek
  refine .bind_ok (Inv.fileOf_eq hf) (.ite (fun hneg => .stop (hpanic hneg)) fun hneg => ?_)
  exact .modify ⟨hneg, h.setPos hf _, _, rfl⟩

theorem fileLength (h : fs.Sound blockSize) (hf : fs.files[i]? = some (some f)) :
    Ensures E fs (fileLength i) fun _ fs' => fs' = fs := by
  obtain ⟨node, hnode⟩ := h.exists_node hf
  unfold Pintos.fileLength inodeLength
  exact .bind_ok (Inv.fileOf_eq hf) (.bind_ok (inodeOf_eq hnode) (.pure rfl))

theorem fileTell (hf : fs.files[i]? = some (some f)) :
    Ensures E fs (fileTell i) fun _ fs' => fs' = fs :=
  .bind_ok (Inv.fileOf_eq hf) (.pure rfl)

/-! ## Denying and allowing -/

theorem denierCnt_others (hf : fs.files[i]? = some (some f)) (sector : ℕ) :
    fs.denierCnt sector = (fs.setFiles (fs.files.set i none)).denierCnt sector
      + if f.denyWrite && f.inode == sector then 1 else 0 := by
  rw [denierCnt_setFiles_set hf]
  split
  · rename_i hdenier
    obtain ⟨hdenies, hsector⟩ := Bool.and_eq_true_iff.mp hdenier
    have hpos := denierCnt_pos (List.mem_of_getElem? hf) hdenies
    rw [beq_iff_eq.mp hsector] at hpos
    exact (Nat.sub_add_cancel hpos).symm
  · rfl

theorem openerCnt_others (hf : fs.files[i]? = some (some f)) (sector : ℕ) :
    fs.openerCnt sector = (fs.setFiles (fs.files.set i none)).openerCnt sector
      + if sector = f.inode then 1 else 0 := by
  have hpos := openerCnt_pos hf
  rw [openerCnt_setFiles_none hf, Function.update_apply]
  split
  · rename_i heq
    rw [heq]
    omega
  · rfl

/-- **A file denies writes.** It is an opener that has not denied them before. -/
theorem fileDenyWrite (h : fs.Sound blockSize) (hf : fs.files[i]? = some (some f))
    (hallow : f.denyWrite = false) : Ensures E fs (fileDenyWrite i) fun _ fs' => fs'.Sound blockSize
      ∧ fs'.files = fs.files.set i (some { f with denyWrite := true }) := by
  obtain ⟨node, hnode⟩ := h.exists_node hf
  let fs₁ : Filesys := fs.setFiles (fs.files.set i (some { f with denyWrite := true }))
  have hnode₁ : fs₁.openInodes f.inode = some node := hnode
  have hdeny : node.denyWriteCnt = fs.denierCnt f.inode := by
    rw [← h.deny]
    unfold denyCnt
    rw [hnode]
    rfl
  have hroom : node.denyWriteCnt + 1 ≤ node.openCnt := by
    have hopen : node.openCnt = fs.openerCnt f.inode := by
      rw [← h.openCnt_eq]
      unfold openCnt
      rw [hnode]
      rfl
    have hle := (fs.setFiles (fs.files.set i none)).denierCnt_le_openerCnt f.inode
    rw [hdeny, hopen, denierCnt_others hf, openerCnt_others hf, hallow, if_pos rfl]
    exact Nat.succ_le_succ hle
  unfold Pintos.fileDenyWrite
  refine .bind_ok (Inv.fileOf_eq hf) ?_
  rw [hallow, if_neg Bool.false_ne_true]
  refine .modify_bind (.bind_ok (inodeOf_eq hnode₁) ?_)
  rw [if_pos hroom]
  refine .modify ⟨⟨?_, fun sector => ?_, fun g hg => ?_⟩, rfl⟩
  · have herase : (fs₁.setInode f.inode
        (some { node with denyWriteCnt := node.denyWriteCnt + 1 })).erase = fs.erase :=
      (erase_setInode_deny hnode₁ _).trans (erase_setFiles_deny hf)
    change Inv _ _ (fs₁.setInode _ _).erase.openerCnt (fs₁.setInode _ _).erase
    rw [herase]
    exact h.inv
  · have hcnt : _ = fs.denierCnt sector - _ + _ :=
      denierCnt_setFiles_set hf (some { f with denyWrite := true })
    rw [hallow] at hcnt
    refine (denyCnt_setInode fs₁ _ _ sector).trans (Eq.trans ?_ hcnt.symm)
    rw [Option.any_some]
    split
    · rename_i heq
      subst heq
      rw [← hdeny]
      simp
    · rename_i hne
      have hbeq : (f.inode == sector) = false := beq_eq_false_iff_ne.mpr (Ne.symm hne)
      simp only [hbeq]
      exact h.deny sector
  · rcases List.mem_or_eq_of_mem_set hg with hmem | heq
    · exact h.files g hmem
    · cases heq
      exact h.files f (List.mem_of_getElem? hf)

/-- The counts when a file is about to be closed and its denial is gone. -/
theorem steady_closing (h : fs.Sound blockSize) (hf : fs.files[i]? = some (some f))
    (hdeny : ∀ sector, fs'.denyCnt sector
      = (fs.setFiles (fs.files.set i none)).denierCnt sector)
    (hopen : ∀ sector, fs'.openCnt sector = fs.openCnt sector)
    (hmap : fs'.freeMapFile = fs.freeMapFile) :
    fs'.Steady (fs.setFiles (fs.files.set i none)).denierCnt (bump (fun _ => 0) f.inode) where
  deny := hdeny
  held sector hpos := by
    have hle := (fs.setFiles (fs.files.set i none)).denierCnt_le_openerCnt sector
    rw [hopen, h.openCnt_eq, openerCnt_others hf]
    unfold bump
    rw [Function.update_apply]
    dsimp only
    split <;> omega
  root := by
    have hroot := h.steady.root
    rw [denierCnt_others hf] at hroot
    omega
  map := by
    have hmap := h.steady.map
    rw [denierCnt_others hf] at hmap
    omega
  mapFile file hfile := h.steady.mapFile file (hmap ▸ hfile)

/-- **The denial of a file is taken back**: the assertions hold. -/
theorem mirrors_fileAllowWrite (h : fs.Sound blockSize) (hf : fs.files[i]? = some (some f)) :
    Mirrors erase fs (fileAllowWrite f) (fileAllowWrite f.erase) fun _ fs' =>
      Kept (fs.setFiles (fs.files.set i none)).denierCnt (bump (fun _ => 0) f.inode) fs fs' := by
  have hothers := denierCnt_others hf
  unfold fileAllowWrite
  cases hdenies : f.denyWrite with
  | false =>
    rw [hdenies] at hothers
    refine .pure ⟨h.steady_closing hf (fun sector => ?_) (fun _ => rfl) rfl, rfl⟩
    rw [h.deny, hothers]
    rfl
  | true =>
    rw [hdenies] at hothers
    obtain ⟨node, hnode⟩ := h.exists_node hf
    have hdeny := h.deny f.inode
    have hopen := h.openCnt_eq f.inode
    unfold denyCnt at hdeny
    unfold openCnt at hopen
    rw [hnode] at hdeny hopen
    change node.denyWriteCnt = _ at hdeny
    change node.openCnt = _ at hopen
    have hpos := denierCnt_pos (List.mem_of_getElem? hf) hdenies
    have hle := fs.denierCnt_le_openerCnt f.inode
    have hallow : inodeAllowWrite f.inode fs = .ok ((), fs.setInode f.inode
        (some { node with denyWriteCnt := node.denyWriteCnt - 1 })) := by
      unfold inodeAllowWrite
      rw [Command.bind_apply (inodeOf_eq hnode), if_pos (by omega)]
      rfl
    refine .ok hallow ?_ ⟨h.steady_closing hf (fun sector => ?_) (fun sector => ?_) rfl, rfl⟩
    · rw [erase_setInode_deny hnode]
      rfl
    · rw [denyCnt_setInode]
      split
      · rename_i heq
        have hself := hothers f.inode
        rw [beq_self_eq_true, Bool.true_and, if_pos rfl] at hself
        rw [heq]
        show node.denyWriteCnt - 1 = _
        omega
      · rename_i hne
        have hbeq : (f.inode == sector) = false := beq_eq_false_iff_ne.mpr (Ne.symm hne)
        rw [h.deny, hothers, hbeq]
        rfl
    · rw [openCnt_setInode]
      split
      · rename_i heq
        rw [heq]
        unfold openCnt
        rw [hnode]
        rfl
      · rfl

/-- **A file is closed.** -/
theorem fileClose (h : fs.Sound blockSize) (hf : fs.files[i]? = some (some f)) :
    Ensures E fs (fileClose i) fun _ fs' => fs'.Sound blockSize
      ∧ fs'.files = fs.files.set i none := by
  have hmirror : Mirrors erase fs (Pintos.fileClose i) (Pintos.fileClose i) fun _ fs' =>
      (∀ sector, fs'.denyCnt sector = (fs.setFiles (fs.files.set i none)).denierCnt sector)
        ∧ fs'.files = fs.files.set i none := by
    refine mirrors_fileOf_bind hf ?_
    have hclose := (h.mirrors_fileAllowWrite hf).bind fun _ fs₁ hkept₁ =>
      (mirrors_inodeClose hkept₁.1).mono fun _ fs₂ hkept₂ => hkept₁.trans hkept₂
    refine Mirrors.bind hclose fun _ fs₂ hkept => .modify ?_ ⟨hkept.1.deny, ?_⟩
    · exact (erase_setFiles_set fs₂ i none).symm
    · exact congrArg (List.set · i none) hkept.2
  refine (hmirror.ensures (h.inv.fileClose (files_erase hf))).mono ?_
  rintro - fs' ⟨⟨hinv, -⟩, hdeny, hfiles⟩
  refine ⟨⟨hinv, fun sector => ?_, fun g hg => ?_⟩, hfiles⟩
  · rw [hdeny]
    exact congrFun (denierCnt_congr hfiles).symm sector
  · rw [hfiles] at hg
    rcases List.mem_or_eq_of_mem_set hg with hmem | heq
    · exact h.files g hmem
    · cases heq

end Sound

end Filesys

end Pintos
