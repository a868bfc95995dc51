import Cs162.FilesysFormat
import Cs162.Run

/-!
# Runs of the file system

Between operations nothing is reserved, and the openers of an inode are the open
files that point to it, and the free map file. Every operation leads from such a
state to another, so from a freshly formatted disk on the sectors of the files never
overlap and are all marked used. The sectors of a removed file are released when its
last opener closes it, and the assertion in `free_map_release` holds.
-/

namespace Pintos

open Command (Ensures)
open Transition (Run)

namespace Filesys

variable {blockSize : ℕ} {reserved : Set ℕ} {openers : ℕ → ℕ} {fs fs' : Filesys} {sector : ℕ}
  {E : FilesysPanic → Prop}

/-- The openers of an inode between operations. -/
def openerCnt (fs : Filesys) (sector : ℕ) : ℕ :=
  fs.files.countP (fun file => file.any fun f => f.inode == sector)
    + if sector = freeMapSector then 1 else 0

/-- The files after a change of them. -/
def setFiles (fs : Filesys) (files : List (Option File)) : Filesys := { fs with files := files }

theorem openerCnt_congr (h : fs'.files = fs.files) : fs'.openerCnt = fs.openerCnt := by
  unfold openerCnt
  rw [h]

section

variable {i : ℕ} {f : File}

theorem openerCnt_of_files_nil (h : fs.files = []) :
    fs.openerCnt = fun sector => if sector = freeMapSector then 1 else 0 := by
  funext sector
  unfold openerCnt
  rw [h, List.countP_nil, Nat.zero_add]

theorem openerCnt_pos (h : fs.files[i]? = some (some f)) :
    (if f.inode = freeMapSector then 1 else 0) < fs.openerCnt f.inode := by
  have hmem : some f ∈ fs.files := List.mem_of_getElem? h
  have hcount : 0 < fs.files.countP (fun file => file.any fun g => g.inode == f.inode) :=
    List.countP_pos_iff.mpr ⟨_, hmem, by simp⟩
  unfold openerCnt
  omega

theorem openerCnt_setFiles_set (h : fs.files[i]? = some (some f)) (file : Option File) :
    (fs.setFiles (fs.files.set i file)).openerCnt sector
      = fs.openerCnt sector - (if f.inode = sector then 1 else 0)
        + if file.any fun g => g.inode == sector then 1 else 0 := by
  obtain ⟨hi, hf⟩ := List.getElem?_eq_some_iff.mp h
  have hpos : (if f.inode = sector then 1 else 0)
      ≤ fs.files.countP (fun file => file.any fun g => g.inode == sector) := by
    split
    · exact List.countP_pos_iff.mpr ⟨_, List.mem_of_getElem? h, by simpa⟩
    · exact Nat.zero_le _
  unfold openerCnt Filesys.setFiles
  dsimp only
  rw [List.countP_set hi, hf]
  simp only [Option.any_some, beq_iff_eq]
  omega

theorem openerCnt_setFiles_pos (h : fs.files[i]? = some (some f)) {g : File}
    (hg : g.inode = f.inode) :
    (fs.setFiles (fs.files.set i (some g))).openerCnt = fs.openerCnt := by
  funext sector
  have hpos := openerCnt_pos h
  rw [openerCnt_setFiles_set h, Option.any_some, hg]
  by_cases hs : f.inode = sector
  · subst hs
    simp only [beq_self_eq_true, if_true]
    omega
  · rw [if_neg hs, if_neg (by simpa using hs)]
    rfl

theorem openerCnt_setFiles_none (h : fs.files[i]? = some (some f)) :
    (fs.setFiles (fs.files.set i none)).openerCnt
      = Function.update fs.openerCnt f.inode (fs.openerCnt f.inode - 1) := by
  funext sector
  rw [openerCnt_setFiles_set h, Function.update_apply]
  by_cases hs : f.inode = sector
  · subst hs
    rw [if_pos rfl, if_pos rfl]
    rfl
  · rw [if_neg hs, if_neg (Ne.symm hs)]
    rfl

theorem openerCnt_setFiles_append : (fs.setFiles (fs.files ++ [some f])).openerCnt
      = Function.update fs.openerCnt f.inode (fs.openerCnt f.inode + 1) := by
  funext sector
  rw [Function.update_apply]
  unfold openerCnt Filesys.setFiles
  dsimp only
  rw [List.countP_append, List.countP_singleton, Option.any_some]
  by_cases hs : sector = f.inode
  · subst hs
    rw [if_pos rfl, if_pos (beq_self_eq_true _)]
    omega
  · rw [if_neg hs, if_neg (by simpa using Ne.symm hs)]
    omega

end

namespace Inv

theorem setFiles (h : fs.Inv blockSize reserved openers) {files : List (Option File)}
    (hallowed : ∀ file, some file ∈ files → file.denyWrite = false
      ∧ file.inode ≠ rootDirSector ∧ file.inode ≠ freeMapSector) :
    (fs.setFiles files).Inv blockSize reserved openers :=
  { h with allowed := hallowed }

/-- An operation that opens and closes no file. -/
theorem settle (h : fs'.Inv blockSize reserved fs.openerCnt) (hfiles : fs'.files = fs.files) :
    fs'.Inv blockSize reserved fs'.openerCnt := by
  rw [openerCnt_congr hfiles]
  exact h

/-! ## The root directory around an operation -/

theorem dirOpenRoot (h : fs.Inv blockSize reserved openers) :
    Ensures E fs dirOpenRoot fun dir fs' =>
      dir = rootDirSector ∧ ∃ node, fs' = fs.setInode rootDirSector node ∧ Frame fs fs'
        ∧ fs'.Inv blockSize reserved
          (Function.update openers rootDirSector (openers rootDirSector + 1)) :=
  h.inodeOpen ⟨.rootDir, rfl⟩

/-- The root directory is never removed. -/
theorem dirClose {openers' : ℕ → ℕ} (h : fs.Inv blockSize reserved openers') (openers : ℕ → ℕ)
    (hopeners : openers'
      = Function.update openers rootDirSector (openers rootDirSector + 1)) :
    Ensures E fs (dirClose rootDirSector) fun _ fs' =>
      fs'.Inv blockSize reserved openers ∧ Frame fs fs'
        ∧ ∃ node, fs' = fs.setInode rootDirSector node := by
  subst hopeners
  unfold Pintos.dirClose
  refine (h.inodeClose (by rw [Function.update_self]; exact Nat.succ_pos _)
    fun heq => absurd heq (by decide)).mono ?_
  rintro - fs' ⟨hinv, -, hclosed⟩
  rw [Function.update_self, Function.update_idem, Nat.add_sub_cancel, Function.update_eq_self]
    at hinv
  rcases hclosed with ⟨⟨-, hremoved⟩, -⟩ | ⟨-, hframe, hnode⟩
  · have hroot : fs.inodeSector .rootDir = some rootDirSector := rfl
    rw [h.not_removed hroot nofun] at hremoved
    cases hremoved
  · exact ⟨hinv, hframe, hnode⟩

end Inv

end Filesys

/-! ## What an operation does -/

namespace FilesysOp

/-- An operation on a file is given one that is open. -/
def Valid (fs : Filesys) : FilesysOp → Prop
  | read file _ => ∃ f, fs.files[file]? = some (some f)
  | write file _ _ => ∃ f, fs.files[file]? = some (some f)
  | close file => ∃ f, fs.files[file]? = some (some f)
  | _ => True

instance (fs : Filesys) (file : ℕ) : Decidable (∃ f, fs.files[file]? = some (some f)) :=
  decidable_of_iff (fs.files[file]?.join.isSome = true) <| by
    rw [Option.isSome_iff_exists]
    exact exists_congr fun f => Option.join_eq_some_iff

instance (fs : Filesys) : (op : FilesysOp) → Decidable (op.Valid fs)
  | create _ _ => isTrue trivial
  | .open _ => isTrue trivial
  | read file _ => inferInstanceAs (Decidable (∃ f, fs.files[file]? = some (some f)))
  | write file _ _ => inferInstanceAs (Decidable (∃ f, fs.files[file]? = some (some f)))
  | close file => inferInstanceAs (Decidable (∃ f, fs.files[file]? = some (some f)))
  | remove _ => isTrue trivial

/-- **The last opener of a removed file closes it.** That is the one who closes the
only open file, or the removal itself where the file is not open. -/
def LastClose (fs : Filesys) (sector : ℕ) : FilesysOp → Prop
  | close file => ∃ f, fs.files[file]? = some (some f) ∧ f.inode = sector
      ∧ ∃ node, fs.openInodes sector = some node ∧ node.removed = true ∧ node.openCnt = 1
  | remove name => ∃ e ofs, fs.findEntry name = some (e, ofs) ∧ e.inodeSector.toNat = sector
      ∧ fs.openInodes sector = none
  | _ => False

/-- **The outcome of an operation.** If it is the last to close a removed file, the
sectors of that file are released. If it is not, every file is kept and nothing is
released, but the sector that a failed creation has just taken. -/
structure Outcome (op : FilesysOp) (fs fs' : Filesys) : Prop where
  freed : ∀ sector, op.LastClose fs sector → fs.Freed sector fs'
  kept : (∀ sector, ¬ op.LastClose fs sector) → fs.Keeps fs'
    ∧ (fs'.released = fs.released
      ∨ (∃ name initialSize, op = create name initialSize)
        ∧ ∃ sector, sector ∉ usedBits fs.freeMap ∧ sector ∉ usedBits fs'.freeMap
          ∧ fs'.released = fs.released ++ [(sector, 1)])

end FilesysOp

namespace Filesys

variable {blockSize : ℕ} {reserved : Set ℕ} {openers : ℕ → ℕ} {fs fs' : Filesys} {sector : ℕ}
  {E : FilesysPanic → Prop}

namespace Inv

theorem fileOf_eq {i : ℕ} {f : File} (h : fs.files[i]? = some (some f)) :
    fileOf i fs = .ok (f, fs) := by
  unfold fileOf
  rw [Command.get_bind_apply, h]
  rfl

theorem setPos (h : fs.Inv blockSize ∅ fs.openerCnt) {i : ℕ} {f : File}
    (hf : fs.files[i]? = some (some f)) (pos : ℕ) :
    (fs.setFiles (fs.files.set i (some { f with pos := pos }))).Inv blockSize ∅
      (fs.setFiles (fs.files.set i (some { f with pos := pos }))).openerCnt := by
  have hcnt := openerCnt_setFiles_pos hf (g := { f with pos := pos }) rfl
  rw [hcnt]
  refine h.setFiles fun g hg => ?_
  rcases List.mem_or_eq_of_mem_set hg with hmem | heq
  · exact h.allowed g hmem
  · cases heq
    exact h.allowed f (List.mem_of_getElem? hf)

/-- **Reading.** -/
theorem fileRead (h : fs.Inv blockSize ∅ fs.openerCnt) {i : ℕ} {f : File}
    (hf : fs.files[i]? = some (some f)) (size : Int32) : Ensures E fs (fileRead i size) fun _ fs' =>
      fs'.Inv blockSize ∅ fs'.openerCnt ∧ Keeps fs fs' ∧ fs'.released = fs.released := by
  have hpos : 0 < fs.openerCnt f.inode := (Nat.zero_le _).trans_lt (openerCnt_pos hf)
  obtain ⟨node, hnode, -⟩ := h.exists_node hpos
  unfold Pintos.fileRead
  refine .bind_ok (fileOf_eq hf) (.bind_ok (inodeReadAt_eq hnode)
    (.modify_bind (.pure ⟨h.setPos hf _, ?_, rfl⟩)))
  exact fun t ht => ⟨ht, rfl⟩

/-- **Writing.** -/
theorem fileWrite (h : fs.Inv blockSize ∅ fs.openerCnt) {i : ℕ} {f : File}
    (hf : fs.files[i]? = some (some f)) (buffer : ℕ → UInt8) (size : Int32) :
    Ensures E fs (fileWrite i buffer size) fun _ fs' =>
      fs'.Inv blockSize ∅ fs'.openerCnt ∧ Keeps fs fs' ∧ fs'.released = fs.released := by
  have hpos : 0 < fs.openerCnt f.inode := (Nat.zero_le _).trans_lt (openerCnt_pos hf)
  obtain ⟨-, hroot, hmap⟩ := h.allowed f (List.mem_of_getElem? hf)
  obtain ⟨disk, hwrite, hframe, hinv⟩ :=
    h.inodeWriteAt buffer size.toInt f.pos hpos hroot hmap
  unfold Pintos.fileWrite
  refine .bind_ok (fileOf_eq hf) (.bind_ok hwrite (.modify_bind (.pure ⟨?_, ?_, rfl⟩)))
  · have hinv' : (fs.onDisk disk).Inv blockSize ∅ (fs.onDisk disk).openerCnt := hinv
    exact hinv'.setPos hf _
  · exact hframe.keeps

/-- **Closing.** -/
theorem fileClose (h : fs.Inv blockSize ∅ fs.openerCnt) {i : ℕ} {f : File}
    (hf : fs.files[i]? = some (some f)) : Ensures E fs (fileClose i) fun _ fs' =>
      fs'.Inv blockSize ∅ fs'.openerCnt
        ∧ ((fs.openerCnt f.inode = 1 ∧ (fs.openInodes f.inode).any Inode.removed = true)
            ∧ Freed f.inode fs fs'
          ∨ ¬ (fs.openerCnt f.inode = 1 ∧ (fs.openInodes f.inode).any Inode.removed = true)
            ∧ Keeps fs fs' ∧ fs'.released = fs.released) := by
  have hpos := openerCnt_pos hf
  have hmem := List.mem_of_getElem? hf
  have hallow : fileAllowWrite f fs = .ok ((), fs) := by
    unfold fileAllowWrite
    rw [(h.allowed f hmem).1]
    rfl
  unfold Pintos.fileClose fileCloseInode
  refine .bind_ok (fileOf_eq hf) ?_
  refine Ensures.bind
    (.bind_ok hallow (h.inodeClose ((Nat.zero_le _).trans_lt hpos) fun heq => ?_)) ?_
  · rw [if_pos heq] at hpos
    exact hpos
  · rintro - fs₁ ⟨hinv₁, hfiles₁, hclosed⟩
    have hinv : (fs₁.setFiles (fs₁.files.set i none)).Inv blockSize ∅
        (fs₁.setFiles (fs₁.files.set i none)).openerCnt := by
      rw [openerCnt_setFiles_none (by rw [hfiles₁]; exact hf), openerCnt_congr hfiles₁]
      refine hinv₁.setFiles fun g hg => ?_
      rcases List.mem_or_eq_of_mem_set hg with hmem | heq
      · exact hinv₁.allowed g hmem
      · cases heq
    refine .modify ⟨hinv, ?_⟩
    rcases hclosed with ⟨hlast, hfreed⟩ | ⟨hmore, hframe, node, rfl⟩
    · exact .inl ⟨hlast, { hfreed with }⟩
    · exact .inr ⟨hmore, hframe.keeps, rfl⟩

/-- **Looking up a file.** -/
theorem dirLookup (h : fs.Inv blockSize reserved openers) (hopen : 0 < openers rootDirSector)
    (name : CString) : Ensures E fs (dirLookup rootDirSector name) fun inode fs' =>
      (inode = none ↔ fs.findEntry name = none) ∧ Frame fs fs' ∧ fs'.released = fs.released
        ∧ fs'.files = fs.files
        ∧ match inode with
          | none => fs'.Inv blockSize reserved openers
          | some sector => sector ≠ rootDirSector ∧ sector ≠ freeMapSector
            ∧ fs'.Inv blockSize reserved (Function.update openers sector (openers sector + 1)) := by
  unfold Pintos.dirLookup
  refine .bind_ok (h.lookup_eq hopen name) ?_
  cases hfind : fs.findEntry name with
  | none => exact .pure ⟨⟨fun _ => rfl, fun _ => rfl⟩, Frame.refl fs, rfl, rfl, h⟩
  | some found =>
    obtain ⟨e, ofs⟩ := found
    obtain ⟨j, -, -, hentry⟩ := findEntry_eq_some hfind
    refine (h.inodeOpen ⟨_, hentry⟩).bind ?_
    rintro inode fs₁ ⟨rfl, node, rfl, hframe, hinv⟩
    obtain ⟨hroot, hmap⟩ := h.entry_ne hentry
    exact .pure ⟨⟨nofun, nofun⟩, hframe, rfl, rfl, hroot, hmap, hinv⟩

/-- **Opening.** The free map is not opened by name. -/
theorem filesysOpen (h : fs.Inv blockSize ∅ fs.openerCnt) (name : CString) :
    Ensures E fs (filesysOpen name) fun file fs' =>
      (file = none ↔ fs.findEntry name = none) ∧ fs'.Inv blockSize ∅ fs'.openerCnt
        ∧ Keeps fs fs' ∧ fs'.released = fs.released
        ∧ ∀ f, some f ∈ fs'.files → some f ∈ fs.files ∨ f.inode ≠ freeMapSector := by
  unfold Pintos.filesysOpen
  refine h.dirOpenRoot.bind ?_
  rintro dir fs₁ ⟨rfl, node₁, rfl, hframe₁, hinv₁⟩
  refine (hinv₁.dirLookup (by rw [Function.update_self]; exact Nat.succ_pos _) name).bind ?_
  rintro inode fs₂ ⟨hfound, hframe₂, hreleased₂, hfiles₂, hinv₂⟩
  cases inode with
  | none =>
    refine (hinv₂.dirClose fs.openerCnt rfl).bind ?_
    rintro - fs₃ ⟨hinv₃, hframe₃, node₃, rfl⟩
    exact .pure ⟨hfound, hinv₃.settle hfiles₂, ((hframe₁.trans hframe₂).trans hframe₃).keeps,
      hreleased₂, fun f hf => .inl (hfiles₂ ▸ hf)⟩
  | some inode =>
    obtain ⟨hne, hmap, hinv₂⟩ := hinv₂
    rw [Function.update_of_ne hne, Function.update_comm hne.symm] at hinv₂
    refine (hinv₂.dirClose (Function.update fs.openerCnt inode (fs.openerCnt inode + 1))
      (by rw [Function.update_of_ne hne.symm])).bind ?_
    rintro - fs₃ ⟨hinv₃, hframe₃, node₃, rfl⟩
    have hsome : ¬ fs.findEntry name = none := fun hnone => nomatch hfound.mpr hnone
    refine .get_bind (.modify_bind (.pure ⟨⟨nofun, fun hnone => absurd hnone hsome⟩, ?_, ?_,
      hreleased₂, fun f hf => ?_⟩))
    · show Inv _ _ (Filesys.setFiles _ _).openerCnt (Filesys.setFiles _ _)
      have hcnt : (fs₂.setInode rootDirSector node₃).openerCnt = fs.openerCnt :=
        openerCnt_congr hfiles₂
      rw [openerCnt_setFiles_append, hcnt]
      refine hinv₃.setFiles fun g hg => ?_
      rcases List.mem_append.mp hg with hmem | hnew
      · exact hinv₃.allowed g hmem
      · cases List.mem_singleton.mp hnew
        exact ⟨rfl, hne, hmap⟩
    · exact ((hframe₁.trans hframe₂).trans hframe₃).keeps
    · rcases List.mem_append.mp hf with hmem | hnew
      · exact .inl (hfiles₂ ▸ hmem)
      · cases List.mem_singleton.mp hnew
        exact .inr hmap

/-- **Removing.** -/
theorem filesysRemove (h : fs.Inv blockSize ∅ fs.openerCnt) (name : CString) :
    Ensures E fs (filesysRemove name) fun _ fs' =>
      fs'.Inv blockSize ∅ fs'.openerCnt
        ∧ ((∃ e ofs, fs.findEntry name = some (e, ofs) ∧ fs.openInodes e.inodeSector.toNat = none
              ∧ Freed e.inodeSector.toNat fs fs')
          ∨ (∀ e ofs, fs.findEntry name = some (e, ofs) →
              fs.openInodes e.inodeSector.toNat ≠ none)
            ∧ Keeps fs fs' ∧ fs'.released = fs.released) := by
  unfold Pintos.filesysRemove
  refine h.dirOpenRoot.bind ?_
  rintro dir fs₁ ⟨rfl, node₁, rfl, hframe₁, hinv₁⟩
  refine (hinv₁.dirRemove (by rw [Function.update_self]; exact Nat.succ_pos _) name).bind ?_
  rintro success fs₂ ⟨hinv₂, hfiles₂, hremoved⟩
  refine (hinv₂.dirClose fs.openerCnt rfl).bind ?_
  rintro - fs₃ ⟨hinv₃, hframe₃, node₃, rfl⟩
  -- A named file has no opener but those it had before the directory was opened.
  have hopen : ∀ e ofs, fs.findEntry name = some (e, ofs) →
      (Function.update fs.openerCnt rootDirSector (fs.openerCnt rootDirSector + 1)
          e.inodeSector.toNat = 0 ↔ fs.openInodes e.inodeSector.toNat = none)
        ∧ fs.IsFile e.inodeSector.toNat := fun e ofs hfind => by
    obtain ⟨j, -, -, hentry⟩ := findEntry_eq_some hfind
    refine ⟨?_, _, hentry⟩
    rw [Function.update_of_ne (h.entry_ne hentry).1]
    exact h.openers_eq_zero
  refine .pure ⟨hinv₃.settle hfiles₂, ?_⟩
  rcases hremoved with ⟨e, ofs, hfind, hzero, hfreed⟩ | ⟨hmore, hkeeps, hreleased⟩
  · obtain ⟨hiff, hfile⟩ := hopen e ofs hfind
    refine .inl ⟨e, ofs, hfind, hiff.mp hzero, ?_⟩
    exact (hfreed.of_keeps hfile hframe₁.keeps rfl).frame hframe₃ rfl rfl
  · refine .inr ⟨fun e ofs hfind hnone => ?_, (hframe₁.keeps.trans hkeeps).trans hframe₃.keeps,
      hreleased⟩
    exact hmore e ofs hfind ((hopen e ofs hfind).1.mpr hnone)

end Inv

/-- **A creation that failed**: the owners are as they were, and so is every sector in use
outside the file of the free map, and the free map is the given one. -/
structure Undone (fs : Filesys) (bits : List Bool) (fs' : Filesys) : Prop where
  frame : Frame fs fs'
  kept : ∀ t ∈ usedBits fs.freeMap, t ∉ (inodeAt fs.disk freeMapSector).extent →
    fs'.disk t = fs.disk t
  map : fs'.freeMap = bits

theorem Undone.of_map {bits bits' : List Bool} (h : fs.Undone bits fs') (hbits : bits = bits') :
    fs.Undone bits' fs' := hbits ▸ h

/-- What came before the failure may have taken free sectors. -/
theorem Undone.after {fs₁ : Filesys} {bits : List Bool} (hframe : Frame fs fs₁)
    (hused : usedBits fs.freeMap ⊆ usedBits fs₁.freeMap)
    (hkept : ∀ t ∈ usedBits fs.freeMap, t ∉ (inodeAt fs.disk freeMapSector).extent →
      fs₁.disk t = fs.disk t) (h : fs₁.Undone bits fs') : fs.Undone bits fs' where
  frame := hframe.trans h.frame
  kept t ht hmap := by
    rw [h.kept t (hused ht), hkept t ht hmap]
    rw [hframe.inodes .freeMap freeMapSector rfl]
    exact hmap
  map := h.map

/-- The free map after a failed creation: the sector of the inode is given back, and the
sectors of the data are not. -/
def leaked (fs : Filesys) (initialSize : Int32) : List Bool :=
  match bitmapScan fs.freeMap 0 1 false with
  | none => fs.freeMap
  | some sector =>
    let cnt := bytesToSectors initialSize
    match bitmapScan (bitmapSetMultiple fs.freeMap sector 1 true) 0 cnt false with
    | none => fs.freeMap
    | some start => bitmapSetMultiple fs.freeMap start cnt true

namespace Inv

/-- The end of `filesys_create`: a creation that failed gives the sector of the inode
back. -/
theorem finishCreate {fs₄ : Filesys} {success : Bool}
    (h : fs₄.Inv blockSize (if success then ∅ else reserved)
      (Function.update fs.openerCnt rootDirSector (fs.openerCnt rootDirSector + 1)))
    (hsector : sector ∈ reserved) (hdevice : sector < blockSize) (hzero : sector ≠ 0)
    (hfresh : sector ∉ usedBits fs.freeMap) (hkeeps : Keeps fs fs₄)
    (hreleased : fs₄.released = fs.released) (hfiles : fs₄.files = fs.files) : Ensures E fs₄
      (do
        if !success && sector != 0 then Pintos.freeMapRelease sector 1 else pure ()
        Pintos.dirClose rootDirSector
        pure success)
      fun success' fs' => fs'.Inv blockSize ∅ fs'.openerCnt ∧ Keeps fs fs'
        ∧ (fs'.released = fs.released
          ∨ ∃ sector, sector ∉ usedBits fs.freeMap ∧ sector ∉ usedBits fs'.freeMap
            ∧ fs'.released = fs.released ++ [(sector, 1)])
        ∧ (success' = false →
          success = false ∧ fs₄.Undone (bitmapSetMultiple fs₄.freeMap sector 1 false) fs') := by
  by_cases hrelease : (!success && sector != 0) = true
  · rw [if_pos hrelease]
    have hfailed : success = false := by
      cases success
      · rfl
      · cases hrelease
    rw [hfailed, if_neg Bool.false_ne_true] at h
    have hone : Set.Ico sector (sector + 1) ⊆ reserved := fun x hx => by
      rw [show x = sector by have := hx.1; have := hx.2; omega]
      exact hsector
    refine (h.freeMapRelease hone hdevice).bind ?_
    rintro - fs₅ ⟨hinv₅, hframe₅, disk₅, rfl, hoff₅⟩
    refine ((hinv₅.mono (Set.empty_subset _)).dirClose fs.openerCnt rfl).bind ?_
    rintro - fs₆ ⟨hinv₆, hframe₆, node₆, rfl⟩
    refine .pure ⟨hinv₆.settle hfiles, (hkeeps.trans hframe₅.keeps).trans hframe₆.keeps,
      .inr ⟨sector, hfresh, ?_, ?_⟩, fun _ => ⟨hfailed, hframe₅.trans hframe₆, ?_, rfl⟩⟩
    · show sector ∉ usedBits (bitmapSetMultiple fs₄.freeMap sector 1 false)
      rw [usedBits_bitmapSetMultiple_false (by rw [h.size]; exact hdevice)]
      exact fun hmem => hmem.2 ⟨le_rfl, Nat.lt_succ_self _⟩
    · show fs₄.released ++ [(sector, 1)] = _
      rw [hreleased]
    · exact fun t _ hmap => hoff₅ t hmap
  · rw [if_neg hrelease]
    refine ((h.mono (Set.empty_subset _)).dirClose fs.openerCnt rfl).bind ?_
    rintro - fs₆ ⟨hinv₆, hframe₆, node₆, rfl⟩
    refine .pure ⟨hinv₆.settle hfiles, hkeeps.trans hframe₆.keeps, .inl hreleased,
      fun hfailed => absurd ?_ hrelease⟩
    rw [hfailed, Bool.not_false, Bool.true_and]
    exact bne_iff_ne.mpr hzero

/-- **Creating.** The size is looked at if there is a free sector. -/
theorem filesysCreate (h : fs.Inv blockSize ∅ fs.openerCnt) (name : CString) {initialSize : Int32}
    (hpanic : initialSize < 0 → bitmapScan fs.freeMap 0 1 false ≠ none → E .assertLength) :
    Ensures E fs (filesysCreate name initialSize) fun success fs' =>
      (0 ≤ initialSize.toInt ∨ bitmapScan fs.freeMap 0 1 false = none)
        ∧ fs'.Inv blockSize ∅ fs'.openerCnt ∧ Keeps fs fs'
        ∧ (fs'.released = fs.released
          ∨ ∃ sector, sector ∉ usedBits fs.freeMap ∧ sector ∉ usedBits fs'.freeMap
            ∧ fs'.released = fs.released ++ [(sector, 1)])
        ∧ (success = false → fs.Undone (fs.leaked initialSize) fs') := by
  unfold Pintos.filesysCreate
  refine h.dirOpenRoot.bind ?_
  rintro dir fs₁ ⟨rfl, node₁, rfl, hframe₁, hinv₁⟩
  refine (hinv₁.freeMapAllocate 1).bind fun result fs₂ hpost => ?_
  cases result with
  | none =>
    obtain ⟨hscan, rfl⟩ := hpost
    refine (hinv₁.dirClose fs.openerCnt rfl).bind ?_
    rintro - fs₃ ⟨hinv₃, hframe₃, node₃, rfl⟩
    refine .pure ⟨.inr hscan, hinv₃.settle rfl, (hframe₁.trans hframe₃).keeps, .inl rfl,
      fun _ => ⟨hframe₁.trans hframe₃, fun _ _ _ => rfl, ?_⟩⟩
    unfold leaked
    rw [show bitmapScan fs.freeMap 0 1 false = none from hscan]
    rfl
  | some sector =>
    obtain ⟨hscan, hinv₂, hframe₂, disk₂, rfl, hoff₂⟩ := hpost
    have hmem : sector ∈ Set.Ico sector (sector + 1) := ⟨le_rfl, Nat.lt_succ_self _⟩
    have hfresh : sector ∉ usedBits fs.freeMap :=
      Set.disjoint_left.mp (disjoint_usedBits_of_bitmapScan hscan) hmem
    obtain ⟨hle, hfreeBit⟩ := bitmapScan_eq_some hscan
    have hbit : fs.freeMap[sector]? = some false := hfreeBit sector le_rfl (Nat.lt_succ_self _)
    have hdevice : sector < blockSize := by
      rw [hinv₁.size] at hle
      exact hle
    have hzero : sector ≠ 0 := by
      rintro rfl
      exact hfresh (h.tenure.own_used .freeMap (mem_region (o := .freeMap) rfl))
    have hpanic' : initialSize < 0 → E .assertLength := fun hneg =>
      hpanic hneg (Option.ne_none_iff_exists'.mpr ⟨sector, hscan⟩)
    refine (hinv₂.inodeCreate (.inr hmem) hpanic').bind ?_
    rintro created fs₃ ⟨hlength, hcreated⟩
    have hscan₁ : bitmapScan fs.freeMap 0 1 false = some sector := hscan
    cases created with
    | false =>
      obtain ⟨hscan₂, rfl⟩ := hcreated
      refine Ensures.bind (.pure ⟨rfl, rfl⟩ : Ensures E _ _ fun success fs₄ =>
        success = false ∧ fs₄ = (Filesys.setBits _ sector 1 true).onDisk disk₂) ?_
      rintro - - ⟨rfl, rfl⟩
      refine (finishCreate hinv₂ (.inr hmem) hdevice hzero hfresh (hframe₁.trans hframe₂).keeps
        rfl rfl).mono fun success fs' ⟨hinv, hkeeps, hreleased, hundone⟩ =>
          ⟨.inl hlength, hinv, hkeeps, hreleased, fun hfailed => ?_⟩
      obtain ⟨-, hundone⟩ := hundone hfailed
      refine .after (hframe₁.trans hframe₂) subset_usedBits_bitmapSetMultiple
        (fun t _ hmap => hoff₂ t hmap) (hundone.of_map ?_)
      unfold leaked
      rw [hscan₁]
      dsimp only
      rw [show bitmapScan (bitmapSetMultiple fs.freeMap sector 1 true) 0 _ false = none from
        hscan₂]
      exact bitmapSetMultiple_undo 0 0 hbit nofun
    | true =>
      obtain ⟨start, disk₃, rfl, hle, hfree, hinode, hinv₃, hframe₃, hscan₂, hoff₃⟩ := hcreated
      have hsmall := hinv₃.small
      have hlt : start < 2 ^ 32 := by omega
      have hstart : (UInt32.ofNat start).toNat = start := UInt32.toNat_ofNat_of_lt' hlt
      have hextent : (inodeAt disk₃ sector).extent
          = Set.Ico start (start + bytesToSectors initialSize) := by
        unfold InodeDisk.extent
        rw [hinode, hstart]
      have hkeeps := ((hframe₁.trans hframe₂).trans hframe₃).keeps
      refine (hinv₃.dirAdd (by rw [Function.update_self]; exact Nat.succ_pos _) name
        (by omega) ?_ ⟨?_, ?_, ?_⟩).bind ?_
      · show insert sector (inodeAt disk₃ sector).extent ⊆ _
        rw [hextent]
        exact Set.insert_subset (.inl (.inr hmem)) Set.subset_union_right
      · show sector ∉ (inodeAt disk₃ sector).extent
        rw [hextent]
        exact fun hmem' => Set.disjoint_left.mp hfree hmem' (hinv₂.tenure.reserved_used (.inr hmem))
      · show 0 ≤ (inodeAt disk₃ sector).length.toInt
        rw [hinode]
        exact hlength
      · show (inodeAt disk₃ sector).start.toNat + bytesToSectors (inodeAt disk₃ sector).length ≤ _
        rw [hinode, hstart]
        exact hle
      · rintro success fs₄ ⟨⟨disk₄, rfl⟩, hsame₄, hkeeps₄, hinv₄⟩
        refine (finishCreate hinv₄ (.inl (.inr hmem)) hdevice hzero hfresh (hkeeps.trans hkeeps₄)
          rfl rfl).mono fun success' fs' ⟨hinv, hkeeps, hreleased, hundone⟩ =>
            ⟨.inl hlength, hinv, hkeeps, hreleased, fun hfailed => ?_⟩
        obtain ⟨hfailed₄, hundone⟩ := hundone hfailed
        rw [hsame₄ hfailed₄] at hundone
        refine .after ((hframe₁.trans hframe₂).trans hframe₃)
          (subset_usedBits_bitmapSetMultiple.trans subset_usedBits_bitmapSetMultiple)
          (fun t ht hmap => ?_) (hundone.of_map ?_)
        · rw [← show disk₂ t = fs.disk t from hoff₂ t hmap]
          refine hoff₃ t (subset_usedBits_bitmapSetMultiple ht) (fun heq => hfresh (heq ▸ ht)) ?_
          rw [hframe₂.inodes .freeMap freeMapSector rfl]
          exact hmap
        · unfold leaked
          rw [hscan₁]
          dsimp only
          rw [show bitmapScan (bitmapSetMultiple fs.freeMap sector 1 true) 0 _ false = some start
            from hscan₂]
          refine bitmapSetMultiple_undo start _ hbit fun hmem' => ?_
          exact Set.disjoint_left.mp hfree hmem' (hinv₂.tenure.reserved_used (.inr hmem))

/-! ## Every operation -/

/-- **One operation.** It stops only at the assertion on a negative size. -/
theorem exec (h : fs.Inv blockSize ∅ fs.openerCnt) {op : FilesysOp} (hvalid : op.Valid fs) :
    Ensures (fun e => e = .assertLength ∧ ∃ name initialSize, op = .create name initialSize
        ∧ initialSize < 0) fs op.exec
      fun _ fs' => fs'.Inv blockSize ∅ fs'.openerCnt ∧ op.Outcome fs fs' := by
  -- The operations that close nothing keep every file.
  have hkept : ∀ {op : FilesysOp} {fs' : Filesys}, (∀ sector, ¬ op.LastClose fs sector) →
      Keeps fs fs' → fs'.released = fs.released → op.Outcome fs fs' :=
    fun hnot hkeeps hreleased =>
      ⟨fun sector hlast => absurd hlast (hnot sector), fun _ => ⟨hkeeps, .inl hreleased⟩⟩
  cases op with
  | create name initialSize =>
    refine (h.filesysCreate name fun hneg _ => ⟨rfl, name, initialSize, rfl, hneg⟩).bind ?_
    rintro - fs' ⟨-, hinv, hkeeps, hreleased, -⟩
    refine .pure ⟨hinv, nofun, fun _ => ⟨hkeeps, ?_⟩⟩
    exact hreleased.imp_right fun hundone => ⟨⟨name, initialSize, rfl⟩, hundone⟩
  | «open» name =>
    refine (h.filesysOpen name).bind ?_
    rintro - fs' ⟨-, hinv, hkeeps, hreleased, -⟩
    exact .pure ⟨hinv, hkept nofun hkeeps hreleased⟩
  | read file size =>
    obtain ⟨f, hf⟩ := hvalid
    refine (h.fileRead hf size).bind ?_
    rintro - fs' ⟨hinv, hkeeps, hreleased⟩
    exact .pure ⟨hinv, hkept nofun hkeeps hreleased⟩
  | write file buffer size =>
    obtain ⟨f, hf⟩ := hvalid
    refine (h.fileWrite hf buffer size).bind ?_
    rintro - fs' ⟨hinv, hkeeps, hreleased⟩
    exact .pure ⟨hinv, hkept nofun hkeeps hreleased⟩
  | close file =>
    obtain ⟨f, hf⟩ := hvalid
    have hiff : ∀ sector, (FilesysOp.close file).LastClose fs sector
        ↔ f.inode = sector ∧ fs.openerCnt f.inode = 1
          ∧ (fs.openInodes f.inode).any Inode.removed = true := fun sector => by
      obtain ⟨node, hnode, -, hcount⟩ :=
        h.exists_node ((Nat.zero_le _).trans_lt (openerCnt_pos hf))
      constructor
      · rintro ⟨f', hf', rfl, node', hnode', hremoved, hone⟩
        rw [hf] at hf'
        cases hf'
        rw [hnode] at hnode' ⊢
        cases hnode'
        exact ⟨rfl, hcount.symm.trans hone, hremoved⟩
      · rintro ⟨rfl, hone, hremoved⟩
        rw [hnode] at hremoved
        exact ⟨f, hf, rfl, node, hnode, hremoved, hcount.trans hone⟩
    refine (h.fileClose hf).mono ?_
    rintro - fs' ⟨hinv, hclosed⟩
    refine ⟨hinv, ?_⟩
    rcases hclosed with ⟨hlast, hfreed⟩ | ⟨hmore, hkeeps, hreleased⟩
    · refine ⟨fun sector hs => ?_, fun hnot => absurd ((hiff _).mpr ⟨rfl, hlast⟩) (hnot _)⟩
      obtain ⟨rfl, -⟩ := (hiff sector).mp hs
      exact hfreed
    · exact hkept (fun sector hs => hmore ((hiff sector).mp hs).2) hkeeps hreleased
  | remove name =>
    refine (h.filesysRemove name).bind ?_
    rintro - fs' ⟨hinv, hremoved⟩
    refine .pure ⟨hinv, ?_⟩
    rcases hremoved with ⟨e, ofs, hfind, hnone, hfreed⟩ | ⟨hmore, hkeeps, hreleased⟩
    · refine ⟨fun sector hs => ?_, fun hnot => absurd ⟨e, ofs, hfind, rfl, hnone⟩ (hnot _)⟩
      obtain ⟨e', ofs', hfind', rfl, -⟩ := hs
      rw [hfind] at hfind'
      cases hfind'
      exact hfreed
    · refine hkept (fun sector hs => ?_) hkeeps hreleased
      obtain ⟨e, ofs, hfind, rfl, hnone⟩ := hs
      exact hmore e ofs hfind hnone

end Inv

end Filesys

/-! ## Runs -/

/-- A step: an operation that is given open files. -/
def FilesysStep (fs : Filesys) (op : FilesysOp) (fs' : Filesys) : Prop :=
  op.Valid fs ∧ op.exec fs = .ok ((), fs')

/-- **The sectors of the device are owned**: those of every owner are on the device and
marked used, no two owners share one, and no inode lies in its own extent. -/
structure Filesys.Owned (blockSize : ℕ) (fs : Filesys) : Prop where
  size : fs.freeMap.length = blockSize
  used : ∀ o sector, fs.inodeSector o = some sector → ∀ t ∈ sectorsAt fs.disk sector,
    t < blockSize ∧ fs.freeMap[t]? = some true
  disjoint : ∀ o o' sector sector', fs.inodeSector o = some sector →
    fs.inodeSector o' = some sector' → o ≠ o' →
      Disjoint (sectorsAt fs.disk sector) (sectorsAt fs.disk sector')
  apart : ∀ o sector, fs.inodeSector o = some sector → sector ∉ (inodeAt fs.disk sector).extent
  extent : ∀ o sector, fs.inodeSector o = some sector →
    (inodeAt fs.disk sector).start.toNat + bytesToSectors (inodeAt fs.disk sector).length
      ≤ blockSize

theorem Filesys.Inv.toOwned {blockSize : ℕ} {openers : ℕ → ℕ} {fs : Filesys}
    (h : fs.Inv blockSize ∅ openers) : fs.Owned blockSize where
  size := h.size
  used o sector hs t ht := by
    have hused : t ∈ usedBits fs.freeMap := h.tenure.own_used o (by rw [region_eq hs]; exact ht)
    refine ⟨?_, hused⟩
    rw [← h.size]
    exact lt_length_of_mem_usedBits hused
  disjoint o o' sector sector' hs hs' hne := by
    rw [← region_eq hs, ← region_eq hs']
    exact h.tenure.disjoint o o' hne
  apart o sector hs := (h.placed o sector hs).1
  extent o sector hs := (h.placed o sector hs).2.2

/-- What holds after formatting holds after every run. -/
theorem Filesys.Inv.run {blockSize : ℕ} {fs₀ fs : Filesys} {ops : List FilesysOp}
    (h : fs₀.Inv blockSize ∅ fs₀.openerCnt) (hrun : Run FilesysStep fs₀ ops fs) :
    fs.Inv blockSize ∅ fs.openerCnt := by
  refine hrun.invariant (I := fun _ fs => fs.Inv blockSize ∅ fs.openerCnt) h ?_
  rintro - fs op fs' hinv ⟨hvalid, hexec⟩
  exact ((hinv.exec hvalid).of_ok hexec).1

theorem filesysInit_inv {blockSize : UInt32} {disk : Disk} {unused : ℕ → Bool} {fs : Filesys}
    (h : filesysInit blockSize true (.boot disk unused) = .ok ((), fs)) :
    fs.Inv blockSize.toNat ∅ fs.openerCnt := by
  obtain ⟨hsmall, fs₁, hformatted, rfl⟩ :=
    (Filesys.filesysInit_spec blockSize disk unused).of_ok h
  have hinv := hformatted.inv hsmall
  have hfiles : fs₁.reopened.files = [] := hformatted.files
  rwa [Filesys.openerCnt_of_files_nil hfiles]

/-- **Ownership of disk space.** From a freshly formatted disk on, in every state that
any sequence of operations leads to, the sectors of the free map, of the root
directory, of the named files and of the removed files that are still open are on the
device, marked used and pairwise disjoint; the sectors of a removed file are released
by the operation that closes it last, and by no other; and the only assertion that an
operation can fail is the one on the size of a new file. -/
theorem filesys_ownsSectors {blockSize : UInt32} {disk : Disk} {unused : ℕ → Bool}
    {fs₀ fs : Filesys} {ops : List FilesysOp}
    (hinit : filesysInit blockSize true (.boot disk unused) = .ok ((), fs₀))
    (hrun : Run FilesysStep fs₀ ops fs) :
    fs.Owned blockSize.toNat
      ∧ ∀ op : FilesysOp, op.Valid fs →
        (∀ e, op.exec fs = .error e → e = .assertLength
          ∧ ∃ name initialSize, op = .create name initialSize ∧ initialSize < 0)
        ∧ ∀ fs', op.exec fs = .ok ((), fs') → op.Outcome fs fs' := by
  have hinv := (filesysInit_inv hinit).run hrun
  refine ⟨hinv.toOwned, fun op hvalid => ⟨fun e he => ?_, fun fs' hfs' => ?_⟩⟩
  · exact (hinv.exec hvalid).of_error he
  · exact ((hinv.exec hvalid).of_ok hfs').2

theorem nul_not_mem_a : (0 : UInt8) ∉ [97] := by decide

/-- A file is created, opened, removed while it is open, and closed. -/
def removedOps : List FilesysOp :=
  let name : CString := ⟨[97], nul_not_mem_a⟩
  [.create name 600, .open name, .remove name, .close 0]

/-- The next state, computed. -/
def filesysNext (fs : Filesys) (op : FilesysOp) : Option Filesys :=
  if op.Valid fs then (op.exec fs).toOption.map Prod.snd else none

theorem filesysStep_of_next (fs : Filesys) (op : FilesysOp) (fs' : Filesys)
    (h : filesysNext fs op = some fs') : FilesysStep fs op fs' := by
  unfold filesysNext at h
  split at h
  · rename_i hvalid
    refine ⟨hvalid, ?_⟩
    cases hexec : op.exec fs with
    | error e =>
      rw [hexec] at h
      cases h
    | ok result =>
      rw [hexec] at h
      cases h
      rfl
  · cases h

theorem filesys_ownsSectors_removed :
    ∃ fs₀ fs, filesysInit 8 true (.boot (fun _ _ => 0) fun _ => true) = .ok ((), fs₀)
      ∧ Run FilesysStep fs₀ removedOps fs ∧ fs.released = [(4, 1), (5, 2)] ∧ fs.Owned 8 := by
  have hcomputed : ((filesysInit 8 true (.boot (fun _ _ => 0) fun _ => true)).toOption.bind
      fun result => removedOps.foldlM filesysNext result.2).map Filesys.released
      = some [(4, 1), (5, 2)] := by
    decide +kernel
  obtain ⟨fs, hbind, hreleased⟩ := Option.map_eq_some_iff.mp hcomputed
  obtain ⟨⟨⟨⟩, fs₀⟩, hinit, hops⟩ := Option.bind_eq_some_iff.mp hbind
  have hok := Command.eq_ok_of_toOption hinit
  have hrun : Run FilesysStep fs₀ removedOps fs :=
    Run.of_foldlM filesysStep_of_next hops
  exact ⟨fs₀, fs, hok, hrun, hreleased, (filesys_ownsSectors hok hrun).1⟩

end Pintos
