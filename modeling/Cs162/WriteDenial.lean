import Cs162.FilesysRuns

/-!
# Denied writes do not disturb the file system

`inode_deny_write` counts, in an open inode, the openers that want no writes to
it. But for `inode_write_at` and `inode_allow_write` no function of the file
system looks at the count, so an operation does the same in the state without
any denials (`Filesys.erase`): it is mirrored there. What was proved of the file
system without denials therefore holds of it with them.

The counts themselves stay as they are through an operation (`Filesys.Steady`).
An inode that someone has denied writes to is open, and the operation closes no
inode more often than it has opened it.
-/

namespace Pintos

open Command (Ensures Mirrors)

/-- An inode without denials. -/
def Inode.erase (node : Inode) : Inode := { node with denyWriteCnt := 0 }

/-- A file that denies nothing. -/
def File.erase (file : File) : File := { file with denyWrite := false }

namespace Filesys

/-- **The file system without denials.** -/
def erase (fs : Filesys) : Filesys :=
  { fs with
    openInodes := fun sector => (fs.openInodes sector).map Inode.erase
    files := fs.files.map (Option.map File.erase) }

/-- `deny_write_cnt` of an inode; zero for one that is not open. -/
def denyCnt (fs : Filesys) (sector : ℕ) : ℕ := (fs.openInodes sector).elim 0 Inode.denyWriteCnt

/-- `open_cnt` of an inode; zero for one that is not open. -/
def openCnt (fs : Filesys) (sector : ℕ) : ℕ := (fs.openInodes sector).elim 0 Inode.openCnt

/-- **The counts in the middle of an operation**, with the number of pointers to each
inode that the operation itself holds. An inode with denials has an opener
besides. Nobody denies writes to the directory or to the free map. -/
structure Steady (denials extra : ℕ → ℕ) (fs : Filesys) : Prop where
  deny : ∀ sector, fs.denyCnt sector = denials sector
  held : ∀ sector, 0 < denials sector → extra sector < fs.openCnt sector
  root : denials rootDirSector = 0
  map : denials freeMapSector = 0
  mapFile : ∀ file, fs.freeMapFile = some file → file.inode = freeMapSector

/-- One pointer more. -/
def bump (extra : ℕ → ℕ) (sector : ℕ) : ℕ → ℕ :=
  Function.update extra sector (extra sector + 1)

theorem bump_comm (extra : ℕ → ℕ) (s t : ℕ) : bump (bump extra s) t = bump (bump extra t) s := by
  funext u
  unfold bump
  simp only [Function.update_apply]
  grind

variable {denials extra extra' : ℕ → ℕ} {fs fs' : Filesys} {sector : ℕ} {node : Inode}

theorem erase_setInode (fs : Filesys) (sector : ℕ) (node : Option Inode) :
    (fs.setInode sector node).erase = fs.erase.setInode sector (node.map Inode.erase) := by
  unfold erase setInode
  congr 1
  funext t
  dsimp only
  rw [Function.update_apply, Function.update_apply]
  split <;> rfl

theorem openInodes_erase (h : fs.openInodes sector = some node) :
    fs.erase.openInodes sector = some node.erase := by
  show (fs.openInodes sector).map Inode.erase = _
  rw [h]
  rfl

theorem openInodes_erase_none (h : fs.openInodes sector = none) :
    fs.erase.openInodes sector = none := by
  show (fs.openInodes sector).map Inode.erase = _
  rw [h]
  rfl

/-- A state that differs in nothing the counts are about. -/
theorem Steady.congr (h : fs.Steady denials extra) (hinodes : fs'.openInodes = fs.openInodes)
    (hmap : fs'.freeMapFile = fs.freeMapFile) : fs'.Steady denials extra := by
  refine ⟨fun sector => ?_, fun sector hdeny => ?_, h.root, h.map, fun file hfile => ?_⟩
  · unfold denyCnt
    rw [hinodes]
    exact h.deny sector
  · unfold openCnt
    rw [hinodes]
    exact h.held sector hdeny
  · exact h.mapFile file (hmap ▸ hfile)

theorem denyCnt_setInode (fs : Filesys) (sector : ℕ) (node : Option Inode) (t : ℕ) :
    (fs.setInode sector node).denyCnt t
      = if t = sector then node.elim 0 Inode.denyWriteCnt else fs.denyCnt t := by
  unfold denyCnt setInode
  dsimp only
  rw [Function.update_apply]
  split <;> rfl

theorem openCnt_setInode (fs : Filesys) (sector : ℕ) (node : Option Inode) (t : ℕ) :
    (fs.setInode sector node).openCnt t
      = if t = sector then node.elim 0 Inode.openCnt else fs.openCnt t := by
  unfold openCnt setInode
  dsimp only
  rw [Function.update_apply]
  split <;> rfl

theorem Steady.setInode (h : fs.Steady denials extra) {node : Option Inode}
    (hdeny : node.elim 0 Inode.denyWriteCnt = denials sector)
    (hheld : 0 < denials sector → extra' sector < node.elim 0 Inode.openCnt)
    (hextra : ∀ t, t ≠ sector → extra' t = extra t) :
    (fs.setInode sector node).Steady denials extra' := by
  refine ⟨fun t => ?_, fun t ht => ?_, h.root, h.map, h.mapFile⟩
  · rw [denyCnt_setInode]
    split
    · rename_i heq
      rw [heq]
      exact hdeny
    · exact h.deny t
  · rw [openCnt_setInode]
    split
    · rename_i heq
      subst heq
      exact hheld ht
    · rename_i hne
      rw [hextra t hne]
      exact h.held t ht

end Filesys

open Filesys

/-! ## Inodes -/

section

variable {denials extra : ℕ → ℕ} {fs : Filesys} {sector : ℕ}

/-- What an operation keeps: the counts and the list of files. -/
def Kept (denials extra : ℕ → ℕ) (fs fs' : Filesys) : Prop :=
  fs'.Steady denials extra ∧ fs'.files = fs.files

theorem mirrors_inodeOpen (h : fs.Steady denials extra) (sector : ℕ) :
    Mirrors erase fs (inodeOpen sector) (inodeOpen sector) fun inode fs' =>
      inode = sector ∧ Kept denials (bump extra sector) fs fs' := by
  have hdeny := h.deny sector
  unfold denyCnt at hdeny
  have hbump : ∀ t, t ≠ sector → bump extra sector t = extra t := fun t ht =>
    Function.update_of_ne ht ..
  unfold inodeOpen
  refine .get_bind ?_
  cases hopen : fs.openInodes sector with
  | none =>
    rw [openInodes_erase_none hopen]
    rw [hopen] at hdeny
    refine (Mirrors.modify (erase_setInode fs sector (some ⟨sector, 1, false, 0, _⟩)).symm
      (J := fun _ fs' => Kept denials (bump extra sector) fs fs') ⟨?_, rfl⟩).bind
      fun _ fs' hkept => .pure ⟨rfl, hkept⟩
    exact h.setInode hdeny (fun hpos => by rw [← hdeny] at hpos; cases hpos) hbump
  | some node =>
    rw [openInodes_erase hopen]
    rw [hopen] at hdeny
    refine (Mirrors.modify
      (erase_setInode fs sector (some { node with openCnt := node.openCnt + 1 })).symm
      (J := fun _ fs' => Kept denials (bump extra sector) fs fs') ⟨?_, rfl⟩).bind
      fun _ fs' hkept => .pure ⟨rfl, hkept⟩
    refine h.setInode hdeny (fun hpos => ?_) hbump
    have hheld := h.held sector hpos
    unfold openCnt at hheld
    rw [hopen] at hheld
    unfold bump
    rw [Function.update_self]
    exact Nat.succ_lt_succ hheld

/-- A command that looks at an inode first. -/
theorem mirrors_inodeOf_bind {β : Type} {f g : Inode → FilesysM β} {K : β → Filesys → Prop}
    (h : ∀ node, fs.openInodes sector = some node → Mirrors erase fs (f node) (g node.erase) K) :
    Mirrors erase fs (inodeOf sector >>= f) (inodeOf sector >>= g) K := by
  cases hopen : fs.openInodes sector with
  | none =>
    have hstop (fs : Filesys) (hnone : fs.openInodes sector = none) :
        inodeOf sector fs = .error .wildPointer := by
      unfold inodeOf
      rw [Command.get_bind_apply, hnone]
      rfl
    unfold Mirrors
    rw [Command.bind_error (hstop fs hopen)]
    exact Command.bind_error (hstop fs.erase (openInodes_erase_none hopen))
  | some node =>
    have hnode := h node hopen
    unfold Mirrors at hnode ⊢
    rw [Command.bind_apply (inodeOf_eq hopen),
      Command.bind_apply (inodeOf_eq (openInodes_erase hopen))]
    exact hnode

/-- **A write to an inode without denials.** -/
theorem mirrors_inodeWriteAt (h : fs.Steady denials extra) (hsector : denials sector = 0)
    (buffer : ℕ → UInt8) (size : ℤ) (offset : ℕ) :
    Mirrors erase fs (inodeWriteAt sector buffer size offset)
      (inodeWriteAt sector buffer size offset) fun _ fs' => Kept denials extra fs fs' := by
  refine mirrors_inodeOf_bind fun node hnode => ?_
  have hzero : node.denyWriteCnt = 0 := by
    have hdeny := h.deny sector
    unfold denyCnt at hdeny
    rw [hnode] at hdeny
    exact hdeny.trans hsector
  have hzero' : node.erase.denyWriteCnt = 0 := rfl
  rw [if_neg (not_not.mpr hzero), if_neg (not_not.mpr hzero')]
  exact .get_bind (.bind (.modify rfl ⟨h.congr rfl rfl, rfl⟩) fun _ _ hkept => .pure hkept)

theorem mirrors_inodeRemove (h : fs.Steady denials extra) (sector : ℕ) :
    Mirrors erase fs (inodeRemove sector) (inodeRemove sector)
      fun _ fs' => Kept denials extra fs fs' := by
  refine mirrors_inodeOf_bind fun node hnode => .modify
    (erase_setInode fs sector (some { node with removed := true })).symm ⟨?_, rfl⟩
  have hdeny := h.deny sector
  unfold denyCnt at hdeny
  rw [hnode] at hdeny
  refine h.setInode hdeny (fun hpos => ?_) fun _ _ => rfl
  have hheld := h.held sector hpos
  unfold openCnt at hheld
  rw [hnode] at hheld
  exact hheld

/-! ## The free map -/

theorem mirrors_bitmapWrite (h : fs.Steady denials extra) {file : File}
    (hfile : file.inode = freeMapSector) : Mirrors erase fs (bitmapWrite file) (bitmapWrite file)
      fun _ fs' => Kept denials extra fs fs' := by
  have hzero : denials file.inode = 0 := by
    rw [hfile]
    exact h.map
  unfold bitmapWrite
  exact .get_bind ((mirrors_inodeWriteAt h hzero _ _ _).bind fun _ _ hkept => .pure hkept)

theorem Kept.trans {extra' : ℕ → ℕ} {fs₁ fs₂ : Filesys} (h : Kept denials extra fs fs₁)
    (h' : Kept denials extra' fs₁ fs₂) : Kept denials extra' fs fs₂ :=
  ⟨h'.1, h'.2.trans h.2⟩

theorem Kept.congr {fs₁ fs₂ : Filesys} (h : Kept denials extra fs fs₁)
    (hinodes : fs₂.openInodes = fs₁.openInodes) (hmap : fs₂.freeMapFile = fs₁.freeMapFile)
    (hfiles : fs₂.files = fs₁.files) : Kept denials extra fs fs₂ :=
  ⟨h.1.congr hinodes hmap, hfiles.trans h.2⟩

theorem mirrors_freeMapAllocate (h : fs.Steady denials extra) (cnt : ℕ) :
    Mirrors erase fs (freeMapAllocate cnt) (freeMapAllocate cnt)
      fun _ fs' => Kept denials extra fs fs' := by
  unfold freeMapAllocate
  refine .get_bind ?_
  dsimp only [erase]
  cases bitmapScan fs.freeMap 0 cnt false with
  | none => exact .pure ⟨h, rfl⟩
  | some sector =>
    refine .bind (J := fun _ fs' => Kept denials extra fs fs') (.modify rfl ⟨h.congr rfl rfl, rfl⟩)
      fun _ fs₁ hkept => ?_
    cases hmap : fs.freeMapFile with
    | none => exact .pure hkept
    | some file =>
      refine (mirrors_bitmapWrite hkept.1 (h.mapFile file hmap)).bind fun written fs₂ hkept₂ => ?_
      refine .ite (fun _ => .pure (hkept.trans hkept₂)) fun _ => ?_
      have hback : Kept denials extra fs (fs₂.setBits sector cnt false) :=
        (hkept.trans hkept₂).congr rfl rfl rfl
      exact .bind (.modify rfl hback) fun _ _ hkept₃ => .pure hkept₃

theorem mirrors_freeMapRelease (h : fs.Steady denials extra) (sector cnt : ℕ) :
    Mirrors erase fs (freeMapRelease sector cnt) (freeMapRelease sector cnt)
      fun _ fs' => Kept denials extra fs fs' := by
  unfold freeMapRelease
  refine .get_bind (.ite (fun _ => ?_) fun _ => .stop _)
  refine .bind (J := fun _ fs' => Kept denials extra fs fs') (.modify rfl ⟨h.congr rfl rfl, rfl⟩)
    fun _ fs₁ hkept => ?_
  dsimp only [erase]
  cases hmap : fs.freeMapFile with
  | none => exact .stop _
  | some file =>
    exact (mirrors_bitmapWrite hkept.1 (h.mapFile file hmap)).bind
      fun _ _ hkept₂ => .pure (hkept.trans hkept₂)

theorem mirrors_inodeCreate (h : fs.Steady denials extra) (sector : ℕ) (length : Int32) :
    Mirrors erase fs (inodeCreate sector length) (inodeCreate sector length)
      fun _ fs' => Kept denials extra fs fs' := by
  unfold inodeCreate
  refine .ite (fun _ => .stop _) fun _ => ?_
  refine (mirrors_freeMapAllocate h _).bind fun start fs₁ hkept => ?_
  cases start with
  | none => exact .pure hkept
  | some start =>
    have hwritten : Kept denials extra fs
        { fs₁ with disk := writeInode fs₁.disk sector start length } := hkept.congr rfl rfl rfl
    exact .bind (.modify rfl hwritten) fun _ _ hkept₂ => .pure hkept₂

/-- **A pointer that an operation holds is given up.** An inode that has denials has
another opener. -/
theorem mirrors_inodeClose (h : fs.Steady denials (bump extra sector)) :
    Mirrors erase fs (inodeClose sector) (inodeClose sector)
      fun _ fs' => Kept denials extra fs fs' := by
  have hbump : ∀ t, t ≠ sector → extra t = bump extra sector t := fun t ht =>
    (Function.update_of_ne ht ..).symm
  refine mirrors_inodeOf_bind fun node hnode => ?_
  have hdeny := h.deny sector
  unfold denyCnt at hdeny
  rw [hnode] at hdeny
  have hheld : 0 < denials sector → extra sector + 1 < node.openCnt := fun hpos => by
    have hheld := h.held sector hpos
    unfold openCnt bump at hheld
    rw [hnode, Function.update_self] at hheld
    exact hheld
  refine .ite (fun hlast => ?_) fun hmore => ?_
  · have hzero : denials sector = 0 := by
      by_contra hne
      have := hheld (Nat.pos_of_ne_zero hne)
      change node.openCnt - 1 = 0 at hlast
      omega
    refine .bind (.modify (erase_setInode fs sector none).symm
      (J := fun _ fs' => Kept denials extra fs fs') ⟨?_, rfl⟩) fun _ fs₁ hkept => ?_
    · refine h.setInode hzero.symm (fun hpos => ?_) hbump
      rw [hzero] at hpos
      cases hpos
    · refine .ite (fun _ => ?_) fun _ => .pure hkept
      refine (mirrors_freeMapRelease hkept.1 _ _).bind fun _ fs₂ hkept₂ => ?_
      exact (mirrors_freeMapRelease hkept₂.1 _ _).mono
        fun _ _ hkept₃ => (hkept.trans hkept₂).trans hkept₃
  · refine .modify
      (erase_setInode fs sector (some { node with openCnt := node.openCnt - 1 })).symm ⟨?_, rfl⟩
    refine h.setInode hdeny (fun hpos => ?_) hbump
    exact Nat.lt_sub_of_add_lt (hheld hpos)

/-! ## The directory -/

theorem mirrors_scanDir (fs : Filesys) (dir : ℕ) (p : DirEntry → Bool) :
    Mirrors erase fs (scanDir dir p) (scanDir dir p) fun _ fs' => fs' = fs :=
  mirrors_inodeOf_bind fun _ _ => .get_bind (.pure rfl)

theorem mirrors_lookup (fs : Filesys) (dir : ℕ) (name : CString) :
    Mirrors erase fs (lookup dir name) (lookup dir name) fun _ fs' => fs' = fs :=
  (mirrors_scanDir fs dir _).bind fun _ _ hsame => .pure hsame

theorem mirrors_dirLookup (h : fs.Steady denials extra) (dir : ℕ) (name : CString) :
    Mirrors erase fs (dirLookup dir name) (dirLookup dir name) fun inode fs' =>
      Kept denials (inode.elim extra (bump extra)) fs fs' := by
  unfold dirLookup
  refine (mirrors_lookup fs dir name).bind ?_
  rintro found _ rfl
  cases found with
  | none => exact .pure ⟨h, rfl⟩
  | some found =>
    refine (mirrors_inodeOpen h _).bind ?_
    rintro inode fs₁ ⟨rfl, hkept⟩
    exact .pure hkept

theorem mirrors_writeEntry (h : fs.Steady denials extra) (e : DirEntry) (ofs : ℕ) :
    Mirrors erase fs (writeEntry rootDirSector e ofs) (writeEntry rootDirSector e ofs)
      fun _ fs' => Kept denials extra fs fs' :=
  (mirrors_inodeWriteAt h h.root _ _ _).bind fun _ _ hkept => .pure hkept

theorem mirrors_dirAdd (h : fs.Steady denials extra) (name : CString) (inodeSector : ℕ) :
    Mirrors erase fs (dirAdd rootDirSector name inodeSector)
      (dirAdd rootDirSector name inodeSector) fun _ fs' => Kept denials extra fs fs' := by
  unfold dirAdd
  refine .ite (fun _ => .pure ⟨h, rfl⟩) fun _ => ?_
  refine (mirrors_lookup fs _ name).bind ?_
  rintro found _ rfl
  cases found with
  | some _ => exact .pure ⟨h, rfl⟩
  | none =>
    refine (mirrors_scanDir _ _ _).bind ?_
    rintro ⟨found, ofs, e⟩ _ rfl
    exact mirrors_writeEntry h _ _

theorem mirrors_dirRemove (h : fs.Steady denials extra) (name : CString) :
    Mirrors erase fs (dirRemove rootDirSector name) (dirRemove rootDirSector name)
      fun _ fs' => Kept denials extra fs fs' := by
  unfold dirRemove
  refine (mirrors_lookup fs _ name).bind ?_
  rintro found _ rfl
  cases found with
  | none => exact .pure ⟨h, rfl⟩
  | some found =>
    refine (mirrors_inodeOpen h _).bind ?_
    rintro inode fs₁ ⟨rfl, hkept₁⟩
    refine (mirrors_writeEntry hkept₁.1 _ _).bind fun erased fs₂ hkept₂ => ?_
    have hclose (fs₃ : Filesys) (hkept₃ : Kept denials _ fs₂ fs₃) :
        Mirrors erase fs₃ (do inodeClose found.1.inodeSector.toNat; pure erased)
          (do inodeClose found.1.inodeSector.toNat; pure erased)
          fun _ fs' => Kept denials extra _ fs' :=
      (mirrors_inodeClose hkept₃.1).bind
        fun _ _ hkept₄ => .pure (((hkept₁.trans hkept₂).trans hkept₃).trans hkept₄)
    exact .ite (fun _ => (mirrors_inodeRemove hkept₂.1 _).bind fun _ => hclose)
      fun _ => hclose fs₂ ⟨hkept₂.1, rfl⟩

/-! ## The operations by name -/

/-- **`filesys_create`** does the same without denials. -/
theorem mirrors_filesysCreate (h : fs.Steady denials extra) (name : CString) (initialSize : Int32) :
    Mirrors erase fs (filesysCreate name initialSize) (filesysCreate name initialSize)
      fun _ fs' => Kept denials extra fs fs' := by
  unfold filesysCreate
  refine (mirrors_inodeOpen h _).bind ?_
  rintro dir fs₁ ⟨rfl, hkept₁⟩
  refine (mirrors_freeMapAllocate hkept₁.1 1).bind fun sector fs₂ hkept₂ => ?_
  cases sector with
  | none =>
    exact (mirrors_inodeClose hkept₂.1).bind
      fun _ _ hkept₃ => .pure ((hkept₁.trans hkept₂).trans hkept₃)
  | some inodeSector =>
    refine (mirrors_inodeCreate hkept₂.1 _ _).bind fun created fs₃ hkept₃ => ?_
    have hkept₃ := (hkept₁.trans hkept₂).trans hkept₃
    have hclose (success : Bool) (fs₅ : Filesys)
        (hkept₅ : Kept denials (bump extra rootDirSector) fs fs₅) :
        Mirrors erase fs₅ (do dirClose rootDirSector; pure success)
          (do dirClose rootDirSector; pure success) fun _ fs' => Kept denials extra fs fs' :=
      (mirrors_inodeClose hkept₅.1).bind fun _ _ hkept₆ => .pure (hkept₅.trans hkept₆)
    have hrelease (success : Bool) (fs₄ : Filesys)
        (hkept₄ : Kept denials (bump extra rootDirSector) fs fs₄) :
        Mirrors erase fs₄
          (if !success && inodeSector != 0 then do
            freeMapRelease inodeSector 1
            dirClose rootDirSector
            pure success
          else do
            dirClose rootDirSector
            pure success)
          (if !success && inodeSector != 0 then do
            freeMapRelease inodeSector 1
            dirClose rootDirSector
            pure success
          else do
            dirClose rootDirSector
            pure success)
          fun _ fs' => Kept denials extra fs fs' :=
      .ite (fun _ => (mirrors_freeMapRelease hkept₄.1 _ _).bind
        fun _ fs₅ hkept₅ => hclose success fs₅ (hkept₄.trans hkept₅))
        fun _ => hclose success fs₄ hkept₄
    exact .ite (fun _ => (mirrors_dirAdd hkept₃.1 _ _).bind
      fun success fs₄ hkept₄ => hrelease success fs₄ (hkept₃.trans hkept₄))
      fun _ => hrelease false fs₃ hkept₃

/-- **`filesys_remove`** does the same without denials. -/
theorem mirrors_filesysRemove (h : fs.Steady denials extra) (name : CString) :
    Mirrors erase fs (filesysRemove name) (filesysRemove name)
      fun _ fs' => Kept denials extra fs fs' := by
  unfold filesysRemove
  refine (mirrors_inodeOpen h _).bind ?_
  rintro dir fs₁ ⟨rfl, hkept₁⟩
  refine (mirrors_dirRemove hkept₁.1 name).bind fun success fs₂ hkept₂ => ?_
  exact (mirrors_inodeClose hkept₂.1).bind
    fun _ _ hkept₃ => .pure ((hkept₁.trans hkept₂).trans hkept₃)

/-- **`filesys_open`** does the same without denials. The new file denies nothing. -/
theorem mirrors_filesysOpen (h : fs.Steady denials extra) (name : CString) :
    Mirrors erase fs (filesysOpen name) (filesysOpen name) fun file fs' =>
      match file with
      | none => Kept denials extra fs fs'
      | some file => file = fs.files.length
        ∧ ∃ inode, fs'.Steady denials (bump extra inode)
          ∧ fs'.files = fs.files ++ [some ⟨inode, 0, false⟩] := by
  unfold filesysOpen
  refine (mirrors_inodeOpen h _).bind ?_
  rintro dir fs₁ ⟨rfl, hkept₁⟩
  refine (mirrors_dirLookup hkept₁.1 _ name).bind fun inode fs₂ hkept₂ => ?_
  cases inode with
  | none =>
    exact (mirrors_inodeClose hkept₂.1).bind
      fun _ fs₃ hkept₃ => .pure ((hkept₁.trans hkept₂).trans hkept₃)
  | some inode =>
    have hcomm : bump (bump extra rootDirSector) inode = bump (bump extra inode) rootDirSector :=
      bump_comm ..
    have hkept₂ : Kept denials (bump (bump extra inode) rootDirSector) fs₁ fs₂ := hcomm ▸ hkept₂
    refine (mirrors_inodeClose hkept₂.1).bind fun _ fs₃ hkept₃ => ?_
    have hkept := (hkept₁.trans hkept₂).trans hkept₃
    refine .get_bind ?_
    have hlength : fs₃.erase.files.length = fs₃.files.length := List.length_map _
    rw [hlength, hkept.2]
    refine .bind (.modify (J := fun _ fs' => fs'.Steady denials (bump extra inode)
      ∧ fs'.files = fs.files ++ [some ⟨inode, 0, false⟩]) ?_ ⟨?_, ?_⟩)
      fun _ _ hopened => .pure ⟨rfl, inode, hopened⟩
    · have hfiles : (fs₃.files ++ [some (File.mk inode 0 false)]).map (Option.map File.erase)
          = fs₃.erase.files ++ [some (File.mk inode 0 false)] := List.map_append
      exact congrArg fs₃.erase.setFiles hfiles.symm
    · exact Steady.congr hkept.1 rfl rfl
    · exact congrArg (· ++ _) hkept.2

end

end Pintos
