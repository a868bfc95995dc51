import Cs162.FilesysCommands

/-!
# Formatting the file system

Formatting creates the file of the free map and then the root directory, whose
entries are all zero. The free map is closed and opened again, so what is used from
then on is what was read back from the disk: the map as it was saved last.
-/

namespace Pintos

open Command (Ensures)

namespace Filesys

variable {blockSize : ℕ} {fs fs' : Filesys} {sector : ℕ}

/-- Setting up may panic in any way. -/
def anyPanic (_ : FilesysPanic) : Prop := True

theorem inodeOpen_of_none (h : fs.openInodes sector = none) : inodeOpen sector fs
      = .ok (sector, fs.setInode sector (some ⟨sector, 1, false, 0, inodeAt fs.disk sector⟩)) := by
  unfold inodeOpen
  rw [Command.get_bind_apply, h]
  rfl

/-! ## Creating inodes -/

/-- Allocating before the free map has a file. -/
theorem freeMapAllocate_of_none (h : fs.freeMapFile = none) (cnt : ℕ) :
    Ensures anyPanic fs (freeMapAllocate cnt) fun result fs' => ∀ start, result = some start →
      bitmapScan fs.freeMap 0 cnt false = some start ∧ fs' = fs.setBits start cnt true := by
  unfold freeMapAllocate
  refine .get_bind ?_
  cases bitmapScan fs.freeMap 0 cnt false with
  | none => exact .pure nofun
  | some start =>
    rw [h]
    refine .modify_bind (.pure fun start' heq => ?_)
    cases heq
    exact ⟨rfl, rfl⟩

/-- Allocating saves the free map in its file. -/
theorem freeMapAllocate_of_some {file : File} {node : Inode} (hfile : fs.freeMapFile = some file)
    (hnode : fs.openInodes file.inode = some node) (hdeny : node.denyWriteCnt = 0)
    (hlength : node.data.length.toInt = byteCnt fs.freeMap.length) (cnt : ℕ) :
    Ensures anyPanic fs (freeMapAllocate cnt) fun result fs' => ∀ start, result = some start →
      bitmapScan fs.freeMap 0 cnt false = some start
        ∧ fs' = (fs.setBits start cnt true).onDisk
          (writeAt fs.disk node.data (bitmapBytes (fs.setBits start cnt true).freeMap fs.unused)
            (byteCnt fs.freeMap.length) 0).1 := by
  unfold freeMapAllocate
  refine .get_bind ?_
  cases bitmapScan fs.freeMap 0 cnt false with
  | none => exact .pure nofun
  | some start =>
    rw [hfile]
    have hsize : (fs.setBits start cnt true).freeMap.length = fs.freeMap.length :=
      length_bitmapSetMultiple
    have hwrite : bitmapWrite file (fs.setBits start cnt true) = _ :=
      bitmapWrite_eq hnode hdeny (by rw [hsize]; exact hlength)
    refine .modify_bind (.bind_ok hwrite (.pure fun start' heq => ?_))
    cases heq
    rw [hsize]
    exact ⟨rfl, rfl⟩

/-- Creating an inode, whatever is allocated for it. -/
theorem inodeCreate_of_allocate {length : Int32} {Q : ℕ → Filesys → Prop}
    (h : Ensures anyPanic fs (freeMapAllocate (bytesToSectors length)) fun result fs' =>
      ∀ start, result = some start → Q start fs') :
    Ensures anyPanic fs (inodeCreate sector length) fun success fs' => success = true →
      ∃ start fs₁, Q start fs₁ ∧ fs' = fs₁.onDisk (writeInode fs₁.disk sector start length) := by
  unfold inodeCreate
  refine .ite (fun _ => .stop trivial) fun _ => h.bind fun result fs₁ hresult => ?_
  cases result with
  | none => exact .pure nofun
  | some start => exact .modify_bind (.pure fun _ => ⟨start, fs₁, hresult start rfl, rfl⟩)

/-! ## The free map -/

/-- **The free map has its file**, and it is open. -/
structure MapCreated (blockSize : ℕ) (fs : Filesys) : Prop where
  size : fs.freeMap.length = blockSize
  used : {freeMapSector, rootDirSector} ∪ (inodeAt fs.disk freeMapSector).extent
    ⊆ usedBits fs.freeMap
  placed : Placed blockSize freeMapSector (inodeAt fs.disk freeMapSector)
  apart : rootDirSector ∉ (inodeAt fs.disk freeMapSector).extent
  length : (inodeAt fs.disk freeMapSector).length.toInt = byteCnt blockSize
  file : fs.freeMapFile = some ⟨freeMapSector, 0, false⟩
  nodes : fs.openInodes = Function.update (fun _ => none) freeMapSector
    (some ⟨freeMapSector, 1, false, 0, inodeAt fs.disk freeMapSector⟩)
  files : fs.files = []

theorem toInt_byteCnt : (Int32.ofNat (byteCnt blockSize)).toInt = byteCnt blockSize := by
  unfold byteCnt
  refine Int32.toInt_ofNat_of_lt ?_
  omega

theorem extent_ofNat {start : ℕ} (length : Int32) (h : start < 2 ^ 32) :
    InodeDisk.extent ⟨.ofNat start, length⟩ = Set.Ico start (start + bytesToSectors length) := by
  unfold InodeDisk.extent
  rw [UInt32.toNat_ofNat_of_lt' h]

namespace MapCreated

theorem onDisk (h : fs.MapCreated blockSize) {disk : Disk}
    (hinode : inodeAt disk freeMapSector = inodeAt fs.disk freeMapSector) :
    (fs.onDisk disk).MapCreated blockSize where
  size := h.size
  used := by
    show _ ∪ (inodeAt disk freeMapSector).extent ⊆ _
    rw [hinode]
    exact h.used
  placed := by
    show Placed _ _ (inodeAt disk freeMapSector)
    rw [hinode]
    exact h.placed
  apart := by
    show _ ∉ (inodeAt disk freeMapSector).extent
    rw [hinode]
    exact h.apart
  length := by
    show (inodeAt disk freeMapSector).length.toInt = _
    rw [hinode]
    exact h.length
  file := h.file
  nodes := by
    show fs.openInodes = Function.update (fun _ => none) freeMapSector
      (some ⟨freeMapSector, 1, false, 0, inodeAt disk freeMapSector⟩)
    rw [hinode]
    exact h.nodes
  files := h.files

theorem setBits (h : fs.MapCreated blockSize) {start cnt : ℕ} (hle : start + cnt ≤ blockSize) :
    (fs.setBits start cnt true).MapCreated blockSize :=
  { h with
    size := length_bitmapSetMultiple.trans h.size
    used := by
      show _ ⊆ usedBits (bitmapSetMultiple fs.freeMap start cnt true)
      rw [usedBits_bitmapSetMultiple_true (by rw [h.size]; exact hle)]
      exact h.used.trans Set.subset_union_left }

theorem openInodes_eq (h : fs.MapCreated blockSize) : fs.openInodes freeMapSector
      = some ⟨freeMapSector, 1, false, 0, inodeAt fs.disk freeMapSector⟩ := by
  rw [h.nodes, Function.update_self]

theorem inodeAt_writeAt (h : fs.MapCreated blockSize) {buffer : ℕ → UInt8} {size : ℤ} :
    inodeAt (writeAt fs.disk (inodeAt fs.disk freeMapSector) buffer size 0).1 freeMapSector
      = inodeAt fs.disk freeMapSector :=
  congrArg InodeDisk.ofBytes (writeAt_of_notMem h.placed.2.1 h.placed.1)

end MapCreated

theorem freeMapCreate_spec (hsize : fs.freeMap.length = blockSize) (hsmall : blockSize < 2 ^ 32)
    (hused : {freeMapSector, rootDirSector} ⊆ usedBits fs.freeMap)
    (hfile : fs.freeMapFile = none) (hnodes : fs.openInodes = fun _ => none)
    (hfiles : fs.files = []) :
    Ensures anyPanic fs freeMapCreate fun _ fs' => fs'.MapCreated blockSize := by
  unfold freeMapCreate
  refine .get_bind ?_
  refine (inodeCreate_of_allocate (freeMapAllocate_of_none hfile _)).bind fun success fs₁ h₁ => ?_
  cases success with
  | false => exact .stop trivial
  | true =>
    obtain ⟨start, fs', ⟨hscan, rfl⟩, rfl⟩ := h₁ rfl
    obtain ⟨hle, -⟩ := bitmapScan_eq_some hscan
    have hfree := disjoint_usedBits_of_bitmapScan hscan
    have hnew : ∀ t ∈ ({freeMapSector, rootDirSector} : Set ℕ),
        t ∉ Set.Ico start (start + bytesToSectors _) := fun t ht hmem =>
      Set.disjoint_left.mp hfree hmem (hused ht)
    have hmarked := usedBits_bitmapSetMultiple_true hle
    rw [hsize] at hle hnew hmarked ⊢
    set length := Int32.ofNat (byteCnt blockSize) with hlength
    have hinode : inodeAt (writeInode fs.disk freeMapSector start length) freeMapSector
        = ⟨.ofNat start, length⟩ := inodeAt_writeInode (hnew _ (.inl rfl))
    have hlt : start < 2 ^ 32 := by omega
    have hextent := extent_ofNat length hlt
    refine .bind_ok (inodeOpen_of_none (by show fs.openInodes _ = none; rw [hnodes])) ?_
    refine .modify_bind ?_
    have hcreated : MapCreated blockSize
        { ((fs.setBits start (bytesToSectors length) true).onDisk
              (writeInode fs.disk freeMapSector start length)).setInode freeMapSector
            (some ⟨freeMapSector, 1, false, 0,
              inodeAt (writeInode fs.disk freeMapSector start length) freeMapSector⟩) with
          freeMapFile := some ⟨freeMapSector, 0, false⟩ } := by
      constructor
      case size => exact length_bitmapSetMultiple.trans hsize
      case used =>
        show _ ∪ (inodeAt (writeInode fs.disk _ _ _) _).extent
          ⊆ usedBits (bitmapSetMultiple fs.freeMap _ _ true)
        rw [hinode, hextent, hmarked]
        exact Set.union_subset_union_left _ hused
      case placed =>
        show Placed _ _ (inodeAt (writeInode fs.disk _ _ _) _)
        rw [hinode]
        refine ⟨?_, ?_, ?_⟩
        · rw [hextent]
          exact hnew _ (.inl rfl)
        · show 0 ≤ length.toInt
          rw [hlength, toInt_byteCnt]
          exact Int.natCast_nonneg _
        · show (UInt32.ofNat start).toNat + _ ≤ _
          rw [UInt32.toNat_ofNat_of_lt' hlt]
          exact hle
      case apart =>
        show _ ∉ (inodeAt (writeInode fs.disk _ _ _) _).extent
        rw [hinode, hextent]
        exact hnew _ (.inr rfl)
      case length =>
        show (inodeAt (writeInode fs.disk _ _ _) _).length.toInt = _
        rw [hinode]
        exact toInt_byteCnt
      case file => rfl
      case nodes =>
        show Function.update fs.openInodes _ _ = Function.update _ _ _
        rw [hnodes]
        rfl
      case files => exact hfiles
    have hwrite : bitmapWrite ⟨freeMapSector, 0, false⟩ _ = _ :=
      bitmapWrite_eq hcreated.openInodes_eq rfl (by rw [hcreated.size]; exact hcreated.length)
    exact .bind_ok hwrite (.pure (hcreated.onDisk hcreated.inodeAt_writeAt))

/-! ## The root directory -/

/-- **The file system has been formatted**: the root directory is there and empty, and the
free map has been saved. -/
structure Formatted (blockSize : ℕ) (fs : Filesys) : Prop extends fs.MapCreated blockSize where
  rootPlaced : Placed blockSize rootDirSector (inodeAt fs.disk rootDirSector)
  rootUsed : (inodeAt fs.disk rootDirSector).extent ⊆ usedBits fs.freeMap
  rootApart : Disjoint ({freeMapSector} ∪ (inodeAt fs.disk freeMapSector).extent)
    (inodeAt fs.disk rootDirSector).extent
  empty : ∀ t ∈ (inodeAt fs.disk rootDirSector).extent, fs.disk t = fun _ => 0
  rootLength : (inodeAt fs.disk rootDirSector).length.toInt = 16 * dirEntrySize
  saved : storedMap fs.disk blockSize = fs.freeMap

theorem dirCreate_spec (h : fs.MapCreated blockSize) (hsmall : blockSize + 31 < 2 ^ 32) :
    Ensures anyPanic fs (dirCreate rootDirSector 16) fun success fs' =>
      success = true → fs'.Formatted blockSize := by
  unfold dirCreate
  have hlength : (inodeAt fs.disk freeMapSector).length.toInt = byteCnt fs.freeMap.length := by
    rw [h.size]
    exact h.length
  refine (inodeCreate_of_allocate (freeMapAllocate_of_some h.file h.openInodes_eq rfl hlength
    _)).mono fun success fs' hsuccess htrue => ?_
  obtain ⟨start, fs₁, ⟨hscan, rfl⟩, rfl⟩ := hsuccess htrue
  obtain ⟨hle, -⟩ := bitmapScan_eq_some hscan
  have hfree := disjoint_usedBits_of_bitmapScan hscan
  have hmarked := usedBits_bitmapSetMultiple_true hle
  have hrootLength : ((16 : UInt32) * .ofNat dirEntrySize).toInt32.toInt = 16 * dirEntrySize := by
    decide
  generalize ((16 : UInt32) * .ofNat dirEntrySize).toInt32 = length at *
  rw [h.size] at hle
  set bits := bitmapSetMultiple fs.freeMap start (bytesToSectors length) true with hbits
  set data := inodeAt fs.disk freeMapSector with hdata
  set saved :=
    (writeAt fs.disk data (bitmapBytes bits fs.unused) (byteCnt fs.freeMap.length) 0).1
    with hsaved
  set disk := writeInode saved rootDirSector start length with hdisk
  have hnew : ∀ t ∈ {freeMapSector, rootDirSector} ∪ data.extent,
      t ∉ Set.Ico start (start + bytesToSectors length) := fun t ht hmem =>
    Set.disjoint_left.mp hfree hmem (h.used ht)
  have hroot : inodeAt disk rootDirSector = ⟨.ofNat start, length⟩ :=
    inodeAt_writeInode (hnew _ (.inl (.inr rfl)))
  have hlt : start < 2 ^ 32 := by omega
  have hextent : (inodeAt disk rootDirSector).extent
      = Set.Ico start (start + bytesToSectors length) := by
    rw [hroot]
    exact extent_ofNat length hlt
  have hmap : inodeAt disk freeMapSector = data := by
    have hkept : disk freeMapSector = saved freeMapSector :=
      writeInode_of_notMem (by decide) (hnew _ (.inl (.inl rfl)))
    exact (congrArg InodeDisk.ofBytes hkept).trans h.inodeAt_writeAt
  have hcreated : (((fs.setBits start (bytesToSectors length) true).onDisk saved).onDisk
      disk).MapCreated blockSize :=
    (h.setBits hle).onDisk hmap
  refine ⟨hcreated, ?_, ?_, ?_, ?_, ?_, ?_⟩
  · show Placed _ _ (inodeAt disk rootDirSector)
    refine ⟨?_, ?_, ?_⟩
    · rw [hextent]
      exact hnew _ (.inl (.inr rfl))
    · rw [hroot, hrootLength]
      exact Int.natCast_nonneg (16 * dirEntrySize)
    · rw [hroot]
      show (UInt32.ofNat start).toNat + _ ≤ _
      rw [UInt32.toNat_ofNat_of_lt' hlt]
      exact hle
  · show (inodeAt disk rootDirSector).extent ⊆ usedBits bits
    rw [hextent, hmarked]
    exact Set.subset_union_right
  · show Disjoint (_ ∪ (inodeAt disk freeMapSector).extent) (inodeAt disk rootDirSector).extent
    rw [hextent, hmap]
    refine Set.disjoint_left.mpr fun t ht => hnew t ?_
    exact ht.elim (fun hzero => .inl (.inl hzero)) .inr
  · intro t ht
    change t ∈ (inodeAt disk rootDirSector).extent at ht
    rw [hextent] at ht
    exact writeInode_of_mem ht
  · show (inodeAt disk rootDirSector).length.toInt = _
    rw [hroot]
    exact hrootLength
  · have hcnt : bits.length = blockSize := length_bitmapSetMultiple.trans h.size
    show storedMap disk blockSize = bits
    rw [← hcnt]
    refine storedMap_of_bytes fs.unused (by rw [hcnt]; exact hsmall) fun pos hpos => ?_
    rw [hcnt] at hpos
    have hpos' : (pos : ℤ) < data.length.toInt := by
      rw [h.length]
      exact_mod_cast hpos
    have hmem := sector_mem_extent h.placed.2.1 hpos'
    have hkept : byteAt disk data pos = byteAt saved data pos := by
      refine congrFun (writeInode_of_notMem (fun heq => ?_) (hnew _ (.inr hmem))) _
      rw [heq] at hmem
      exact h.apart hmem
    rw [hmap, hkept, hsaved, byteAt_writeAt, if_pos, Nat.sub_zero]
    unfold transferSize
    rw [h.length, h.size]
    omega

/-! ## The free map is read back -/

theorem freeMapClose_eq (h : fs.MapCreated blockSize) :
    freeMapClose fs = .ok ((), fs.setInode freeMapSector none) := by
  unfold freeMapClose
  rw [Command.get_bind_apply, h.file]
  show inodeClose freeMapSector fs = _
  unfold inodeClose
  rw [Command.bind_apply (inodeOf_eq h.openInodes_eq)]
  rfl

/-- **Reading the free map** replaces it by the bits in its file. -/
theorem bitmapRead_eq {node : Inode} (hnode : fs.openInodes freeMapSector = some node)
    (hdata : node.data = inodeAt fs.disk freeMapSector)
    (hlength : (inodeAt fs.disk freeMapSector).length.toInt = byteCnt fs.freeMap.length) :
    bitmapRead ⟨freeMapSector, 0, false⟩ fs
      = .ok (true, { fs with
          freeMap := storedMap fs.disk fs.freeMap.length, unused := fun _ => false }) := by
  have hall : transferSize node.data (byteCnt fs.freeMap.length) 0
      = byteCnt fs.freeMap.length := by
    unfold transferSize
    rw [hdata, hlength]
    omega
  have hbytes : readAt fs.disk node.data (byteCnt fs.freeMap.length) 0
      = (List.range (byteCnt fs.freeMap.length)).map (byteAt fs.disk node.data) := by
    rw [readAt_eq, hall]
    refine List.map_congr_left fun pos _ => ?_
    rw [Nat.zero_add]
  have hread : fileReadAt ⟨freeMapSector, 0, false⟩ (byteCnt fs.freeMap.length) 0 fs
      = .ok ((List.range (byteCnt fs.freeMap.length)).map (byteAt fs.disk node.data), fs) := by
    unfold fileReadAt inodeReadAt
    rw [Command.bind_apply (inodeOf_eq hnode), Command.get_bind_apply, hbytes]
    rfl
  unfold bitmapRead
  rw [Command.get_bind_apply, Command.bind_apply hread, if_pos (by simp), hdata]
  rfl

/-- The state after the free map is opened. -/
def opened (fs : Filesys) : Filesys :=
  { fs.setInode freeMapSector
      (some ⟨freeMapSector, 1, false, 0, inodeAt fs.disk freeMapSector⟩) with
    freeMap := storedMap fs.disk fs.freeMap.length
    unused := fun _ => false
    freeMapFile := some ⟨freeMapSector, 0, false⟩ }

/-- **Opening the free map.** -/
theorem freeMapOpen_eq (hnone : fs.openInodes freeMapSector = none)
    (hlength : (inodeAt fs.disk freeMapSector).length.toInt = byteCnt fs.freeMap.length) :
    freeMapOpen fs = .ok ((), fs.opened) := by
  let fs₁ : Filesys :=
    { fs.setInode freeMapSector
        (some ⟨freeMapSector, 1, false, 0, inodeAt fs.disk freeMapSector⟩) with
      freeMapFile := some ⟨freeMapSector, 0, false⟩ }
  have hnode : fs₁.openInodes freeMapSector
      = some ⟨freeMapSector, 1, false, 0, inodeAt fs.disk freeMapSector⟩ :=
    Function.update_self freeMapSector _ fs.openInodes
  have hread : bitmapRead ⟨freeMapSector, 0, false⟩ fs₁ = .ok (true, fs.opened) :=
    bitmapRead_eq hnode rfl hlength
  unfold freeMapOpen
  rw [Command.bind_apply (inodeOpen_of_none hnone)]
  show (bitmapRead ⟨freeMapSector, 0, false⟩ >>= _) fs₁ = _
  rw [Command.bind_apply hread]
  rfl

/-- **The invariant where nothing is open but the free map.** -/
theorem Inv.of_started {blockSize : ℕ} (hnodes : ∀ t, fs.openInodes t = if t = freeMapSector then
      some ⟨freeMapSector, 1, false, 0, inodeAt fs.disk freeMapSector⟩ else none)
    (hfiles : fs.files = []) (hfile : fs.freeMapFile = some ⟨freeMapSector, 0, false⟩)
    (hsize : fs.freeMap.length = blockSize) (hsmall : blockSize + 31 < 2 ^ 32)
    (htenure : Tenure fs.region ∅ (usedBits fs.freeMap))
    (hplaced : ∀ o sector, fs.inodeSector o = some sector →
      Placed blockSize sector (inodeAt fs.disk sector))
    (hmap : (inodeAt fs.disk freeMapSector).length.toInt = byteCnt blockSize)
    (hroot : (inodeAt fs.disk rootDirSector).length.toInt = 16 * dirEntrySize)
    (hsaved : storedMap fs.disk blockSize = fs.freeMap) :
    fs.Inv blockSize ∅ fun sector => if sector = freeMapSector then 1 else 0 := by
  refine ⟨hsize, hsmall, htenure, hplaced, hmap, hroot, hsaved, ⟨_, hfile, rfl⟩, Nat.one_pos,
    fun t node hnode => ?_, fun t ht => ?_, fun t => ?_, fun file hmem => ?_⟩
  · rw [hnodes] at hnode
    split at hnode
    · rename_i ht
      cases hnode
      rw [ht]
      exact ⟨rfl, rfl, rfl, Nat.one_pos⟩
    · cases hnode
  · rw [hnodes] at ht
    split at ht
    · rename_i heq
      exact ⟨.freeMap, by rw [heq]; rfl⟩
    · cases ht
  · rw [hnodes]
    split <;> rfl
  · rw [hfiles] at hmem
    cases hmem

/-- The state after formatting and opening the free map again. -/
def reopened (fs : Filesys) : Filesys :=
  { (fs.setInode freeMapSector none).setInode freeMapSector
      (some ⟨freeMapSector, 1, false, 0, inodeAt fs.disk freeMapSector⟩) with
    unused := fun _ => false
    freeMapFile := some ⟨freeMapSector, 0, false⟩ }

theorem Formatted.opened_eq (h : fs.Formatted blockSize) :
    (fs.setInode freeMapSector none).opened = fs.reopened := by
  have hsaved : storedMap fs.disk fs.freeMap.length = fs.freeMap := by
    rw [h.size]
    exact h.saved
  show Filesys.mk _ (storedMap fs.disk fs.freeMap.length) _ _ _ _ _ = Filesys.mk _ fs.freeMap ..
  rw [hsaved]
  rfl

/-! ## A formatted file system -/

namespace Formatted

theorem entrySector_eq_none (h : fs.Formatted blockSize) (k : ℕ) :
    entrySector fs.disk k = none := by
  unfold entrySector
  rw [if_neg]
  rintro ⟨hfits, huse⟩
  have hpos : ((dirEntrySize * k + 19 : ℕ) : ℤ)
      < (inodeAt fs.disk rootDirSector).length.toInt := by
    unfold dirEntrySize at *
    omega
  have hzero := h.empty _ (sector_mem_extent h.rootPlaced.2.1 hpos)
  have hbyte : byteAt fs.disk (inodeAt fs.disk rootDirSector) (dirEntrySize * k + 19) = 0 :=
    congrFun hzero _
  have hunused : (entryAt fs.disk (inodeAt fs.disk rootDirSector) k).inUse = false := by
    show (byteAt _ _ _ != 0) = false
    rw [hbyte]
    rfl
  rw [hunused] at huse
  cases huse

theorem openInodes_reopened (h : fs.Formatted blockSize) (t : ℕ) : fs.reopened.openInodes t
      = if t = freeMapSector then
          some ⟨freeMapSector, 1, false, 0, inodeAt fs.disk freeMapSector⟩
        else none := by
  show Function.update (Function.update fs.openInodes _ _) _ _ t = _
  rw [h.nodes, Function.update_idem, Function.update_idem, Function.update_apply]

/-- Only the free map and the root directory own sectors. -/
theorem inodeSector_reopened (h : fs.Formatted blockSize) {o : Owner}
    (ho : fs.reopened.inodeSector o = some sector) :
    o = .freeMap ∧ sector = freeMapSector ∨ o = .rootDir ∧ sector = rootDirSector := by
  cases o with
  | freeMap => exact .inl ⟨rfl, (Option.some.inj ho).symm⟩
  | rootDir => exact .inr ⟨rfl, (Option.some.inj ho).symm⟩
  | entry k =>
    rw [show fs.reopened.inodeSector (.entry k) = none from h.entrySector_eq_none k] at ho
    cases ho
  | removed t =>
    change (if (fs.reopened.openInodes t).any Inode.removed then some t else none) = _ at ho
    rw [h.openInodes_reopened] at ho
    split at ho <;> cases ho

theorem region_reopened (h : fs.Formatted blockSize) {o : Owner} {t : ℕ}
    (ht : t ∈ fs.reopened.region o) : o = .freeMap ∧ t ∈ sectorsAt fs.disk freeMapSector
      ∨ o = .rootDir ∧ t ∈ sectorsAt fs.disk rootDirSector := by
  cases ho : fs.reopened.inodeSector o with
  | none =>
    rw [region_eq_empty ho] at ht
    cases ht
  | some s =>
    rw [region_eq ho] at ht
    rcases h.inodeSector_reopened ho with ⟨hown, rfl⟩ | ⟨hown, rfl⟩
    · exact .inl ⟨hown, ht⟩
    · exact .inr ⟨hown, ht⟩

theorem disjoint_sectorsAt (h : fs.Formatted blockSize) {t : ℕ}
    (hmap : t ∈ sectorsAt fs.disk freeMapSector) : t ∉ sectorsAt fs.disk rootDirSector := by
  rintro (hroot | hroot)
  · rcases hmap with hzero | hmap
    · rw [hroot] at hzero
      cases hzero
    · rw [hroot] at hmap
      exact h.apart hmap
  · exact Set.disjoint_left.mp h.rootApart hmap hroot

/-- **The invariant holds at the start.** -/
theorem inv (h : fs.Formatted blockSize) (hsmall : blockSize + 31 < 2 ^ 32) :
    fs.reopened.Inv blockSize ∅ fun sector => if sector = freeMapSector then 1 else 0 := by
  refine .of_started h.openInodes_reopened h.files rfl h.size hsmall ?_ ?_ h.length h.rootLength
    h.saved
  · constructor
    case disjoint =>
      refine fun i j hne => Set.disjoint_left.mpr fun t hi hj => ?_
      rcases h.region_reopened hi with ⟨rfl, hi⟩ | ⟨rfl, hi⟩ <;>
        rcases h.region_reopened hj with ⟨rfl, hj⟩ | ⟨rfl, hj⟩
      · exact hne rfl
      · exact h.disjoint_sectorsAt hi hj
      · exact h.disjoint_sectorsAt hj hi
      · exact hne rfl
    case disjoint_reserved => exact fun o => Set.disjoint_empty _
    case own_used =>
      intro o t ht
      rcases h.region_reopened ht with ⟨-, hmap⟩ | ⟨-, hroot⟩
      · exact h.used (hmap.imp_left .inl)
      · rcases hroot with rfl | hroot
        · exact h.used (.inl (.inr rfl))
        · exact h.rootUsed hroot
    case reserved_used => exact Set.empty_subset _
  · intro o t ho
    rcases h.inodeSector_reopened ho with ⟨-, rfl⟩ | ⟨-, rfl⟩
    · exact h.placed
    · exact h.rootPlaced

end Formatted

theorem doFormat_spec (hsize : fs.freeMap.length = blockSize) (hsmall : blockSize + 31 < 2 ^ 32)
    (hused : {freeMapSector, rootDirSector} ⊆ usedBits fs.freeMap)
    (hfile : fs.freeMapFile = none) (hnodes : fs.openInodes = fun _ => none)
    (hfiles : fs.files = []) : Ensures anyPanic fs doFormat fun _ fs' =>
      ∃ fs₁ : Filesys, fs₁.Formatted blockSize ∧ fs' = fs₁.setInode freeMapSector none := by
  unfold doFormat
  refine (freeMapCreate_spec hsize (by omega) hused hfile hnodes hfiles).bind fun _ fs₁ h₁ => ?_
  refine (dirCreate_spec h₁ hsmall).bind fun success fs₂ h₂ => ?_
  cases success with
  | false => exact .stop trivial
  | true => exact .ok (freeMapClose_eq (h₂ rfl).toMapCreated) ⟨fs₂, h₂ rfl, rfl⟩

/-- A device of one sector has no room for the file of the free map. -/
theorem freeMapCreate_of_one (hbits : fs.freeMap = [true]) (hfile : fs.freeMapFile = none)
    {Q : Unit → Filesys → Prop} : Ensures anyPanic fs freeMapCreate Q := by
  have hnone : bitmapScan fs.freeMap 0
      (bytesToSectors (.ofNat (byteCnt fs.freeMap.length))) false = none := by
    rw [hbits]
    decide
  unfold freeMapCreate
  refine .get_bind ?_
  refine (inodeCreate_of_allocate (freeMapAllocate_of_none hfile _)).bind fun success fs₁ h₁ => ?_
  cases success with
  | false => exact .stop trivial
  | true =>
    obtain ⟨start, _, ⟨hscan, -⟩, -⟩ := h₁ rfl
    rw [hnone] at hscan
    cases hscan

/-- The bits of a device on which only the two fixed inodes are in use. -/
theorem subset_usedBits_marked (h : 2 ≤ blockSize) : {freeMapSector, rootDirSector}
      ⊆ usedBits (((List.replicate blockSize false).set freeMapSector true).set
          rootDirSector true) := by
  rintro t (rfl | rfl)
  · show (List.set _ rootDirSector true)[freeMapSector]? = some true
    rw [List.getElem?_set_ne (by decide), List.getElem?_set_self]
    rw [List.length_replicate]
    exact Nat.lt_of_succ_lt h
  · show (List.set _ rootDirSector true)[rootDirSector]? = some true
    rw [List.getElem?_set_self]
    rw [List.length_set, List.length_replicate]
    exact h

/-- **Formatting.** -/
theorem filesysInit_spec (blockSize : UInt32) (disk : Disk) (unused : ℕ → Bool) :
    Ensures anyPanic (boot disk unused) (filesysInit blockSize true) fun _ fs =>
      blockSize.toNat + 31 < 2 ^ 32
        ∧ ∃ fs₁ : Filesys, fs₁.Formatted blockSize.toNat ∧ fs = fs₁.reopened := by
  unfold filesysInit freeMapInit
  refine .modify_bind ?_
  by_cases hbytes : byteCnt blockSize.toNat = 0
  · rw [if_pos hbytes]
    exact .stop trivial
  rw [if_neg hbytes]
  refine .modify_bind ?_
  have hsmall : 0 < blockSize.toNat ∧ blockSize.toNat + 31 < 2 ^ 32 := by
    have hlt : blockSize.toNat < 2 ^ 32 := blockSize.toNat_lt
    unfold byteCnt at hbytes
    omega
  rw [if_pos rfl]
  refine Ensures.bind (Q := fun _ fs' => ∃ fs₁ : Filesys, fs₁.Formatted blockSize.toNat
    ∧ fs' = fs₁.setInode freeMapSector none) ?_ ?_
  · by_cases hone : blockSize.toNat = 1
    · unfold doFormat
      refine (freeMapCreate_of_one ?_ rfl).bind fun _ _ => False.elim
      rw [hone]
      rfl
    · refine doFormat_spec ?_ hsmall.2 (subset_usedBits_marked (by omega)) rfl rfl rfl
      rw [List.length_set, List.length_set, List.length_replicate]
  · rintro - - ⟨fs₁, h₁, rfl⟩
    have hopen : freeMapOpen (fs₁.setInode freeMapSector none) = _ :=
      freeMapOpen_eq openInodes_setInode_self (h₁.length.trans (by rw [← h₁.size]; rfl))
    exact .ok hopen ⟨hsmall.2, fs₁, h₁, h₁.opened_eq⟩

end Filesys

end Pintos
