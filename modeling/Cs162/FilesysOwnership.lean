import Cs162.Filesys
import Cs162.Tenure

/-!
# Who owns which sectors

A sector belongs to the free map, to the root directory, to a file that is named in
the directory, or to a file that was removed and is still open. Each owner holds
the sector of its inode and the extent of its data. The invariant says that this is
a tenure of the device in the sense of `Tenure`, with the free map as the record of
what is in use, and that the inodes in memory agree with those on disk and know
their openers.

The invariant is kept command by command. In the middle of an operation some
sectors belong to nobody yet, or no longer: they are the reserved ones. A pointer
to an inode that is held by a function, and not by a file, counts as an opener too.
-/

namespace Pintos

open Command (Ensures)

/-- The inode in a sector of the disk. -/
def inodeAt (disk : Disk) (sector : ℕ) : InodeDisk := .ofBytes (disk sector)

/-- The bits in the file of the free map. -/
def storedMap (disk : Disk) (bitCnt : ℕ) : List Bool :=
  bitmapOfBytes bitCnt
    ((List.range (byteCnt bitCnt)).map (byteAt disk (inodeAt disk freeMapSector)))

/-- An entry of a directory. -/
def entryAt (disk : Disk) (data : InodeDisk) (k : ℕ) : DirEntry :=
  .ofBytes fun i => byteAt disk data (dirEntrySize * k + i)

/-- The inode sector that an entry of the root directory names. -/
def entrySector (disk : Disk) (k : ℕ) : Option ℕ :=
  if dirEntrySize * (k + 1) ≤ (inodeAt disk rootDirSector).length.toInt.toNat
      ∧ (entryAt disk (inodeAt disk rootDirSector) k).inUse then
    some (entryAt disk (inodeAt disk rootDirSector) k).inodeSector.toNat
  else none

/-- **The owners of sectors.** -/
inductive Owner
  | freeMap
  | rootDir
  /-- The file that an entry of the root directory names. -/
  | entry (k : ℕ)
  /-- A file that was removed and is still open, by the sector of its inode. -/
  | removed (sector : ℕ)
deriving DecidableEq

/-- The sector of an owner's inode. -/
def ownerSector (disk : Disk) (openInodes : ℕ → Option Inode) : Owner → Option ℕ
  | .freeMap => some freeMapSector
  | .rootDir => some rootDirSector
  | .entry k => entrySector disk k
  | .removed sector => if (openInodes sector).any Inode.removed then some sector else none

/-- The sectors of the file whose inode is in the given sector. -/
def sectorsAt (disk : Disk) (sector : ℕ) : Set ℕ := insert sector (inodeAt disk sector).extent

namespace Filesys

def inodeSector (fs : Filesys) : Owner → Option ℕ := ownerSector fs.disk fs.openInodes

/-- **The sectors of an owner.** -/
def region (fs : Filesys) (o : Owner) : Set ℕ :=
  (fs.inodeSector o).elim ∅ (sectorsAt fs.disk)

/-- A file: its inode is in the given sector. -/
def IsFile (fs : Filesys) (sector : ℕ) : Prop := ∃ o, fs.inodeSector o = some sector

end Filesys

/-- An inode whose extent is on the device and does not hold the inode itself. -/
def Placed (blockSize sector : ℕ) (data : InodeDisk) : Prop :=
  sector ∉ data.extent ∧ 0 ≤ data.length.toInt
    ∧ data.start.toNat + bytesToSectors data.length ≤ blockSize

/-- An inode in memory that agrees with the one on disk. -/
def Inode.Agrees (disk : Disk) (sector : ℕ) (node : Inode) : Prop :=
  node.sector = sector ∧ node.data = inodeAt disk sector ∧ node.denyWriteCnt = 0
    ∧ 0 < node.openCnt

/-- **The invariant of the file system**, with the sectors that are reserved and the
number of openers of every inode. -/
structure Filesys.Inv (blockSize : ℕ) (reserved : Set ℕ) (openers : ℕ → ℕ) (fs : Filesys) :
    Prop where
  size : fs.freeMap.length = blockSize
  small : blockSize + 31 < 2 ^ 32
  tenure : Tenure fs.region reserved (usedBits fs.freeMap)
  placed : ∀ o sector, fs.inodeSector o = some sector →
    Placed blockSize sector (inodeAt fs.disk sector)
  mapLength : (inodeAt fs.disk freeMapSector).length.toInt = byteCnt blockSize
  rootLength : (inodeAt fs.disk rootDirSector).length.toInt = 16 * dirEntrySize
  saved : storedMap fs.disk blockSize = fs.freeMap
  mapFile : ∃ file, fs.freeMapFile = some file ∧ file.inode = freeMapSector
  mapOpen : 0 < openers freeMapSector
  agrees : ∀ sector node, fs.openInodes sector = some node → node.Agrees fs.disk sector
  owned : ∀ sector, (fs.openInodes sector).isSome → fs.IsFile sector
  count : ∀ sector, (fs.openInodes sector).elim 0 Inode.openCnt = openers sector
  allowed : ∀ file, some file ∈ fs.files → file.denyWrite = false
    ∧ file.inode ≠ rootDirSector ∧ file.inode ≠ freeMapSector

/-- **The owners are the same**, and so are their inodes. -/
structure Filesys.Frame (fs fs' : Filesys) : Prop where
  sectors : fs'.inodeSector = fs.inodeSector
  inodes : ∀ o sector, fs.inodeSector o = some sector →
    inodeAt fs'.disk sector = inodeAt fs.disk sector

/-- **Every file is kept**, with its inode. -/
def Filesys.Keeps (fs fs' : Filesys) : Prop :=
  ∀ sector, fs.IsFile sector → fs'.IsFile sector ∧ inodeAt fs'.disk sector = inodeAt fs.disk sector

namespace Filesys

variable {fs fs' fs'' : Filesys}

theorem Keeps.trans (h : Keeps fs fs') (h' : Keeps fs' fs'') : Keeps fs fs'' := fun t ht =>
  ⟨(h' t (h t ht).1).1, (h' t (h t ht).1).2.trans (h t ht).2⟩

theorem Frame.keeps (h : Frame fs fs') : Keeps fs fs' := fun t ⟨o, ho⟩ =>
  ⟨⟨o, by rw [h.sectors]; exact ho⟩, h.inodes o t ho⟩

theorem Frame.refl (fs : Filesys) : Frame fs fs := ⟨rfl, fun _ _ _ => rfl⟩

theorem Frame.trans (h : Frame fs fs') (h' : Frame fs' fs'') : Frame fs fs'' where
  sectors := h'.sectors.trans h.sectors
  inodes o sector hs :=
    (h'.inodes o sector (by rw [h.sectors]; exact hs)).trans (h.inodes o sector hs)

theorem region_eq {o : Owner} {sector : ℕ} (h : fs.inodeSector o = some sector) :
    fs.region o = sectorsAt fs.disk sector := by
  unfold region
  rw [h]
  rfl

theorem region_eq_empty {o : Owner} (h : fs.inodeSector o = none) : fs.region o = ∅ := by
  unfold region
  rw [h]
  rfl

theorem mem_region {o : Owner} {sector : ℕ} (h : fs.inodeSector o = some sector) :
    sector ∈ fs.region o := by
  rw [region_eq h]
  exact Set.mem_insert _ _

theorem extent_subset_region {o : Owner} {sector : ℕ} (h : fs.inodeSector o = some sector) :
    (inodeAt fs.disk sector).extent ⊆ fs.region o := by
  rw [region_eq h]
  exact Set.subset_insert _ _

theorem Frame.region (h : Frame fs fs') : fs'.region = fs.region := by
  funext o
  unfold Filesys.region
  rw [h.sectors]
  cases hs : fs.inodeSector o with
  | none => rfl
  | some sector =>
    show sectorsAt fs'.disk sector = sectorsAt fs.disk sector
    unfold sectorsAt
    rw [h.inodes o sector hs]

end Filesys

/-! ## Entries of the root directory -/

/-- An entry is made of its twenty bytes. -/
theorem DirEntry.ofBytes_congr {byte byte' : ℕ → UInt8} (h : ∀ i < dirEntrySize, byte i = byte' i) :
    DirEntry.ofBytes byte = DirEntry.ofBytes byte' := by
  unfold DirEntry.ofBytes wordOf
  have hname : (List.range (nameMax + 1)).map (fun i => byte (4 + i))
      = (List.range (nameMax + 1)).map fun i => byte' (4 + i) := by
    refine List.map_congr_left fun i hi => h _ ?_
    rw [List.mem_range] at hi
    unfold nameMax dirEntrySize at *
    omega
  rw [hname, h 0 (by decide), h 1 (by decide), h 2 (by decide), h 3 (by decide),
    h 19 (by decide)]

@[simp] theorem DirEntry.inodeSector_ofBytes_bytes (e : DirEntry) :
    (DirEntry.ofBytes e.bytes).inodeSector = e.inodeSector :=
  wordOf_wordByte e.inodeSector

@[simp] theorem DirEntry.inUse_ofBytes_bytes (e : DirEntry) :
    (DirEntry.ofBytes e.bytes).inUse = e.inUse := by
  show ((if e.inUse then (1 : UInt8) else 0) != 0) = e.inUse
  cases e.inUse <;> rfl

section

variable {disk disk' : Disk} {data : InodeDisk} {k : ℕ}

/-- An entry in the file is read from the bytes of the file. -/
theorem entrySector_congr (hroot : inodeAt disk' rootDirSector = inodeAt disk rootDirSector)
    (hbyte : dirEntrySize * (k + 1) ≤ (inodeAt disk rootDirSector).length.toInt.toNat →
      ∀ i < dirEntrySize, byteAt disk' (inodeAt disk rootDirSector) (dirEntrySize * k + i)
        = byteAt disk (inodeAt disk rootDirSector) (dirEntrySize * k + i)) :
    entrySector disk' k = entrySector disk k := by
  unfold entrySector
  rw [hroot]
  by_cases hk : dirEntrySize * (k + 1) ≤ (inodeAt disk rootDirSector).length.toInt.toNat
  · have hentry : entryAt disk' (inodeAt disk rootDirSector) k
        = entryAt disk (inodeAt disk rootDirSector) k :=
      DirEntry.ofBytes_congr (hbyte hk)
    rw [hentry]
  · rw [if_neg fun h => hk h.1, if_neg fun h => hk h.1]

/-- Where a loop over the entries ends: at one that it looks for, or behind the
last entry. -/
def ScanEnds (disk : Disk) (data : InodeDisk) (p : DirEntry → Bool)
    (result : Bool × ℕ × DirEntry) : Prop :=
  ∃ j, result.2.1 = dirEntrySize * j
    ∧ (result.1 = true ∧ dirEntrySize * (j + 1) ≤ data.length.toInt.toNat
        ∧ result.2.2 = entryAt disk data j ∧ p (entryAt disk data j) = true
      ∨ result.1 = false ∧ data.length.toInt.toNat < dirEntrySize * (j + 1))

/-- An entry is read in full exactly where the file has all of it. -/
theorem length_readAt_entry :
    (readAt disk data dirEntrySize (dirEntrySize * k)).length = dirEntrySize
      ↔ dirEntrySize * (k + 1) ≤ data.length.toInt.toNat := by
  rw [readAt_eq, List.length_map, List.length_range]
  unfold transferSize dirEntrySize
  omega

/-- What is read then is the entry. -/
theorem ofBytes_readAt_entry (e : DirEntry)
    (h : (readAt disk data dirEntrySize (dirEntrySize * k)).length = dirEntrySize) :
    (DirEntry.ofBytes fun i =>
      (readAt disk data dirEntrySize (dirEntrySize * k)).getD i (e.bytes i))
      = entryAt disk data k := by
  refine DirEntry.ofBytes_congr fun i hi => ?_
  rw [List.getD_eq_getElem _ _ (by omega)]
  simp only [readAt_eq, List.getElem_map, List.getElem_range]

/-- **The loop over the entries** ends so. -/
theorem scanEntries_ends (p : DirEntry → Bool) {fuel : ℕ} {e : DirEntry}
    (hfuel : data.length.toInt.toNat / dirEntrySize < k + fuel) :
    ScanEnds disk data p (scanEntries disk data p fuel (dirEntrySize * k) e) := by
  induction fuel generalizing k e with
  | zero =>
    refine ⟨k, rfl, .inr ⟨rfl, ?_⟩⟩
    unfold dirEntrySize at *
    omega
  | succ fuel ih =>
    unfold scanEntries
    dsimp only
    split
    · rename_i hfull
      rw [ofBytes_readAt_entry e hfull]
      split
      · rename_i hp
        exact ⟨k, rfl, .inl ⟨rfl, length_readAt_entry.mp hfull, rfl, hp⟩⟩
      · exact ih (k := k + 1) (by omega)
    · rename_i hshort
      exact ⟨k, rfl, .inr ⟨rfl, not_le.mp fun hk => hshort (length_readAt_entry.mpr hk)⟩⟩

end

/-! ## Single changes of the state -/

namespace Filesys

variable {blockSize : ℕ} {reserved : Set ℕ} {openers : ℕ → ℕ} {fs fs' : Filesys} {sector : ℕ}

/-- Another disk. -/
def onDisk (fs : Filesys) (disk : Disk) : Filesys := { fs with disk := disk }

/-- **A write that touches no inode and no entry** changes no owner. -/
theorem Frame.onDisk {disk : Disk} {region : Set ℕ}
    (hdisk : ∀ sector, sector ∉ region → disk sector = fs.disk sector)
    (hinode : ∀ o sector, fs.inodeSector o = some sector → sector ∉ region)
    (hroot : 0 ≤ (inodeAt fs.disk rootDirSector).length.toInt)
    (hentries : Disjoint (inodeAt fs.disk rootDirSector).extent region) :
    Frame fs (fs.onDisk disk) := by
  have hsame : ∀ o sector, fs.inodeSector o = some sector →
      inodeAt disk sector = inodeAt fs.disk sector := fun o sector hs =>
    congrArg InodeDisk.ofBytes (hdisk sector (hinode o sector hs))
  refine ⟨funext fun o => ?_, hsame⟩
  cases o with
  | entry k =>
    refine entrySector_congr (hsame .rootDir rootDirSector rfl) fun hk i hi => ?_
    refine congrFun (hdisk _ (Set.disjoint_left.mp hentries (sector_mem_extent hroot ?_))) _
    unfold dirEntrySize at *
    omega
  | freeMap => rfl
  | rootDir => rfl
  | removed sector => rfl

@[simp] theorem openInodes_setInode_self {node : Option Inode} :
    (fs.setInode sector node).openInodes sector = node := Function.update_self _ _ _

theorem inodeSector_setInode_of_ne {node : Option Inode} {o : Owner} (h : o ≠ .removed sector) :
    (fs.setInode sector node).inodeSector o = fs.inodeSector o := by
  cases o with
  | removed t =>
    have ht : t ≠ sector := fun heq => h (by rw [heq])
    show (if (Function.update fs.openInodes sector node t).any Inode.removed then some t else none)
      = if (fs.openInodes t).any Inode.removed then some t else none
    rw [Function.update_of_ne ht]
  | freeMap => rfl
  | rootDir => rfl
  | entry k => rfl

theorem inodeSector_setInode_removed {node : Option Inode} :
    (fs.setInode sector node).inodeSector (.removed sector)
      = if node.any Inode.removed then some sector else none := by
  show (if (Function.update fs.openInodes sector node sector).any Inode.removed then some sector
    else none) = _
  rw [Function.update_self]

/-- **A change of an inode in memory** that leaves the mark of removal changes no
owner. -/
theorem Frame.setInode {node : Option Inode}
    (hremoved : node.any Inode.removed = (fs.openInodes sector).any Inode.removed) :
    Frame fs (fs.setInode sector node) := by
  refine ⟨funext fun o => ?_, fun _ _ _ => rfl⟩
  by_cases ho : o = .removed sector
  · subst ho
    rw [inodeSector_setInode_removed, hremoved]
    rfl
  · exact inodeSector_setInode_of_ne ho

namespace Inv

theorem unique (h : fs.Inv blockSize reserved openers) {o o' : Owner}
    (ho : fs.inodeSector o = some sector) (ho' : fs.inodeSector o' = some sector) : o = o' :=
  h.tenure.unique (mem_region ho) (mem_region ho')

theorem exists_node (h : fs.Inv blockSize reserved openers) (hopen : 0 < openers sector) :
    ∃ node, fs.openInodes sector = some node ∧ node.Agrees fs.disk sector
      ∧ node.openCnt = openers sector := by
  have hcount := h.count sector
  cases hnode : fs.openInodes sector with
  | none =>
    rw [hnode] at hcount
    exact absurd hcount (Nat.ne_of_lt hopen)
  | some node =>
    rw [hnode] at hcount
    exact ⟨node, rfl, h.agrees sector node hnode, hcount⟩

theorem openers_eq_zero (h : fs.Inv blockSize reserved openers) :
    openers sector = 0 ↔ fs.openInodes sector = none := by
  rw [← h.count sector]
  cases hnode : fs.openInodes sector with
  | none => exact iff_of_true rfl rfl
  | some node => exact iff_of_false (Nat.ne_of_gt (h.agrees sector node hnode).2.2.2) nofun

theorem isFile (h : fs.Inv blockSize reserved openers) (hopen : 0 < openers sector) :
    fs.IsFile sector := by
  obtain ⟨node, hnode, -⟩ := h.exists_node hopen
  exact h.owned sector (by rw [hnode]; rfl)

/-- **What only moves data keeps the invariant**, if the file of the free map agrees with
the free map. -/
theorem onDisk_of_saved (h : fs.Inv blockSize reserved openers) {disk : Disk}
    (hframe : Frame fs (fs.onDisk disk)) {bits : List Bool} {reserved' : Set ℕ}
    (hsize : bits.length = blockSize) (hsaved : storedMap disk blockSize = bits)
    (htenure : Tenure fs.region reserved' (usedBits bits)) :
    ({ fs with disk := disk, freeMap := bits } : Filesys).Inv blockSize reserved' openers where
  size := hsize
  small := h.small
  saved := hsaved
  tenure := by
    rw [show Filesys.region { fs with disk := disk, freeMap := bits } = fs.region from
      hframe.region]
    exact htenure
  placed o sector hs := by
    have hs' : fs.inodeSector o = some sector := by
      rw [← hframe.sectors]
      exact hs
    show Placed _ _ (inodeAt disk sector)
    rw [show inodeAt disk sector = _ from hframe.inodes o sector hs']
    exact h.placed o sector hs'
  mapLength := by
    show (inodeAt disk freeMapSector).length.toInt = _
    rw [show inodeAt disk freeMapSector = _ from hframe.inodes .freeMap freeMapSector rfl]
    exact h.mapLength
  rootLength := by
    show (inodeAt disk rootDirSector).length.toInt = _
    rw [show inodeAt disk rootDirSector = _ from hframe.inodes .rootDir rootDirSector rfl]
    exact h.rootLength
  mapFile := h.mapFile
  mapOpen := h.mapOpen
  agrees sector node hnode := by
    obtain ⟨o, hs⟩ := h.owned sector (by
      rw [show fs.openInodes sector = some node from hnode]
      rfl)
    obtain ⟨hsector, hdata, hrest⟩ := h.agrees sector node hnode
    exact ⟨hsector, hdata.trans (hframe.inodes o sector hs).symm, hrest⟩
  owned sector hsome := (hframe.keeps sector (h.owned sector hsome)).1
  count := h.count
  allowed := h.allowed

/-- **A write outside the file of the free map** leaves the bits that are stored. -/
theorem storedMap_eq (h : fs.Inv blockSize reserved openers) {disk : Disk}
    (hinode : inodeAt disk freeMapSector = inodeAt fs.disk freeMapSector)
    (hoff : ∀ t ∈ (inodeAt fs.disk freeMapSector).extent, disk t = fs.disk t) :
    storedMap disk blockSize = fs.freeMap := by
  rw [← h.saved]
  unfold storedMap
  rw [hinode]
  refine congrArg _ (List.map_congr_left fun pos hpos => congrFun (hoff _ ?_) _)
  refine sector_mem_extent (h.placed .freeMap freeMapSector rfl).2.1 ?_
  rw [h.mapLength]
  exact_mod_cast List.mem_range.mp hpos

theorem onDisk (h : fs.Inv blockSize reserved openers) {disk : Disk}
    (hframe : Frame fs (fs.onDisk disk))
    (hoff : ∀ t ∈ (inodeAt fs.disk freeMapSector).extent, disk t = fs.disk t) :
    (fs.onDisk disk).Inv blockSize reserved openers :=
  h.onDisk_of_saved hframe h.size
    (h.storedMap_eq (hframe.inodes .freeMap freeMapSector rfl) hoff) h.tenure

/-- **A write to the extent of a file** other than the root directory. -/
theorem frame_extent (h : fs.Inv blockSize reserved openers) {o : Owner} {disk : Disk}
    (ho : fs.inodeSector o = some sector) (hne : sector ≠ rootDirSector)
    (hdisk : ∀ t, t ∉ (inodeAt fs.disk sector).extent → disk t = fs.disk t) :
    Frame fs (fs.onDisk disk) := by
  have hroot : fs.inodeSector .rootDir = some rootDirSector := rfl
  refine Frame.onDisk hdisk (fun o' t ht hmem => ?_) (h.placed .rootDir _ hroot).2.1 ?_
  · have hsame : o' = o := h.tenure.unique (mem_region ht) (extent_subset_region ho hmem)
    subst hsame
    rw [ho] at ht
    cases ht
    exact (h.placed o' sector ho).1 hmem
  · refine (h.tenure.disjoint .rootDir o fun heq => hne ?_).mono (extent_subset_region hroot)
      (extent_subset_region ho)
    rw [← heq, hroot] at ho
    exact (Option.some.inj ho).symm

/-- Such a write is outside the file of the free map, if it is not to that file. -/
theorem off_extent (h : fs.Inv blockSize reserved openers) {o : Owner} {disk : Disk}
    (ho : fs.inodeSector o = some sector) (hne : sector ≠ freeMapSector)
    (hdisk : ∀ t, t ∉ (inodeAt fs.disk sector).extent → disk t = fs.disk t) :
    ∀ t ∈ (inodeAt fs.disk freeMapSector).extent, disk t = fs.disk t := by
  have hmap : fs.inodeSector .freeMap = some freeMapSector := rfl
  refine fun t ht => hdisk t fun hmem => hne ?_
  have hsame : o = .freeMap :=
    h.tenure.unique (extent_subset_region ho hmem) (extent_subset_region hmap ht)
  rw [hsame, hmap] at ho
  exact (Option.some.inj ho).symm

/-- **A write to reserved sectors.** -/
theorem frame_reserved (h : fs.Inv blockSize reserved openers) {disk : Disk}
    (hdisk : ∀ t, t ∉ reserved → disk t = fs.disk t) : Frame fs (fs.onDisk disk) := by
  have hroot : fs.inodeSector .rootDir = some rootDirSector := rfl
  refine Frame.onDisk hdisk (fun o t ht hmem => ?_) (h.placed .rootDir _ hroot).2.1
    ((h.tenure.disjoint_reserved .rootDir).mono_left (extent_subset_region hroot))
  exact Set.disjoint_left.mp (h.tenure.disjoint_reserved o) (mem_region ht) hmem

theorem off_reserved (h : fs.Inv blockSize reserved openers) {disk : Disk}
    (hdisk : ∀ t, t ∉ reserved → disk t = fs.disk t) :
    ∀ t ∈ (inodeAt fs.disk freeMapSector).extent, disk t = fs.disk t := by
  have hmap : fs.inodeSector .freeMap = some freeMapSector := rfl
  refine fun t ht => hdisk t fun hmem => ?_
  exact Set.disjoint_left.mp (h.tenure.disjoint_reserved _) (extent_subset_region hmap ht) hmem

/-- **A change of an inode in memory** that keeps the mark of removal. -/
theorem setInode (h : fs.Inv blockSize reserved openers) {node : Option Inode}
    (hremoved : node.any Inode.removed = (fs.openInodes sector).any Inode.removed)
    (hagrees : ∀ n, node = some n → n.Agrees fs.disk sector)
    (howned : node.isSome → fs.IsFile sector)
    (hmap : sector = freeMapSector → 0 < node.elim 0 Inode.openCnt) :
    (fs.setInode sector node).Inv blockSize reserved
      (Function.update openers sector (node.elim 0 Inode.openCnt)) := by
  have hframe := Frame.setInode hremoved
  have hnodes : (fs.setInode sector node).openInodes = Function.update fs.openInodes sector node :=
    rfl
  constructor
  case size => exact h.size
  case small => exact h.small
  case tenure =>
    rw [hframe.region]
    exact h.tenure
  case placed =>
    rw [hframe.sectors]
    exact h.placed
  case mapLength => exact h.mapLength
  case rootLength => exact h.rootLength
  case saved => exact h.saved
  case mapFile => exact h.mapFile
  case mapOpen =>
    by_cases hs : sector = freeMapSector
    · rw [← hs, Function.update_self]
      exact hmap hs
    · rw [Function.update_of_ne (Ne.symm hs)]
      exact h.mapOpen
  case agrees =>
    intro t n hn
    rw [hnodes] at hn
    by_cases ht : t = sector
    · subst ht
      rw [Function.update_self] at hn
      exact hagrees n hn
    · rw [Function.update_of_ne ht] at hn
      exact h.agrees t n hn
  case owned =>
    intro t hsome
    refine (hframe.keeps t ?_).1
    rw [hnodes] at hsome
    by_cases ht : t = sector
    · subst ht
      rw [Function.update_self] at hsome
      exact howned hsome
    · rw [Function.update_of_ne ht] at hsome
      exact h.owned t hsome
  case count =>
    intro t
    rw [hnodes]
    by_cases ht : t = sector
    · subst ht
      rw [Function.update_self, Function.update_self]
    · rw [Function.update_of_ne ht, Function.update_of_ne ht]
      exact h.count t
  case allowed => exact h.allowed

/-- **A change of the free map** and of what is reserved, once it is saved. -/
theorem setBits (h : fs.Inv blockSize reserved openers) {start cnt : ℕ} {value : Bool}
    {reserved' : Set ℕ} {disk : Disk} (hframe : Frame fs (fs.onDisk disk))
    (hsaved : storedMap disk blockSize = bitmapSetMultiple fs.freeMap start cnt value)
    (htenure : Tenure fs.region reserved'
      (usedBits (bitmapSetMultiple fs.freeMap start cnt value))) :
    ((fs.setBits start cnt value).onDisk disk).Inv blockSize reserved' openers :=
  h.onDisk_of_saved hframe (length_bitmapSetMultiple.trans h.size) hsaved htenure

/-- **The last opener of a removed file closes it**: its sectors have no owner any
more. -/
theorem resign (h : fs.Inv blockSize reserved openers)
    (hremoved : (fs.openInodes sector).any Inode.removed = true) :
    (fs.setInode sector none).Inv blockSize (reserved ∪ sectorsAt fs.disk sector)
      (Function.update openers sector 0) := by
  have howner : fs.inodeSector (.removed sector) = some sector := by
    show (if _ then some sector else none) = _
    rw [if_pos hremoved]
  have hnone : (fs.setInode sector none).inodeSector (.removed sector) = none :=
    inodeSector_setInode_removed
  have hsome : ∀ o t, (fs.setInode sector none).inodeSector o = some t →
      fs.inodeSector o = some t := fun o t ht => by
    by_cases ho : o = .removed sector
    · rw [ho, hnone] at ht
      cases ht
    · rwa [inodeSector_setInode_of_ne ho] at ht
  have hmap : freeMapSector ≠ sector := fun heq => by
    have hsame : Owner.freeMap = .removed sector := h.unique (by rw [← heq]; rfl) howner
    cases hsame
  have hnodes : (fs.setInode sector none).openInodes = Function.update fs.openInodes sector none :=
    rfl
  constructor
  case size => exact h.size
  case small => exact h.small
  case tenure =>
    rw [← region_eq howner]
    refine h.tenure.resign (.removed sector) (region_eq_empty hnone) fun o ho => ?_
    unfold Filesys.region
    rw [inodeSector_setInode_of_ne ho]
    exact subset_rfl
  case placed => exact fun o t ht => h.placed o t (hsome o t ht)
  case mapLength => exact h.mapLength
  case rootLength => exact h.rootLength
  case saved => exact h.saved
  case mapFile => exact h.mapFile
  case mapOpen =>
    rw [Function.update_of_ne hmap]
    exact h.mapOpen
  case agrees =>
    intro t node hnode
    rw [hnodes] at hnode
    by_cases ht : t = sector
    · subst ht
      rw [Function.update_self] at hnode
      cases hnode
    · rw [Function.update_of_ne ht] at hnode
      exact h.agrees t node hnode
  case owned =>
    intro t ht
    rw [hnodes] at ht
    by_cases hts : t = sector
    · subst hts
      rw [Function.update_self] at ht
      cases ht
    · rw [Function.update_of_ne hts] at ht
      obtain ⟨o, ho⟩ := h.owned t ht
      refine ⟨o, ?_⟩
      rw [inodeSector_setInode_of_ne, ho]
      rintro rfl
      rw [howner] at ho
      exact hts (Option.some.inj ho).symm
  case count =>
    intro t
    rw [hnodes]
    by_cases ht : t = sector
    · subst ht
      rw [Function.update_self, Function.update_self]
      rfl
    · rw [Function.update_of_ne ht, Function.update_of_ne ht]
      exact h.count t
  case allowed => exact h.allowed

/-- Less may be reserved. -/
theorem mono (h : fs.Inv blockSize reserved openers) {reserved' : Set ℕ}
    (hsub : reserved' ⊆ reserved) : fs.Inv blockSize reserved' openers :=
  { h with tenure := h.tenure.mono (fun _ => subset_rfl) hsub }

end Inv

end Filesys

end Pintos
