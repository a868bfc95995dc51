import Cs162.Bitmap
import Cs162.Command
import Cs162.CString
import Cs162.Inode

/-!
# The file system

The root directory is a file of entries that name inodes, and the free map is a
file with one bit for every sector of the device. Inodes are shared between their
openers and counted; a file that is removed keeps its sectors until its last
opener closes it, and then they go back to the free map.

The functions of `inode.c`, `free-map.c`, `directory.c`, `file.c` and `filesys.c`
are commands over the state of the file system. Memory allocation and device
transfers succeed. A failed assertion, a panic and the use of memory that is not
there are the errors.
-/

namespace Pintos

/-- **The inode in memory**, `struct inode`. -/
structure Inode where
  /-- The sector of the inode on disk. -/
  sector : ℕ
  /-- The number of openers. -/
  openCnt : ℕ
  /-- Whether it is to be deleted. -/
  removed : Bool
  /-- Zero where writes are allowed. -/
  denyWriteCnt : ℕ
  /-- The content of the inode on disk. -/
  data : InodeDisk

/-- **An open file**, `struct file`. The same inode is never in memory twice, so a
pointer to an open inode is its sector. -/
structure File where
  inode : ℕ
  pos : ℕ
  denyWrite : Bool

/-- **The state of the file system.** The sectors given to `free_map_release` so
far are recorded, in order. -/
structure Filesys where
  disk : Disk
  /-- `free_map`. -/
  freeMap : List Bool
  /-- The bits of its last word behind its last bit. -/
  unused : ℕ → Bool
  /-- `free_map_file`. -/
  freeMapFile : Option File
  /-- `open_inodes`. -/
  openInodes : ℕ → Option Inode
  /-- The files that were opened; a pointer to a file is its number, and a file
  that has been closed is gone. -/
  files : List (Option File)
  /-- The calls of `free_map_release`: the first sector and the number of them. -/
  released : List (ℕ × ℕ)

/-- What stops the kernel. -/
inductive FilesysPanic
  /-- The assertion of `inode_create`: the length is not negative. -/
  | assertLength
  /-- The assertion of `free_map_release`: all sectors are marked used. -/
  | assertRelease
  /-- An assertion of `inode_allow_write`. -/
  | assertAllowWrite
  /-- The assertion of `inode_deny_write`: no more denials than openers. -/
  | assertDenyWrite
  /-- The assertion of `file_seek`: the position is not negative. -/
  | assertSeek
  /-- A pointer to a file or an inode that does not exist. -/
  | wildPointer
  /-- A panic while the file system is set up. -/
  | setup
deriving DecidableEq

abbrev FilesysM : Type → Type := Command FilesysPanic Filesys

/-- `FREE_MAP_SECTOR`. -/
def freeMapSector : ℕ := 0

/-- `ROOT_DIR_SECTOR`. -/
def rootDirSector : ℕ := 1

/-! ## Inodes -/

/-- The inode behind a pointer. -/
def inodeOf (inode : ℕ) : FilesysM Inode := do
  match (← Command.get).openInodes inode with
  | some node => pure node
  | none => Command.stop .wildPointer

/-- The open inodes after a change of one. -/
def Filesys.setInode (fs : Filesys) (inode : ℕ) (node : Option Inode) : Filesys :=
  { fs with openInodes := Function.update fs.openInodes inode node }

/-- `inode_open`, with `inode_reopen` for an inode that is in memory. -/
def inodeOpen (sector : ℕ) : FilesysM ℕ := do
  let fs ← Command.get
  match fs.openInodes sector with
  | some node =>
    Command.modify fun fs => fs.setInode sector (some { node with openCnt := node.openCnt + 1 })
  | none =>
    Command.modify fun fs =>
      fs.setInode sector
        (some ⟨sector, 1, false, 0, InodeDisk.ofBytes (fs.disk sector)⟩)
  pure sector

/-- `inode_read_at`. -/
def inodeReadAt (inode : ℕ) (size : ℤ) (offset : ℕ) : FilesysM (List UInt8) := do
  let node ← inodeOf inode
  let fs ← Command.get
  pure (readAt fs.disk node.data size offset)

/-- `inode_write_at`. -/
def inodeWriteAt (inode : ℕ) (buffer : ℕ → UInt8) (size : ℤ) (offset : ℕ) : FilesysM ℕ := do
  let node ← inodeOf inode
  if node.denyWriteCnt ≠ 0 then pure 0
  else
    let fs ← Command.get
    let result := writeAt fs.disk node.data buffer size offset
    Command.modify fun fs => { fs with disk := result.1 }
    pure result.2

/-- `inode_deny_write`. -/
def inodeDenyWrite (inode : ℕ) : FilesysM Unit := do
  let node ← inodeOf inode
  if node.denyWriteCnt + 1 ≤ node.openCnt then
    Command.modify fun fs =>
      fs.setInode inode (some { node with denyWriteCnt := node.denyWriteCnt + 1 })
  else Command.stop .assertDenyWrite

/-- `inode_allow_write`. -/
def inodeAllowWrite (inode : ℕ) : FilesysM Unit := do
  let node ← inodeOf inode
  if 0 < node.denyWriteCnt ∧ node.denyWriteCnt ≤ node.openCnt then
    Command.modify fun fs =>
      fs.setInode inode (some { node with denyWriteCnt := node.denyWriteCnt - 1 })
  else Command.stop .assertAllowWrite

/-- `inode_length`. -/
def inodeLength (inode : ℕ) : FilesysM Int32 := do
  let node ← inodeOf inode
  pure node.data.length

/-- `inode_remove`. -/
def inodeRemove (inode : ℕ) : FilesysM Unit := do
  let node ← inodeOf inode
  Command.modify fun fs => fs.setInode inode (some { node with removed := true })

/-! ## Files over inodes -/

/-- `file_open`: nothing for a null pointer. -/
def fileOpen (inode : Option ℕ) : Option File := inode.map fun inode => ⟨inode, 0, false⟩

/-- `file_read_at`. -/
def fileReadAt (file : File) (size : ℤ) (fileOfs : ℕ) : FilesysM (List UInt8) :=
  inodeReadAt file.inode size fileOfs

/-- `file_write_at`. -/
def fileWriteAt (file : File) (buffer : ℕ → UInt8) (size : ℤ) (fileOfs : ℕ) : FilesysM ℕ :=
  inodeWriteAt file.inode buffer size fileOfs

/-- `file_allow_write`. -/
def fileAllowWrite (file : File) : FilesysM Unit :=
  if file.denyWrite then inodeAllowWrite file.inode else pure ()

/-! ## The free map -/

/-- `bitmap_write`, of the free map. -/
def bitmapWrite (file : File) : FilesysM Bool := do
  let fs ← Command.get
  let size := byteCnt fs.freeMap.length
  let written ← fileWriteAt file (bitmapBytes fs.freeMap fs.unused) size 0
  pure (decide (written = size))

/-- `bitmap_read`, into the free map. The unused bits are masked off. -/
def bitmapRead (file : File) : FilesysM Bool := do
  let fs ← Command.get
  let size := byteCnt fs.freeMap.length
  let bytes ← fileReadAt file size 0
  if bytes.length = size then
    Command.modify fun fs =>
      { fs with freeMap := bitmapOfBytes fs.freeMap.length bytes, unused := fun _ => false }
    pure true
  else pure false

/-- A range of bits of the free map is set. -/
def Filesys.setBits (fs : Filesys) (sector cnt : ℕ) (value : Bool) : Filesys :=
  { fs with freeMap := bitmapSetMultiple fs.freeMap sector cnt value }

/-- `free_map_allocate`: the first sector, where there are enough. -/
def freeMapAllocate (cnt : ℕ) : FilesysM (Option ℕ) := do
  let fs ← Command.get
  match bitmapScan fs.freeMap 0 cnt false with
  | none => pure none
  | some sector =>
    Command.modify fun fs => fs.setBits sector cnt true
    match fs.freeMapFile with
    | none => pure (some sector)
    | some file =>
      if ← bitmapWrite file then pure (some sector)
      else
        Command.modify fun fs => fs.setBits sector cnt false
        pure none

/-- `free_map_release`. -/
def freeMapRelease (sector cnt : ℕ) : FilesysM Unit := do
  let fs ← Command.get
  if bitmapAll fs.freeMap sector cnt then
    Command.modify fun fs =>
      { fs.setBits sector cnt false with released := fs.released ++ [(sector, cnt)] }
    match fs.freeMapFile with
    | none => Command.stop .wildPointer
    | some file =>
      let _ ← bitmapWrite file
      pure ()
  else Command.stop .assertRelease

/-! ## Inodes and the free map -/

/-- A run of sectors is filled with zeros. -/
def zeroSectors (disk : Disk) (start cnt : ℕ) : Disk :=
  (List.range cnt).foldl (fun disk i => blockWrite disk (start + i) fun _ => 0) disk

/-- The inode is written, and its data is filled with zeros. -/
def writeInode (disk : Disk) (sector start : ℕ) (length : Int32) : Disk :=
  zeroSectors (blockWrite disk sector (InodeDisk.bytes ⟨.ofNat start, length⟩)) start
    (bytesToSectors length)

/-- `inode_create`. -/
def inodeCreate (sector : ℕ) (length : Int32) : FilesysM Bool := do
  if length < 0 then Command.stop .assertLength
  else
    match ← freeMapAllocate (bytesToSectors length) with
    | none => pure false
    | some start =>
      Command.modify fun fs => { fs with disk := writeInode fs.disk sector start length }
      pure true

/-- `inode_close`, of an inode that is not null. -/
def inodeClose (inode : ℕ) : FilesysM Unit := do
  let node ← inodeOf inode
  if node.openCnt - 1 = 0 then
    Command.modify fun fs => fs.setInode inode none
    if node.removed then
      freeMapRelease node.sector 1
      freeMapRelease node.data.start.toNat (bytesToSectors node.data.length)
    else pure ()
  else
    Command.modify fun fs => fs.setInode inode (some { node with openCnt := node.openCnt - 1 })

/-- `file_close`, up to the release of the memory. -/
def fileCloseInode (file : File) : FilesysM Unit := do
  fileAllowWrite file
  inodeClose file.inode

/-! ## Directories

A directory is handled by way of the pointer to its inode. -/

/-- `NAME_MAX`. -/
def nameMax : ℕ := 14

/-- **A directory entry**, `struct dir_entry`; the name is the `NAME_MAX + 1` bytes
of the array. -/
structure DirEntry where
  inodeSector : UInt32
  name : List UInt8
  inUse : Bool

/-- `sizeof (struct dir_entry)`. -/
def dirEntrySize : ℕ := 20

/-- The bytes of an entry. -/
def DirEntry.bytes (e : DirEntry) (i : ℕ) : UInt8 :=
  if i < 4 then wordByte e.inodeSector i
  else if i < 19 then e.name.getD (i - 4) 0
  else if e.inUse then 1 else 0

/-- The entry that has the given bytes. -/
def DirEntry.ofBytes (byte : ℕ → UInt8) : DirEntry where
  inodeSector := wordOf byte
  name := (List.range (nameMax + 1)).map fun i => byte (4 + i)
  inUse := byte 19 != 0

/-- An entry before anything is read into it. -/
def DirEntry.blank : DirEntry := .ofBytes fun _ => 0

/-- The loop over the entries of a directory: whether one is found, where the loop
stops, and the last entry read. -/
def scanEntries (disk : Disk) (data : InodeDisk) (p : DirEntry → Bool) :
    ℕ → ℕ → DirEntry → Bool × ℕ × DirEntry
  | 0, ofs, e => (false, ofs, e)
  | fuel + 1, ofs, e =>
    let bytes := readAt disk data dirEntrySize ofs
    let e := DirEntry.ofBytes fun i => bytes.getD i (e.bytes i)
    if bytes.length = dirEntrySize then
      if p e then (true, ofs, e) else scanEntries disk data p fuel (ofs + dirEntrySize) e
    else (false, ofs, e)

/-- The loop over the entries from the first. There is a turn for every entry, and
one more that finds the end. -/
def scanDir (inode : ℕ) (p : DirEntry → Bool) : FilesysM (Bool × ℕ × DirEntry) := do
  let node ← inodeOf inode
  let fs ← Command.get
  pure (scanEntries fs.disk node.data p (node.data.length.toInt.toNat / dirEntrySize + 1) 0 .blank)

/-- An entry in use with the given name. -/
def DirEntry.matches (name : CString) (e : DirEntry) : Bool :=
  e.inUse && decide (name = CString.ofData e.name 0)

/-- `lookup`: the entry and its offset. -/
def lookup (dir : ℕ) (name : CString) : FilesysM (Option (DirEntry × ℕ)) := do
  let (found, ofs, e) ← scanDir dir (DirEntry.matches name)
  pure (if found then some (e, ofs) else none)

/-- `dir_create`. -/
def dirCreate (sector : ℕ) (entryCnt : UInt32) : FilesysM Bool :=
  inodeCreate sector (entryCnt * .ofNat dirEntrySize).toInt32

/-- `dir_open_root`. -/
def dirOpenRoot : FilesysM ℕ := inodeOpen rootDirSector

/-- `dir_close`. -/
def dirClose (dir : ℕ) : FilesysM Unit := inodeClose dir

/-- `dir_lookup`: the inode, opened. -/
def dirLookup (dir : ℕ) (name : CString) : FilesysM (Option ℕ) := do
  match ← lookup dir name with
  | some (e, _) =>
    let inode ← inodeOpen e.inodeSector.toNat
    pure (some inode)
  | none => pure none

/-- `strlcpy` into the name of an entry: what is behind the terminator stays. -/
def strlcpy (dst : List UInt8) (src : CString) : List UInt8 :=
  let copied := src.bytes.take nameMax
  copied ++ [0] ++ dst.drop (copied.length + 1)

/-- An entry is written at an offset of a directory. -/
def writeEntry (dir : ℕ) (e : DirEntry) (ofs : ℕ) : FilesysM Bool := do
  let written ← inodeWriteAt dir e.bytes dirEntrySize ofs
  pure (decide (written = dirEntrySize))

/-- `dir_add`. -/
def dirAdd (dir : ℕ) (name : CString) (inodeSector : ℕ) : FilesysM Bool := do
  if name.strlen = 0 ∨ nameMax < name.strlen then pure false
  else
    match ← lookup dir name with
    | some _ => pure false
    | none =>
      let (_, ofs, e) ← scanDir dir fun e => !e.inUse
      writeEntry dir ⟨.ofNat inodeSector, strlcpy e.name name, true⟩ ofs

/-- `dir_remove`. -/
def dirRemove (dir : ℕ) (name : CString) : FilesysM Bool := do
  match ← lookup dir name with
  | none => pure false
  | some (e, ofs) =>
    let inode ← inodeOpen e.inodeSector.toNat
    let erased ← writeEntry dir { e with inUse := false } ofs
    if erased then inodeRemove inode else pure ()
    inodeClose inode
    pure erased

/-! ## The file system -/

/-- `filesys_create`. -/
def filesysCreate (name : CString) (initialSize : Int32) : FilesysM Bool := do
  let dir ← dirOpenRoot
  match ← freeMapAllocate 1 with
  | none =>
    dirClose dir
    pure false
  | some inodeSector =>
    let created ← inodeCreate inodeSector initialSize
    let success ← if created then dirAdd dir name inodeSector else pure false
    if !success && inodeSector != 0 then freeMapRelease inodeSector 1 else pure ()
    dirClose dir
    pure success

/-- `filesys_open`: the pointer to the new file. -/
def filesysOpen (name : CString) : FilesysM (Option ℕ) := do
  let dir ← dirOpenRoot
  let inode ← dirLookup dir name
  dirClose dir
  match fileOpen inode with
  | none => pure none
  | some file =>
    let fs ← Command.get
    Command.modify fun fs => { fs with files := fs.files ++ [some file] }
    pure (some fs.files.length)

/-- `filesys_remove`. -/
def filesysRemove (name : CString) : FilesysM Bool := do
  let dir ← dirOpenRoot
  let success ← dirRemove dir name
  dirClose dir
  pure success

/-- The file behind a pointer. -/
def fileOf (file : ℕ) : FilesysM File := do
  match (← Command.get).files[file]? with
  | some (some f) => pure f
  | _ => Command.stop .wildPointer

/-- `file_read`. -/
def fileRead (file : ℕ) (size : Int32) : FilesysM (List UInt8) := do
  let f ← fileOf file
  let bytes ← inodeReadAt f.inode size.toInt f.pos
  Command.modify fun fs =>
    { fs with files := fs.files.set file (some { f with pos := f.pos + bytes.length }) }
  pure bytes

/-- `file_write`. -/
def fileWrite (file : ℕ) (buffer : ℕ → UInt8) (size : Int32) : FilesysM ℕ := do
  let f ← fileOf file
  let written ← inodeWriteAt f.inode buffer size.toInt f.pos
  Command.modify fun fs =>
    { fs with files := fs.files.set file (some { f with pos := f.pos + written }) }
  pure written

/-- `file_deny_write`. -/
def fileDenyWrite (file : ℕ) : FilesysM Unit := do
  let f ← fileOf file
  if f.denyWrite then pure ()
  else
    Command.modify fun fs =>
      { fs with files := fs.files.set file (some { f with denyWrite := true }) }
    inodeDenyWrite f.inode

/-- `file_length`. -/
def fileLength (file : ℕ) : FilesysM Int32 := do
  let f ← fileOf file
  inodeLength f.inode

/-- `file_seek`. -/
def fileSeek (file : ℕ) (newPos : Int32) : FilesysM Unit := do
  let f ← fileOf file
  if newPos < 0 then Command.stop .assertSeek
  else
    Command.modify fun fs =>
      { fs with files := fs.files.set file (some { f with pos := newPos.toInt.toNat }) }

/-- `file_tell`. -/
def fileTell (file : ℕ) : FilesysM Int32 := do
  let f ← fileOf file
  pure (.ofNat f.pos)

/-- `file_close`. -/
def fileClose (file : ℕ) : FilesysM Unit := do
  let f ← fileOf file
  fileCloseInode f
  Command.modify fun fs => { fs with files := fs.files.set file none }

/-! ## Setting up -/

/-- The state in which the kernel starts, with whatever is on the disk and in the memory
that the free map gets. -/
def Filesys.boot (disk : Disk) (unused : ℕ → Bool) : Filesys :=
  ⟨disk, [], unused, none, fun _ => none, [], []⟩

/-- `free_map_init`, for a device of the given size. The bitmap of the largest
devices has a size of zero bytes after the rounding wraps around. On a device of one
sector the mark of the root directory is an unused bit. -/
def freeMapInit (blockSize : UInt32) : FilesysM Unit :=
  if byteCnt blockSize.toNat = 0 then Command.stop .setup
  else
    Command.modify fun fs =>
      { fs with
        freeMap := ((List.replicate blockSize.toNat false).set freeMapSector true).set
          rootDirSector true
        unused := if rootDirSector < blockSize.toNat then fs.unused
          else Function.update fs.unused rootDirSector true }

/-- `free_map_create`. -/
def freeMapCreate : FilesysM Unit := do
  let fs ← Command.get
  if ← inodeCreate freeMapSector (.ofNat (byteCnt fs.freeMap.length)) then
    let inode ← inodeOpen freeMapSector
    let file : File := ⟨inode, 0, false⟩
    Command.modify fun fs => { fs with freeMapFile := some file }
    if ← bitmapWrite file then pure () else Command.stop .setup
  else Command.stop .setup

/-- `free_map_close`. The pointer stays as it is. -/
def freeMapClose : FilesysM Unit := do
  match (← Command.get).freeMapFile with
  | none => pure ()
  | some file => fileCloseInode file

/-- `free_map_open`. -/
def freeMapOpen : FilesysM Unit := do
  let inode ← inodeOpen freeMapSector
  let file : File := ⟨inode, 0, false⟩
  Command.modify fun fs => { fs with freeMapFile := some file }
  if ← bitmapRead file then pure () else Command.stop .setup

/-- `do_format`. -/
def doFormat : FilesysM Unit := do
  freeMapCreate
  if ← dirCreate rootDirSector 16 then freeMapClose else Command.stop .setup

/-- `filesys_init`. -/
def filesysInit (blockSize : UInt32) (format : Bool) : FilesysM Unit := do
  Command.modify fun fs => { fs with openInodes := fun _ => none }
  freeMapInit blockSize
  if format then doFormat else pure ()
  freeMapOpen

/-! ## Operations -/

/-- **What is asked of the file system.** -/
inductive FilesysOp
  | create (name : CString) (initialSize : Int32)
  | «open» (name : CString)
  | read (file : ℕ) (size : Int32)
  | write (file : ℕ) (buffer : ℕ → UInt8) (size : Int32)
  | close (file : ℕ)
  | remove (name : CString)

/-- An operation. -/
def FilesysOp.exec : FilesysOp → FilesysM Unit
  | create name initialSize => do let _ ← filesysCreate name initialSize
  | .open name => do let _ ← filesysOpen name
  | read file size => do let _ ← fileRead file size
  | write file buffer size => do let _ ← fileWrite file buffer size
  | close file => fileClose file
  | remove name => do let _ ← filesysRemove name

end Pintos
