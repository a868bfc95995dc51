import Mathlib

/-!
# Files on a disk

A file is a run of consecutive sectors, described by an inode in a sector of its
own: the first sector of the data and the length in bytes. Reading and writing go
sector by sector, whole sectors directly and parts of sectors through a bounce
buffer. A file never grows, so a read or a write ends at the end of the file.

What the loops compute is said once for both directions: a read returns the bytes
of the range (`readLoop_eq`), a write replaces them (`byteAt_writeLoop`) and
touches no sector outside the extent (`writeLoop_of_notMem`).
-/

namespace Pintos

/-- `BLOCK_SECTOR_SIZE`. -/
def blockSectorSize : ℕ := 512

/-- **A disk**: the bytes of its sectors. -/
abbrev Disk : Type := ℕ → ℕ → UInt8

/-- `block_write`. -/
def blockWrite (disk : Disk) (sector : ℕ) (buffer : ℕ → UInt8) : Disk :=
  Function.update disk sector buffer

/-- The bytes of a word in memory, the lowest first. -/
def wordByte (word : UInt32) (i : ℕ) : UInt8 := .ofNat (word.toNat / 256 ^ i)

/-- The word that has the given bytes. -/
def wordOf (byte : ℕ → UInt8) : UInt32 :=
  .ofNat ((byte 0).toNat + 256 * (byte 1).toNat + 256 ^ 2 * (byte 2).toNat
    + 256 ^ 3 * (byte 3).toNat)

/-- **A word is read back as it was written.** -/
@[simp] theorem wordOf_wordByte (word : UInt32) : wordOf (wordByte word) = word := by
  unfold wordOf wordByte
  have hlt : word.toNat < 2 ^ 32 := word.toNat_lt
  refine UInt32.toNat_inj.mp ?_
  simp only [UInt8.toNat_ofNat', UInt32.toNat_ofNat']
  omega

/-- **The inode on disk**, `struct inode_disk`. Its magic number is written and
never looked at. -/
structure InodeDisk where
  /-- The first data sector. -/
  start : UInt32
  /-- The file size in bytes. -/
  length : Int32
deriving DecidableEq

/-- `INODE_MAGIC`. -/
def inodeMagic : UInt32 := 0x494e4f44

/-- The bytes of an inode, a sector of them. -/
def InodeDisk.bytes (data : InodeDisk) (i : ℕ) : UInt8 :=
  if i < 4 then wordByte data.start i
  else if i < 8 then wordByte data.length.toUInt32 (i - 4)
  else if i < 12 then wordByte inodeMagic (i - 8)
  else 0

/-- The inode in a sector. -/
def InodeDisk.ofBytes (byte : ℕ → UInt8) : InodeDisk where
  start := wordOf byte
  length := (wordOf fun i => byte (4 + i)).toInt32

/-- **An inode is read back as it was written.** -/
@[simp] theorem InodeDisk.ofBytes_bytes (data : InodeDisk) : ofBytes data.bytes = data := by
  unfold ofBytes
  have hstart : wordOf data.bytes = data.start := wordOf_wordByte data.start
  have hlength : wordOf (fun i => data.bytes (4 + i)) = data.length.toUInt32 :=
    wordOf_wordByte data.length.toUInt32
  rw [hstart, hlength]
  rfl

/-- `bytes_to_sectors`, computed with 32 bits as the source does. -/
def bytesToSectors (size : Int32) : ℕ := ((size + 512 - 1) / 512).toUInt32.toNat

/-- **There are enough sectors for the bytes**, even where the rounding wraps
around: the number of sectors is then far too large. -/
theorem le_bytesToSectors {size : Int32} (h : 0 ≤ size.toInt) :
    size.toInt ≤ bytesToSectors size * blockSectorSize := by
  have hlt : size.toInt < 2 ^ 31 := size.toInt_lt
  have hround : ((size + 512 - 1) / 512).toInt = Int.bmod (bytesToSectors size) (2 ^ 32) :=
    BitVec.toInt_eq_toNat_bmod _
  have hnat : bytesToSectors size < 2 ^ 32 := UInt32.toNat_lt _
  rw [Int32.toInt_div, Int32.toInt_sub, Int32.toInt_add] at hround
  change (((size.toInt + 512).bmod (2 ^ 32) - 1).bmod (2 ^ 32) |>.tdiv 512).bmod (2 ^ 32)
    = _ at hround
  unfold blockSectorSize
  generalize bytesToSectors size = sectors at *
  generalize size.toInt = length at *
  by_cases hwrap : length + 511 < 2 ^ 31
  · have hsum : ((length + 512).bmod (2 ^ 32) - 1).bmod (2 ^ 32) = length + 511 := by
      simp only [Int.bmod_def]
      omega
    rw [hsum, Int.tdiv_eq_ediv_of_nonneg (by omega)] at hround
    simp only [Int.bmod_def] at hround
    omega
  · have hsum : ((length + 512).bmod (2 ^ 32) - 1).bmod (2 ^ 32) = -(2 ^ 32 - 511 - length) := by
      simp only [Int.bmod_def]
      omega
    rw [hsum, Int.neg_tdiv, Int.tdiv_eq_ediv_of_nonneg (by omega)] at hround
    simp only [Int.bmod_def] at hround
    omega

/-- The data sectors of a file. -/
def InodeDisk.extent (data : InodeDisk) : Set ℕ :=
  Set.Ico data.start.toNat (data.start.toNat + bytesToSectors data.length)

/-! ## Reading and writing -/

/-- `byte_to_sector`; −1 where the file has no such byte. -/
def byteToSector (data : InodeDisk) (pos : ℕ) : ℕ :=
  if (pos : ℤ) < data.length.toInt then data.start.toNat + pos / blockSectorSize else 2 ^ 32 - 1

/-- The bytes to copy from or to one sector: as many as are asked for and are left
in the file and in the sector. -/
def chunkSize (data : InodeDisk) (size : ℤ) (offset : ℕ) : ℤ :=
  let inodeLeft := data.length.toInt - offset
  let sectorLeft : ℤ := blockSectorSize - (offset % blockSectorSize : ℕ)
  let minLeft := if inodeLeft < sectorLeft then inodeLeft else sectorLeft
  if size < minLeft then size else minLeft

/-- The loop of `inode_read_at`: the bytes read. -/
def readLoop (disk : Disk) (data : InodeDisk) : ℕ → ℤ → ℕ → List UInt8
  | 0, _, _ => []
  | fuel + 1, size, offset =>
    if 0 < size then
      let sectorIdx := byteToSector data offset
      let sectorOfs := offset % blockSectorSize
      let chunk := chunkSize data size offset
      if chunk ≤ 0 then []
      else
        let bytes :=
          if sectorOfs = 0 ∧ chunk = blockSectorSize then
            -- The sector is read directly into the caller's buffer.
            (List.range blockSectorSize).map (disk sectorIdx)
          else (List.range chunk.toNat).map fun i => disk sectorIdx (sectorOfs + i)
        bytes ++ readLoop disk data fuel (size - chunk) (offset + chunk.toNat)
    else []

/-- `inode_read_at`, on the inode's data. Every turn of the loop copies a byte at
least. -/
def readAt (disk : Disk) (data : InodeDisk) (size : ℤ) (offset : ℕ) : List UInt8 :=
  readLoop disk data size.toNat size offset

/-- What `inode_write_at` writes to a sector, for a part of it by way of the
bounce buffer. -/
def sectorContent (disk : Disk) (data : InodeDisk) (buffer : ℕ → UInt8) (size : ℤ)
    (offset written : ℕ) : ℕ → UInt8 :=
  let sectorIdx := byteToSector data offset
  let sectorOfs := offset % blockSectorSize
  let sectorLeft : ℤ := blockSectorSize - sectorOfs
  let chunk := chunkSize data size offset
  if sectorOfs = 0 ∧ chunk = blockSectorSize then fun i => buffer (written + i)
  else
    let bounce : ℕ → UInt8 :=
      if 0 < sectorOfs ∨ chunk < sectorLeft then disk sectorIdx else fun _ => 0
    fun i =>
      if sectorOfs ≤ i ∧ i < sectorOfs + chunk.toNat then buffer (written + (i - sectorOfs))
      else bounce i

/-- The loop of `inode_write_at`: the disk, and the number of bytes written. -/
def writeLoop (data : InodeDisk) (buffer : ℕ → UInt8) : ℕ → Disk → ℤ → ℕ → ℕ → Disk × ℕ
  | 0, disk, _, _, written => (disk, written)
  | fuel + 1, disk, size, offset, written =>
    if 0 < size then
      let chunk := chunkSize data size offset
      if chunk ≤ 0 then (disk, written)
      else
        writeLoop data buffer fuel
          (blockWrite disk (byteToSector data offset)
            (sectorContent disk data buffer size offset written))
          (size - chunk) (offset + chunk.toNat) (written + chunk.toNat)
    else (disk, written)

/-- `inode_write_at`, on the inode's data. -/
def writeAt (disk : Disk) (data : InodeDisk) (buffer : ℕ → UInt8) (size : ℤ) (offset : ℕ) :
    Disk × ℕ :=
  writeLoop data buffer size.toNat disk size offset 0

/-- The byte at a position of a file. -/
def byteAt (disk : Disk) (data : InodeDisk) (pos : ℕ) : UInt8 :=
  disk (data.start.toNat + pos / blockSectorSize) (pos % blockSectorSize)

/-- How many bytes are read or written: as many as are asked for and are left in
the file. -/
def transferSize (data : InodeDisk) (size : ℤ) (offset : ℕ) : ℕ :=
  (min size (data.length.toInt - offset)).toNat

section

variable {disk : Disk} {data : InodeDisk} {buffer : ℕ → UInt8} {size : ℤ} {offset written : ℕ}

theorem byteAt_add {i : ℕ} (h : offset % blockSectorSize + i < blockSectorSize) :
    byteAt disk data (offset + i)
      = disk (data.start.toNat + offset / blockSectorSize) (offset % blockSectorSize + i) := by
  unfold byteAt blockSectorSize at *
  congr 2 <;> omega

/-- A turn of the loops that copies something. -/
theorem chunkSize_pos (h : 0 < chunkSize data size offset) : (offset : ℤ) < data.length.toInt
      ∧ (chunkSize data size offset).toNat ≤ size.toNat
      ∧ offset % blockSectorSize + (chunkSize data size offset).toNat ≤ blockSectorSize
      ∧ transferSize data size offset
        = (chunkSize data size offset).toNat
          + transferSize data (size - chunkSize data size offset)
            (offset + (chunkSize data size offset).toNat) := by
  unfold chunkSize transferSize blockSectorSize at *
  dsimp only at *
  split at h <;> split at h <;> omega

/-- The turn that finds nothing to copy is the last. -/
theorem transferSize_of_chunkSize (hsize : 0 < size) (h : chunkSize data size offset ≤ 0) :
    transferSize data size offset = 0 := by
  unfold chunkSize transferSize blockSectorSize at *
  dsimp only at *
  split at h <;> split at h <;> omega

theorem transferSize_of_size (hsize : size ≤ 0) : transferSize data size offset = 0 := by
  unfold transferSize
  omega

theorem byteToSector_eq (h : (offset : ℤ) < data.length.toInt) :
    byteToSector data offset = data.start.toNat + offset / blockSectorSize := if_pos h

/-- **A read returns the bytes of the range.** -/
theorem readLoop_eq {fuel : ℕ} (hfuel : size.toNat ≤ fuel) : readLoop disk data fuel size offset
      = (List.range (transferSize data size offset)).map fun i =>
        byteAt disk data (offset + i) := by
  induction fuel generalizing size offset with
  | zero =>
    rw [transferSize_of_size (by omega)]
    rfl
  | succ fuel ih =>
    unfold readLoop
    dsimp only
    split
    · rename_i hsize
      split
      · rename_i hchunk
        rw [transferSize_of_chunkSize hsize hchunk]
        rfl
      · rename_i hchunk
        obtain ⟨hoffset, hle, hsector, htransfer⟩ := chunkSize_pos (not_le.mp hchunk)
        have hbytes : (if offset % blockSectorSize = 0
              ∧ chunkSize data size offset = blockSectorSize then
              (List.range blockSectorSize).map (disk (byteToSector data offset))
            else (List.range (chunkSize data size offset).toNat).map fun i =>
              disk (byteToSector data offset) (offset % blockSectorSize + i))
            = (List.range (chunkSize data size offset).toNat).map fun i =>
              byteAt disk data (offset + i) := by
          rw [byteToSector_eq hoffset]
          split
          · rename_i hwhole
            rw [hwhole.2, Int.toNat_natCast]
            refine List.map_congr_left fun i hi => ?_
            rw [byteAt_add (by rw [hwhole.1]; simpa using hi), hwhole.1, Nat.zero_add]
          · refine List.map_congr_left fun i hi => ?_
            rw [byteAt_add (by rw [List.mem_range] at hi; omega)]
        rw [hbytes, ih (by omega), htransfer, List.range_add, List.map_append, List.map_map]
        congr 1
        refine List.map_congr_left fun i _ => ?_
        rw [Function.comp_apply, Nat.add_assoc]
    · rename_i hsize
      rw [transferSize_of_size (by omega)]
      rfl

theorem readAt_eq : readAt disk data size offset
      = (List.range (transferSize data size offset)).map fun i => byteAt disk data (offset + i) :=
  readLoop_eq le_rfl

/-- **What a sector holds after the write**: the new bytes in the chunk, and what
it held before elsewhere. -/
theorem sectorContent_apply (h : 0 < chunkSize data size offset) {i : ℕ}
    (hi : i < blockSectorSize) : sectorContent disk data buffer size offset written i
      = if offset % blockSectorSize ≤ i
          ∧ i < offset % blockSectorSize + (chunkSize data size offset).toNat then
          buffer (written + (i - offset % blockSectorSize))
        else disk (data.start.toNat + offset / blockSectorSize) i := by
  obtain ⟨hoffset, -, hsector, -⟩ := chunkSize_pos h
  unfold sectorContent
  rw [byteToSector_eq hoffset]
  dsimp only
  split
  · rename_i hwhole
    rw [if_pos (by rw [hwhole.1, hwhole.2]; exact ⟨Nat.zero_le _, by omega⟩), hwhole.1,
      Nat.sub_zero]
  · rename_i hpart
    -- A chunk that leaves nothing of the sector over is a whole sector.
    rw [if_pos (by omega : 0 < offset % blockSectorSize
      ∨ chunkSize data size offset < (blockSectorSize : ℤ) - (offset % blockSectorSize : ℕ))]

theorem writeLoop_snd {fuel : ℕ} (hfuel : size.toNat ≤ fuel) :
    (writeLoop data buffer fuel disk size offset written).2
      = written + transferSize data size offset := by
  induction fuel generalizing disk size offset written with
  | zero =>
    rw [transferSize_of_size (by omega)]
    rfl
  | succ fuel ih =>
    unfold writeLoop
    dsimp only
    split
    · rename_i hsize
      split
      · rename_i hchunk
        rw [transferSize_of_chunkSize hsize hchunk]
        rfl
      · rename_i hchunk
        obtain ⟨-, hle, -, htransfer⟩ := chunkSize_pos (not_le.mp hchunk)
        rw [ih (by omega), htransfer, Nat.add_assoc]
    · rename_i hsize
      rw [transferSize_of_size (by omega)]
      rfl

/-- **A write replaces the bytes of the range**, and no other byte of the file. -/
theorem byteAt_writeLoop {fuel : ℕ} (hfuel : size.toNat ≤ fuel) (pos : ℕ) :
    byteAt (writeLoop data buffer fuel disk size offset written).1 data pos
      = if offset ≤ pos ∧ pos < offset + transferSize data size offset then
          buffer (written + (pos - offset))
        else byteAt disk data pos := by
  induction fuel generalizing disk size offset written with
  | zero =>
    rw [if_neg (by rw [transferSize_of_size (by omega)]; omega)]
    rfl
  | succ fuel ih =>
    unfold writeLoop
    dsimp only
    split
    · rename_i hsize
      split
      · rename_i hchunk
        rw [if_neg (by rw [transferSize_of_chunkSize hsize hchunk]; omega)]
      · rename_i hchunk
        obtain ⟨hoffset, hle, hsector, htransfer⟩ := chunkSize_pos (not_le.mp hchunk)
        rw [ih (by omega), htransfer]
        have hmod : pos % blockSectorSize < blockSectorSize := Nat.mod_lt _ (by decide)
        have hstep : byteAt (blockWrite disk (byteToSector data offset)
              (sectorContent disk data buffer size offset written)) data pos
            = if offset ≤ pos ∧ pos < offset + (chunkSize data size offset).toNat then
                buffer (written + (pos - offset))
              else byteAt disk data pos := by
          rw [byteToSector_eq hoffset]
          unfold byteAt blockWrite
          by_cases hsame : pos / blockSectorSize = offset / blockSectorSize
          · rw [hsame, Function.update_self, sectorContent_apply (not_le.mp hchunk) hmod]
            have hpos := Nat.div_add_mod pos blockSectorSize
            have hoff := Nat.div_add_mod offset blockSectorSize
            rw [hsame] at hpos
            split
            · rw [if_pos (by omega)]
              congr 2
              omega
            · rw [if_neg (by omega)]
          · rw [Function.update_of_ne (by omega), if_neg]
            rintro ⟨hge, hlt⟩
            refine hsame ?_
            unfold blockSectorSize at *
            omega
        rw [hstep]
        split
        · rw [if_pos (by omega)]
          congr 1
          omega
        · split
          · rw [if_pos (by omega)]
          · rw [if_neg (by omega)]
    · rename_i hsize
      rw [if_neg (by rw [transferSize_of_size (by omega)]; omega)]

theorem sector_mem_extent {pos : ℕ} (hlength : 0 ≤ data.length.toInt)
    (hpos : (pos : ℤ) < data.length.toInt) :
    data.start.toNat + pos / blockSectorSize ∈ data.extent := by
  have hle := le_bytesToSectors hlength
  refine ⟨Nat.le_add_right _ _, ?_⟩
  unfold blockSectorSize at *
  omega

/-- **A write touches no sector outside the extent.** -/
theorem writeLoop_of_notMem {fuel sector : ℕ} (hlength : 0 ≤ data.length.toInt)
    (hsector : sector ∉ data.extent) :
    (writeLoop data buffer fuel disk size offset written).1 sector = disk sector := by
  induction fuel generalizing disk size offset written with
  | zero => rfl
  | succ fuel ih =>
    unfold writeLoop
    dsimp only
    split
    · split
      · rfl
      · rename_i hchunk
        obtain ⟨hoffset, -⟩ := chunkSize_pos (not_le.mp hchunk)
        rw [ih, byteToSector_eq hoffset]
        unfold blockWrite
        refine Function.update_of_ne (fun heq => hsector ?_) _ _
        rw [heq]
        exact sector_mem_extent hlength hoffset
    · rfl

theorem writeLoop_of_transferSize {fuel : ℕ} (h : transferSize data size offset = 0)
    (hfuel : size.toNat ≤ fuel) :
    writeLoop data buffer fuel disk size offset written = (disk, written) := by
  cases fuel with
  | zero => rfl
  | succ fuel =>
    unfold writeLoop
    dsimp only
    split
    · split
      · rfl
      · rename_i hchunk
        obtain ⟨-, -, -, htransfer⟩ := chunkSize_pos (not_le.mp hchunk)
        omega
    · rfl

theorem writeAt_of_transferSize (h : transferSize data size offset = 0) :
    writeAt disk data buffer size offset = (disk, 0) :=
  writeLoop_of_transferSize h le_rfl

theorem writeAt_snd : (writeAt disk data buffer size offset).2 = transferSize data size offset := by
  unfold writeAt
  rw [writeLoop_snd le_rfl, Nat.zero_add]

theorem byteAt_writeAt (pos : ℕ) : byteAt (writeAt disk data buffer size offset).1 data pos
      = if offset ≤ pos ∧ pos < offset + transferSize data size offset then buffer (pos - offset)
        else byteAt disk data pos := by
  unfold writeAt
  rw [byteAt_writeLoop le_rfl, Nat.zero_add]

theorem writeAt_of_notMem {sector : ℕ} (hlength : 0 ≤ data.length.toInt)
    (hsector : sector ∉ data.extent) :
    (writeAt disk data buffer size offset).1 sector = disk sector :=
  writeLoop_of_notMem hlength hsector

end

end Pintos
