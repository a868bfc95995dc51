import Cs162.ByteMemory
import Cs162.Command

/-!
# The memory allocator

`mm_malloc`, `mm_realloc` and `mm_free` keep a list of blocks in the heap itself:
in front of the bytes that are handed out there is a header with links in both
directions, a flag and a size. The heap is the memory up to the program break,
which `sbrk` moves up or refuses to; the memory it adds is zero. Pointers are
addresses, and the null pointer is the address zero.

The program that uses the allocator may write to the bytes it was given. The
pointers it holds, with the sizes it asked for, are recorded beside the heap.
-/

namespace MmAlloc

/-- The fields of `struct s_block`. -/
inductive Field
  | next | prev | free | size
deriving DecidableEq

/-- Where a field is. -/
def Field.offset : Field → ℕ
  | next => 0
  | prev => 8
  | free => 16
  | size => 24

/-- The size of a field: `free` is an `int`. -/
def Field.width : Field → ℕ
  | free => 4
  | _ => 8

/-- `BLOCK_SIZE`. -/
def blockSize : ℕ := 32

/-- The number of values of a `size_t`. -/
def sizeMod : ℕ := 2 ^ 64

/-- **The heap**, with the pointers the program holds and their sizes. -/
structure Heap where
  memory : ByteMemory
  start : ℕ
  /-- `end`. -/
  last : ℕ
  /-- The program break. -/
  brk : ℕ
  /-- The live allocations. The allocator has no such list. -/
  live : List (ℕ × ℕ)

namespace Heap

/-- A field of a block. -/
def get (h : Heap) (f : Field) (b : ℕ) : ℕ := h.memory.load f.width (b + f.offset)

/-- A field of a block is written. -/
def set (h : Heap) (f : Field) (b v : ℕ) : Heap :=
  { h with memory := h.memory.store f.width (b + f.offset) v }

/-- `find_free_space`, from a block on, for a number of turns. -/
def findFreeSpace (h : Heap) (size : ℕ) : ℕ → ℕ → Option ℕ
  | 0, _ => none
  | fuel + 1, curr =>
    if curr = 0 then some 0
    else if h.get .free curr ≠ 0 ∧ size ≤ h.get .size curr then some curr
    else h.findFreeSpace size fuel (h.get .next curr)

/-- The end of `extend_heap`: the new block is filled in, except for its field `next`,
and linked behind the last one. -/
def appendBlock (h : Heap) (block last s : ℕ) : Heap :=
  let h := ((h.set .free block 0).set .size block s).set .prev block last
  let h := if last = 0 then { h with start := block } else h.set .next last block
  { h with last := block }

/-- The first half of `fusion`: with the block before. -/
def fusionPrev (h : Heap) (b : ℕ) : Heap :=
  if h.get .prev b ≠ 0 ∧ h.get .free (h.get .prev b) ≠ 0 then
    let h := h.set .size b ((h.get .size b + h.get .size (h.get .prev b)) % sizeMod)
    let h := h.set .prev b (h.get .prev (h.get .prev b))
    if h.get .prev b ≠ 0 then h.set .next (h.get .prev b) b else h
  else h

/-- The second half: with the block behind. -/
def fusionNext (h : Heap) (b : ℕ) : Heap :=
  if h.get .next b ≠ 0 ∧ h.get .free (h.get .next b) ≠ 0 then
    let h := h.set .size b ((h.get .size b + h.get .size (h.get .next b)) % sizeMod)
    let h := h.set .next b (h.get .next (h.get .next b))
    if h.get .next b ≠ 0 then h.set .prev (h.get .next b) b else h
  else h

/-- `fusion`. -/
def fusion (h : Heap) (b : ℕ) : Heap :=
  if h.get .free b = 0 then h else (h.fusionPrev b).fusionNext b

end Heap

/-- How the program ends within a call. -/
inductive HeapFault
  /-- An access beyond the address space. -/
  | segfault
  /-- The loop of `find_free_space` does not end. -/
  | endless
deriving DecidableEq

abbrev HeapM : Type → Type := Command HeapFault Heap

/-- `sbrk`, which grows the heap or fails. A negative increment is one it fails for. -/
def sbrk (increment : ℕ) (grows : Bool) : HeapM (Option ℕ) := do
  let h ← Command.get
  if grows = true ∧ increment < 2 ^ 63 ∧ h.brk + increment < sizeMod then
    Command.modify fun h => { h with brk := h.brk + increment }
    pure (some h.brk)
  else pure none

/-- `memset`, with zeros. -/
def memset (ptr size : ℕ) : HeapM Unit :=
  if ptr + size ≤ sizeMod then Command.modify fun h => { h with memory := h.memory.fill ptr 0 size }
  else Command.stop .segfault

/-- `memcpy`. Where the ranges overlap C leaves open what is copied. -/
def memcpy (dst src size : ℕ) : HeapM Unit :=
  if dst + size ≤ sizeMod ∧ src + size ≤ sizeMod then
    Command.modify fun h => { h with memory := h.memory.copy dst src size }
  else Command.stop .segfault

/-- `extend_heap`. -/
def extendHeap (last s : ℕ) (grows : Bool) : HeapM ℕ := do
  match ← sbrk ((s + blockSize) % sizeMod) grows with
  | none => pure 0
  | some block =>
    Command.modify fun h => h.appendBlock block last s
    pure block

/-- `find_free_space`. There are fewer blocks than addresses in the heap, so that a
search that takes as many turns does not end. -/
def findFreeSpace (size : ℕ) : HeapM ℕ := do
  let h ← Command.get
  match h.findFreeSpace size (h.brk + 1) h.start with
  | none => Command.stop .endless
  | some block => pure block

/-- `mm_malloc`. -/
def mmMalloc (size : ℕ) (grows : Bool) : HeapM ℕ :=
  if size = 0 then pure 0
  else do
    let block ← findFreeSpace size
    if block = 0 then
      let block ← extendHeap (← Command.get).last size grows
      if block = 0 then pure 0
      else
        memset (block + blockSize) size
        pure (block + blockSize)
    else
      Command.modify fun h => (h.set .free block 0).set .size block size
      memset (block + blockSize) size
      pure (block + blockSize)

/-- `get_block`. -/
def getBlock (ptr : ℕ) : ℕ := ptr - blockSize

/-- `mm_free`. -/
def mmFree (ptr : ℕ) : HeapM Unit :=
  if ptr = 0 then pure ()
  else Command.modify fun h => (h.set .free (getBlock ptr) 1).fusion (getBlock ptr)

/-- `mm_realloc`. -/
def mmRealloc (ptr size : ℕ) (grows : Bool) : HeapM ℕ :=
  if ptr = 0 then mmMalloc size grows
  else if size = 0 then do
    mmFree ptr
    pure 0
  else do
    if size ≤ (← Command.get).get .size (getBlock ptr) then pure ptr
    else
      let newData ← mmMalloc size grows
      if newData = 0 then pure 0
      else
        memcpy newData ptr size
        mmFree ptr
        pure newData

/-! ## Runs -/

/-- **What the program does**, and whether `sbrk` grows the heap if it is called. -/
inductive HeapEvent
  | malloc (size : UInt64) (grows : Bool)
  | realloc (ptr : ℕ) (size : UInt64) (grows : Bool)
  | free (ptr : ℕ)
  | write (a : ℕ) (byte : UInt8)

namespace Heap

/-- The pointer is not live any more. -/
def retire (h : Heap) (ptr : ℕ) : Heap := { h with live := h.live.filter fun x => x.1 ≠ ptr }

/-- The pointer is live, unless it is null. -/
def hold (h : Heap) (ptr size : ℕ) : Heap :=
  if ptr = 0 then h else { h with live := h.live ++ [(ptr, size)] }

end Heap

namespace HeapEvent

/-- The call, with what it does to the live allocations. -/
def exec : HeapEvent → HeapM Unit
  | malloc size grows => do
    let ptr ← mmMalloc size.toNat grows
    Command.modify fun h => h.hold ptr size.toNat
  | realloc ptr size grows => do
    let newPtr ← mmRealloc ptr size.toNat grows
    -- a call that fails leaves the old pointer as it is
    if size = 0 ∨ newPtr ≠ 0 then
      Command.modify fun h => (h.retire ptr).hold newPtr size.toNat
    else pure ()
  | free ptr => do
    mmFree ptr
    Command.modify fun h => h.retire ptr
  | write a byte => Command.modify fun h => { h with memory := Function.update h.memory a byte }

/-- Only live pointers, or the null pointer, are freed or reallocated, and only live
allocations are written to. -/
def Valid (h : Heap) : HeapEvent → Prop
  | malloc _ _ => True
  | realloc ptr _ _ | free ptr => ptr = 0 ∨ ptr ∈ h.live.map Prod.fst
  | write a _ => ∃ x ∈ h.live, x.1 ≤ a ∧ a < x.1 + x.2

instance (h : Heap) : (e : HeapEvent) → Decidable (e.Valid h)
  | malloc _ _ => isTrue trivial
  | realloc _ _ _ => inferInstanceAs (Decidable (_ ∨ _))
  | free _ => inferInstanceAs (Decidable (_ ∨ _))
  | write a _ => inferInstanceAs (Decidable (∃ x ∈ h.live, x.1 ≤ a ∧ a < x.1 + x.2))

end HeapEvent

/-- A step of the program. -/
def HeapStep (h : Heap) (e : HeapEvent) (h' : Heap) : Prop :=
  e.Valid h ∧ e.exec h = .ok ((), h')

/-- **The heap at the start**: there are no blocks, and the memory from the break on is
zero. -/
structure Heap.Initial (h : Heap) : Prop where
  start : h.start = 0
  last : h.last = 0
  live : h.live = []
  brk_pos : 0 < h.brk
  brk_lt : h.brk < sizeMod
  blank : ∀ x, h.brk ≤ x → h.memory x = 0

/-! ## Overlap -/

/-- **The headers of the list**: those that `start` and `end` and the links of such
headers lead to. -/
inductive Heap.Reachable (h : Heap) : ℕ → Prop
  | start : h.start ≠ 0 → Reachable h h.start
  | last : h.last ≠ 0 → Reachable h h.last
  | next {b : ℕ} : Reachable h b → h.get .next b ≠ 0 → Reachable h (h.get .next b)
  | prev {b : ℕ} : Reachable h b → h.get .prev b ≠ 0 → Reachable h (h.get .prev b)

/-- The bytes of an allocation. -/
def payload (x : ℕ × ℕ) : Set ℕ := Set.Ico x.1 (x.1 + x.2)

/-- The bytes of a header. -/
def header (b : ℕ) : Set ℕ := Set.Ico b (b + blockSize)

/-- **No overlap**: the live allocations and the headers of the list are pairwise
disjoint and lie below the break. -/
structure Heap.NoOverlap (h : Heap) : Prop where
  payloads : h.live.Pairwise fun x y => Disjoint (payload x) (payload y)
  headers : ∀ b c, h.Reachable b → h.Reachable c → b ≠ c → Disjoint (header b) (header c)
  apart : ∀ x ∈ h.live, ∀ b, h.Reachable b → Disjoint (payload x) (header b)
  payload_brk : ∀ x ∈ h.live, x.1 + x.2 ≤ h.brk
  header_brk : ∀ b, h.Reachable b → b + blockSize ≤ h.brk

end MmAlloc
