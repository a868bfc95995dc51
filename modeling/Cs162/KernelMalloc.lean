import Cs162.Command
import Cs162.UserMemory

/-!
# The kernel's memory allocator

`malloc` rounds a request up to the block size of one of its descriptors. The
blocks of a descriptor are cut from pages, its arenas, which begin with a header.
A request that no descriptor has blocks for gets pages of its own, behind a header
of the same kind.

The list of free blocks of a descriptor mixes blocks of all its arenas. `free` finds
the arena of a block by rounding its address down to the page, and returns an arena
whose blocks are all free to the page allocator, after taking them off the list.
-/

namespace Pintos

/-- `struct desc`: the size of the blocks, and how many there are in an arena. The list of
free blocks changes and is part of the state. -/
structure Desc where
  blockSize : ℕ
  blocksPerArena : ℕ
deriving DecidableEq

/-- The size of `struct arena`. -/
def arenaSize : ℕ := 12

/-- The loop of `malloc_init`, from a block size on. -/
def mallocInit : ℕ → ℕ → List Desc
  | 0, _ => []
  | fuel + 1, blockSize =>
    if blockSize < pgSize / 2 then
      ⟨blockSize, (pgSize - arenaSize) / blockSize⟩ :: mallocInit fuel (blockSize * 2)
    else []

/-- `descs`, which has room for ten. -/
def descs : List Desc := mallocInit 10 16

/-- The pages of a request that is too big for any descriptor. -/
def pageCnt (size : ℕ) : ℕ := ((size + arenaSize) % addresses + (pgSize - 1)) % addresses / pgSize

/-- The descriptor a request is served from. -/
def descFor (size : ℕ) : Option Desc := descs.find? fun d => decide (size ≤ d.blockSize)

/-- `block_size`: the number of bytes that are allocated for a request. -/
def allocatedBytes (size : ℕ) : ℕ :=
  match descFor size with
  | some d => d.blockSize
  | none => pgSize * pageCnt size - arenaSize

/-! ## Arenas and free lists -/

/-- `struct arena`: the descriptor, or none for a big block, and the number of free blocks,
or of pages of a big block. A header whose `magic` is right is one that is there. -/
structure Arena where
  desc : Option Desc
  freeCnt : ℕ
deriving DecidableEq

/-- **The allocator's state**: the headers, by address, and the list of free blocks of each
descriptor. -/
structure KernelHeap where
  arenas : ℕ → Option Arena
  freeList : Desc → List ℕ

/-- What the allocator's assertions rule out. -/
inductive MallocFault
  /-- An arena at the null pointer. -/
  | nullArena
  /-- A header without `ARENA_MAGIC`. -/
  | badMagic
  /-- A block that is not aligned for its arena. -/
  | misaligned
  /-- A big block that does not start behind its header. -/
  | badOffset
  /-- The index of a block that its arena does not have. -/
  | badIndex
  /-- An arena with more free blocks than blocks. -/
  | tooManyFree
  /-- Taking a block from an empty list, or one that is in no list. -/
  | notListed
deriving DecidableEq

abbrev KernelHeapM : Type → Type := Command MallocFault KernelHeap

namespace KernelHeap

/-- The heap after `malloc_init`. -/
def init : KernelHeap := ⟨fun _ => none, fun _ => []⟩

/-- A change of one header. -/
def withArena (h : KernelHeap) (a : ℕ) (arena : Option Arena) : KernelHeap :=
  { h with arenas := Function.update h.arenas a arena }

/-- A change of one list of free blocks. -/
def withFreeList (h : KernelHeap) (d : Desc) (list : List ℕ) : KernelHeap :=
  { h with freeList := Function.update h.freeList d list }

/-- A header that must be there: the assertion that its `magic` is right. -/
def arenaAt (a : ℕ) : KernelHeapM Arena := do
  if a = 0 then Command.stop .nullArena
  else
    match (← Command.get).arenas a with
    | some arena => pure arena
    | none => Command.stop .badMagic

/-- `block_to_arena`. The offset of the block is unsigned. -/
def blockToArena (b : ℕ) : KernelHeapM (ℕ × Arena) := do
  let arena ← arenaAt (pgRoundDown b)
  match arena.desc with
  | some d =>
    if (pgOfs b + addresses - arenaSize) % addresses % d.blockSize = 0 then
      pure (pgRoundDown b, arena)
    else Command.stop .misaligned
  | none =>
    if pgOfs b = arenaSize then pure (pgRoundDown b, arena) else Command.stop .badOffset

/-- The address of a block of an arena. -/
def blockAt (d : Desc) (a idx : ℕ) : ℕ := a + arenaSize + idx * d.blockSize

/-- `arena_to_block`. -/
def arenaToBlock (a idx : ℕ) : KernelHeapM ℕ := do
  let arena ← arenaAt a
  match arena.desc with
  | some d => if idx < d.blocksPerArena then pure (blockAt d a idx) else Command.stop .badIndex
  | none => Command.stop .badIndex

/-- `list_push_back` of the blocks of a new arena. -/
def pushBlocks (d : Desc) (a : ℕ) : List ℕ → KernelHeapM Unit
  | [] => pure ()
  | i :: is => do
    let b ← arenaToBlock a i
    Command.modify fun h => h.withFreeList d (h.freeList d ++ [b])
    pushBlocks d a is

/-- `list_pop_front`. -/
def popFront (d : Desc) : KernelHeapM ℕ := do
  match (← Command.get).freeList d with
  | [] => Command.stop .notListed
  | b :: list => do
    Command.modify fun h => h.withFreeList d list
    pure b

/-- The part of `malloc` that makes a new arena if there is no free block, with what
`palloc_get_page` returns; false if that fails. -/
def refill (d : Desc) (page : Option ℕ) : KernelHeapM Bool := do
  match (← Command.get).freeList d, page with
  | [], none => pure false
  | [], some a => do
    Command.modify fun h => h.withArena a (some ⟨some d, d.blocksPerArena⟩)
    pushBlocks d a (List.range d.blocksPerArena)
    pure true
  | _ :: _, _ => pure true

/-- **`malloc`**, with the address that the page allocator returns if it is asked. -/
def malloc (size : ℕ) (page : Option ℕ) : KernelHeapM (Option ℕ) :=
  if size = 0 then pure none
  else
    match descFor size with
    | none =>
      match page with
      | none => pure none
      | some a => do
        Command.modify fun h => h.withArena a (some ⟨none, pageCnt size⟩)
        pure (some (a + arenaSize))
    | some d => do
      if ← refill d page then do
        let b ← popFront d
        let (a, arena) ← blockToArena b
        Command.modify fun h => h.withArena a (some { arena with freeCnt := arena.freeCnt - 1 })
        pure (some b)
      else pure none

/-- `list_remove` of the blocks of an arena. -/
def removeBlocks (d : Desc) (a : ℕ) : List ℕ → KernelHeapM Unit
  | [] => pure ()
  | i :: is => do
    let b ← arenaToBlock a i
    let h ← Command.get
    if b ∈ h.freeList d then do
      Command.modify fun h => h.withFreeList d ((h.freeList d).erase b)
      removeBlocks d a is
    else Command.stop .notListed

/-- The part of `free` that returns an arena whose blocks are all free. `palloc_free_page`
takes the header with the page. -/
def releaseArena (d : Desc) (a freeCnt : ℕ) : KernelHeapM Unit :=
  if freeCnt = d.blocksPerArena then do
    removeBlocks d a (List.range d.blocksPerArena)
    Command.modify fun h => h.withArena a none
  else Command.stop .tooManyFree

/-- **`free`.** `palloc_free_multiple` takes the header of a big block with its pages. -/
def free : Option ℕ → KernelHeapM Unit
  | none => pure ()
  | some b => do
    let (a, arena) ← blockToArena b
    match arena.desc with
    | some d => do
      Command.modify fun h => h.withFreeList d (b :: h.freeList d)
      Command.modify fun h => h.withArena a (some { arena with freeCnt := arena.freeCnt + 1 })
      if d.blocksPerArena ≤ arena.freeCnt + 1 then releaseArena d a (arena.freeCnt + 1)
      else pure ()
    | none => Command.modify fun h => h.withArena a none

end KernelHeap

end Pintos
