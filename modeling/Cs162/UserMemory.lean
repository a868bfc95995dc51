import Mathlib

/-!
# User memory, as the kernel touches it

A system call runs in kernel mode on the address space of the calling process, and
reads and writes buffers byte by byte through the pointers it is given. A byte on a page
that is not present makes the processor fault, and so does a store to a page that is not
writable, and the kernel panics. From `PHYS_BASE` on the memory is the kernel's own, and
reading it need not fault. Addresses are 32 bits wide and wrap around.
-/

namespace Pintos

/-- `PHYS_BASE`. -/
def physBase : ℕ := 0xc0000000

/-- `PGSIZE`. -/
def pgSize : ℕ := 4096

/-- The number of addresses. -/
def addresses : ℕ := 2 ^ 32

/-- `pg_round_down`. -/
def pgRoundDown (address : ℕ) : ℕ := address / pgSize * pgSize

/-- `pg_ofs`. -/
def pgOfs (address : ℕ) : ℕ := address % pgSize

/-- **The memory that a process has** when it makes a call: the pages that are present, its
own and the kernel's, those of them that may be written, and the bytes. -/
structure AddressSpace where
  mapped : UInt32 → Bool
  writable : UInt32 → Bool
  bytes : UInt32 → UInt8

namespace AddressSpace

/-- The test of `is_safe`, of one address. -/
def isSafe (memory : AddressSpace) (ptr : UInt32) : Bool :=
  ptr ≠ 0 && ptr.toNat < physBase && memory.mapped ptr

/-- The kernel reads a number of bytes without a page fault. -/
def Readable (memory : AddressSpace) (buffer : UInt32) (n : ℕ) : Prop :=
  ∀ i < n, memory.mapped (buffer + .ofNat i) = true

/-- The kernel writes a number of bytes without a page fault, and not to its own memory. -/
def Writable (memory : AddressSpace) (buffer : UInt32) (n : ℕ) : Prop :=
  ∀ i < n, (buffer + .ofNat i).toNat < physBase ∧ memory.mapped (buffer + .ofNat i) = true
    ∧ memory.writable (buffer + .ofNat i) = true

instance (memory : AddressSpace) (buffer : UInt32) (n : ℕ) : Decidable (memory.Readable buffer n) :=
  inferInstanceAs (Decidable (∀ i < n, _))

instance (memory : AddressSpace) (buffer : UInt32) (n : ℕ) : Decidable (memory.Writable buffer n) :=
  inferInstanceAs (Decidable (∀ i < n, _))

/-- The bytes from an address on. -/
def bytesFrom (memory : AddressSpace) (buffer : UInt32) (i : ℕ) : UInt8 :=
  memory.bytes (buffer + .ofNat i)

end AddressSpace

end Pintos
