import Mathlib

/-!
# C strings and the records that pack them

Keys and values travel through the key-value store as C strings. A
`CString` is the bytes before the terminator, and it carries the proof that
none of them is the terminator, so `strlen` is the length of the list and no
later proof has to ask where a string ends.

On disk two strings are concatenated, each with its terminator, and they are
found again by scanning: the first at offset `0`, the second one past the
first terminator. `ofData` is that scan, and `ofData_stored` and
`ofData_stored_append` say that it finds what was stored.
-/

/-- **A C string**: the bytes before the terminator. -/
structure CString where
  /-- The bytes, in order. -/
  bytes : List UInt8
  /-- None of them is the terminator. -/
  noNul : (0 : UInt8) ∉ bytes
  deriving DecidableEq

namespace CString

/-- `strlen`: the number of bytes before the terminator. -/
def strlen (s : CString) : ℕ := s.bytes.length

/-- The bytes a string occupies in memory, its terminator included. -/
def stored (s : CString) : List UInt8 := s.bytes ++ [0]

/-- **The string that starts at `data + ofs`**: the bytes up to the first
zero. A scan that meets no zero stops at the end of the block here; the code
goes on reading past it. -/
def ofData (data : List UInt8) (ofs : ℕ) : CString where
  bytes := (data.drop ofs).takeWhile (fun b => b != 0)
  noNul h := by simpa using List.mem_takeWhile_imp h

theorem ext_bytes {s t : CString} (h : s.bytes = t.bytes) : s = t := by
  cases s
  cases t
  cases h
  rfl

theorem length_stored (s : CString) : s.stored.length = s.strlen + 1 := by
  simp [stored, strlen]

/-- A scan over a stored string stops at its terminator. -/
theorem takeWhile_stored_append (s : CString) (rest : List UInt8) :
    (s.stored ++ rest).takeWhile (fun b => b != 0) = s.bytes := by
  have hall : ∀ b ∈ s.bytes, (b != 0) = true := by
    intro b hb
    rw [bne_iff_ne]
    rintro rfl
    exact s.noNul hb
  rw [stored, List.append_assoc, List.takeWhile_append_of_pos hall]
  simp

/-- The first string of a record is found at its start. -/
@[simp] theorem ofData_stored (s : CString) (rest : List UInt8) : ofData (s.stored ++ rest) 0 = s :=
  ext_bytes (s.takeWhile_stored_append rest)

/-- The second string of a record is found one past the first terminator. -/
@[simp] theorem ofData_stored_append (s t : CString) :
    ofData (s.stored ++ t.stored) (s.strlen + 1) = t := by
  refine ext_bytes ?_
  show ((s.stored ++ t.stored).drop (s.strlen + 1)).takeWhile _ = t.bytes
  rw [← s.length_stored, List.drop_left]
  simpa using t.takeWhile_stored_append []

/-- A string stored alone is found at its start. -/
@[simp] theorem ofData_stored_self (s : CString) : ofData s.stored 0 = s := by
  simpa using s.ofData_stored []

end CString
