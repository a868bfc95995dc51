import Cs162.ByteMemory
import Cs162.CString
import Cs162.KernelMalloc

/-!
# The arguments of a process

`start_process` cuts the command line into tokens with `strtok_r`, which works in
place: tokens are pointers into the page that holds the line. The pointers go into
the array `args`, the program is loaded, and then the tokens are copied to the user
stack, from the last to the first, with the array of their addresses below them, and
below that the arguments of the program's entry point.

The array `args` gets as many bytes as the line has, not as many as there are pointers
to be stored. What `malloc` allocates may be more, and what is behind it belongs to
others: the rest of the kernel, which runs while the program is loaded, may change any
byte but those of the page and of the block that `args` was given. `arg_address` has
the size it needs and is a local array here.
-/

namespace Pintos

/-! ## Strings in memory -/

/-- A loop that moves a pointer on while the byte there meets a condition, for a number
of turns. -/
def skipWhile (m : ByteMemory) (p : UInt8 → Bool) : ℕ → ℕ → Option ℕ
  | 0, _ => none
  | fuel + 1, s => if p (m s) then skipWhile m p fuel (s + 1) else some s

/-- `strlen`. -/
def strlenAt (m : ByteMemory) (a : ℕ) : Option ℕ :=
  (skipWhile m (fun c => c != 0) pgSize a).map (· - a)

/-- `strchr`: the terminator is found in every string. -/
def strchr (s : CString) (c : UInt8) : Bool := s.stored.contains c

/-- What `strtok_r` returns, and leaves in `save_ptr` and in memory. -/
structure Token where
  token : Option ℕ
  savePtr : ℕ
  memory : ByteMemory

/-- `strtok_r`, from a position. -/
def strtokR (m : ByteMemory) (delimiters : CString) (s : ℕ) : Option Token := do
  -- the first loop returns as soon as it meets the end of the string
  let s ← skipWhile m (fun c => strchr delimiters c && c != 0) pgSize s
  if m s = 0 then some ⟨none, s, m⟩
  else
    let token := s
    let s ← skipWhile m (fun c => !strchr delimiters c) pgSize s
    if m s ≠ 0 then some ⟨some token, s + 1, Function.update m s 0⟩
    else some ⟨some token, s, m⟩

/-! ## `start_process` -/

/-- The delimiters. -/
def space : CString := ⟨[32], by decide⟩

/-- The loop over the tokens, which fills `args`. -/
def splitLine (args : ℕ) : ℕ → ByteMemory → ℕ → ℕ → Option (ByteMemory × ℕ)
  | 0, _, _, _ => none
  | fuel + 1, m, s, argc => do
    let t ← strtokR m space s
    match t.token with
    | none => some (t.memory, argc)
    | some token =>
      splitLine args fuel (t.memory.store 4 (args + 4 * argc) token) t.savePtr (argc + 1)

/-- **The user stack**, and the register that points to it. -/
structure UserStack where
  memory : ByteMemory
  esp : ℕ

/-- A word is pushed. -/
def UserStack.push (s : UserStack) (v : ℕ) : UserStack :=
  ⟨s.memory.store 4 (s.esp - 4) v, s.esp - 4⟩

/-- The first loop of the second half: the tokens are copied, and their addresses kept. -/
def pushStrings (m : ByteMemory) (args : ℕ) :
    ℕ → UserStack → (ℕ → ℕ) → Option (UserStack × (ℕ → ℕ))
  | 0, s, argAddress => some (s, argAddress)
  | i + 1, s, argAddress => do
    let token := m.load 4 (args + 4 * i)
    let argLength := (← strlenAt m token) + 1
    let esp := s.esp - argLength
    pushStrings m args i ⟨s.memory.transfer m esp token argLength, esp⟩
      (Function.update argAddress i esp)

/-- The second loop. -/
def pushAddresses (argAddress : ℕ → ℕ) : ℕ → UserStack → UserStack
  | 0, s => s
  | i + 1, s => pushAddresses argAddress i (s.push (argAddress i))

/-- The second half of `start_process`. -/
def pushArguments (m : ByteMemory) (args argc : ℕ) (s : UserStack) : Option UserStack := do
  let (s, argAddress) ← pushStrings m args argc s fun _ => 0
  let s := pushAddresses argAddress argc (s.push 0)
  let s := s.push s.esp
  let s := s.push argc
  some (s.push 0)

/-- **`start_process`**, as far as the arguments go: the rest of the kernel runs between
the two halves. The stack of the process is one page. -/
def startArguments (fileName args : ℕ) (rest : ByteMemory → ByteMemory) (m user : ByteMemory) :
    Option UserStack := do
  let (m, argc) ← splitLine args (pgSize + 1) m fileName 0
  pushArguments (rest m) args argc ⟨user, physBase⟩

/-! ## What the process finds -/

/-- **The words of a line**: its maximal substrings without a space. -/
def words (line : List UInt8) : List (List UInt8) :=
  (line.splitOnP (· == 32)).filter (· ≠ [])

/-- The bytes of strings with their terminators. -/
def stringsSize (ws : List (List UInt8)) : ℕ := (ws.map fun w => w.length + 1).sum

/-- The bytes of the stack image. -/
def imageSize (ws : List (List UInt8)) : ℕ := stringsSize ws + 4 * (ws.length + 1) + 12

/-- **What an entry point in C reads**: the number of arguments, and the strings that
their array points to. -/
structure UserStack.Passes (s : UserStack) (ws : List (List UInt8)) : Prop where
  returnAddress : s.memory.load 4 s.esp = 0
  argc : s.memory.load 4 (s.esp + 4) = ws.length
  argv : ∀ i w, ws[i]? = some w →
    s.memory.Holds (s.memory.load 4 (s.memory.load 4 (s.esp + 8) + 4 * i)) (w ++ [0])
  null : s.memory.load 4 (s.memory.load 4 (s.esp + 8) + 4 * ws.length) = 0

/-- The command line is in its page, and `args` is a block of its own. -/
structure LinePlaced (line : CString) (fileName args : ℕ) (m : ByteMemory) : Prop where
  holds : m.Holds fileName line.stored
  page : fileName + pgSize ≤ addresses
  block : args + allocatedBytes (line.strlen + 1) ≤ addresses
  apart : args + allocatedBytes (line.strlen + 1) ≤ fileName ∨ fileName + pgSize ≤ args

/-- The rest of the kernel leaves the page and the block alone. -/
def Respects (line : CString) (fileName args : ℕ) (rest : ByteMemory → ByteMemory) : Prop :=
  ∀ m x, fileName ≤ x ∧ x < fileName + pgSize
    ∨ args ≤ x ∧ x < args + allocatedBytes (line.strlen + 1) → rest m x = m x

end Pintos
