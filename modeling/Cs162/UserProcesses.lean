import Cs162.Arguments
import Cs162.Filesys

/-!
# User processes and what their calls do

Here the system calls are modelled with all they do to the file system, to the
descriptors of a process and to the records of its children, for any number of
processes that make calls one after another. A call is one step, up to the point
where it has to wait for another process: `exec` for the child to be loaded, and
`wait` for it to exit. `start_process` is two steps of the new process, before
and after it tells its parent that it is loaded; in the second it opens its
executable again, as an ordinary descriptor, denies writes to it, and passes the
arguments.

A failed assertion, a null pointer, the use of freed memory, a page fault of the kernel
and a write behind a block or below the stack are the errors. The arguments are those
the functions get from `syscall_handler`: 32-bit words, strings that are mapped or
pointers that `is_safe` refuses, and buffers anywhere in the memory of the process.
Pages may run out for `process_execute`; `malloc` succeeds.
-/

namespace Pintos

/-- What stops the kernel. -/
inductive SystemPanic
  | filesys (e : FilesysPanic)
  /-- The assertion of `init_thread`: a thread has a name. -/
  | assertName
  /-- The assertion of `file_deny_write`: there is a file. -/
  | assertFile
  /-- A null pointer to a `child_process`. -/
  | nullRecord
  /-- A `child_process` that has been freed. -/
  | freedRecord
  /-- A page fault in the kernel, or a buffer that goes on into the kernel's memory. -/
  | pageFault
  /-- A pointer behind the block of `args`. -/
  | argsOverrun
  /-- An argument below the page of the stack. -/
  | stackOverrun
deriving DecidableEq

/-- `NOT_LOADED`, `LOAD_SUCCESS` and `LOAD_FAIL`. -/
inductive LoadStatus where
  | notLoaded
  | loadSuccess
  | loadFail
  deriving DecidableEq

/-- **Where a process stands.** -/
inductive UserPhase
  /-- It does not exist, or has exited. -/
  | absent
  /-- `start_process`, with the name of the program and the command line. -/
  | loading (name line : CString)
  /-- `start_process`, when `load` has succeeded. -/
  | starting (name line : CString)
  | running
  /-- `process_execute`, in `sema_down`. -/
  | awaitingLoad (child : ℕ)
  /-- `process_wait`, in `sema_down`. -/
  | waiting (child : ℕ)
  /-- In `sema_down` of a semaphore that no one has. -/
  | stuck
deriving DecidableEq

/-- `struct thread`, as far as system calls use it. -/
structure UserProcess where
  /-- `parent`, which the initial thread does not have. -/
  parent : Option ℕ
  /-- `child_list`: the records, by the child they are for. -/
  childList : List ℕ
  /-- `file_list`: descriptors and files. -/
  fileList : List (Int32 × ℕ)
  /-- `fd`: the next descriptor. -/
  fd : Int32
  phase : UserPhase
  /-- The inode that `start_process` has denied writes to, until the process
  exits. The code has no such field. -/
  executable : Option ℕ

/-- `MIN_FD`. -/
def minFd : Int32 := 2

/-- A thread that does not exist. -/
def UserProcess.blank : UserProcess := ⟨none, [], [], minFd, .absent, none⟩

/-- **A `child_process` record**, without the semaphore. -/
structure ChildRecord where
  loaded : LoadStatus
  waited : Bool
  exited : Bool
  status : Int32

/-- **The system**: the file system, the processes and the records. -/
structure System where
  fs : Filesys
  processes : ℕ → UserProcess
  /-- The record made for a child. -/
  records : ℕ → ChildRecord
  nextTid : ℕ

abbrev SystemM : Type → Type := Command SystemPanic System

/-- How a call ends, or that it has to wait. -/
inductive CallResult
  /-- It returns, with the value of `eax` if it gives one. -/
  | returns (eax : Option Int32)
  | exits
  | powersOff
  /-- It waits for a child that is not yet loaded, or has not exited. -/
  | blocks
  /-- It waits for good. -/
  | hangs
deriving DecidableEq

/-- What memory there is for `process_execute`. -/
inductive ExecMemory
  /-- No page for one of the copies of the command line. -/
  | noCopy
  /-- No page for the thread. -/
  | noThread
  /-- Enough, with what the memory of the new record holds. -/
  | enough (status : Int32)

/-- `ERROR`. -/
def callError : Int32 := -1

/-- `CLOSE_ALL`. -/
def closeAll : Int32 := -1

/-- `TID_ERROR`. -/
def tidError : ℤ := -1

namespace System

/-- A change of one process. -/
def update (s : System) (p : ℕ) (f : UserProcess → UserProcess) : System :=
  { s with processes := Function.update s.processes p (f (s.processes p)) }

/-- The process goes on to another phase. -/
def goto (s : System) (p : ℕ) (phase : UserPhase) : System :=
  s.update p fun process => { process with phase := phase }

/-- A change of one record. -/
def writeRecord (s : System) (c : ℕ) (f : ChildRecord → ChildRecord) : System :=
  { s with records := Function.update s.records c (f (s.records c)) }

/-- The record of the process is on its parent's list. -/
def recordListed (s : System) (p : ℕ) : Bool :=
  match (s.processes p).parent with
  | none => false
  | some q => p ∈ (s.processes q).childList

/-- `process_get_file`. -/
def processGetFile (s : System) (p : ℕ) (fd : Int32) : Option ℕ :=
  (s.processes p).fileList.lookup fd

/-- `get_child_process`. -/
def getChildProcess (s : System) (p : ℕ) (pid : ℤ) : Option ℕ :=
  (s.processes p).childList.find? fun c => (c : ℤ) = pid

end System

/-- A function of the file system. -/
def onFilesys {α : Type} (c : FilesysM α) : SystemM α :=
  c.inside System.fs (fun s fs => { s with fs := fs }) .filesys

section

variable (p : ℕ)

/-! ## Descriptors -/

/-- `process_add_file`. -/
def processAddFile (file : ℕ) : SystemM Int32 := do
  let fd := ((← Command.get).processes p).fd
  Command.modify fun s => s.update p fun process =>
    { process with fileList := process.fileList ++ [(fd, file)], fd := process.fd + 1 }
  pure fd

/-- A file is closed and taken off the list. -/
def closeEntry (entry : Int32 × ℕ) : SystemM Unit := do
  onFilesys (fileClose entry.2)
  Command.modify fun s => s.update p fun process =>
    { process with fileList := process.fileList.erase entry }

/-- The loop of `process_close_file`, over the rest of the list. -/
def closeFiles (fd : Int32) : List (Int32 × ℕ) → SystemM Unit
  | [] => pure ()
  | entry :: rest =>
    if fd = entry.1 ∨ fd = closeAll then do
      closeEntry p entry
      if fd ≠ closeAll then pure () else closeFiles fd rest
    else closeFiles fd rest

/-- `process_close_file`. -/
def processCloseFile (fd : Int32) : SystemM Unit := do
  closeFiles p fd ((← Command.get).processes p).fileList

/-! ## Leaving -/

/-- `process_exit`, and the end of `thread_exit`. -/
def processExit : SystemM CallResult := do
  Command.modify fun s => s.update p fun process => { process with executable := none }
  processCloseFile p closeAll
  -- `remove_child_processes`
  Command.modify fun s => s.update p fun process => { process with childList := [] }
  if (← Command.get).recordListed p then
    Command.modify fun s => s.writeRecord p fun record => { record with exited := true }
    Command.modify fun s => s.update p fun _ => .blank
    pure .exits
  else Command.stop .freedRecord

/-- `exit`. -/
def exit (status : Int32) : SystemM CallResult := do
  if (← Command.get).recordListed p then
    Command.modify fun s => s.writeRecord p fun record => { record with status := status }
    processExit p
  else Command.stop .freedRecord

/-! ## Executing a program -/

theorem nul_not_mem_take (s : CString) : 0 ∉ s.bytes.take (pgSize - 1) :=
  fun h => s.noNul (List.mem_of_mem_take h)

/-- `strlcpy` into a page. -/
def pageCopy (s : CString) : CString :=
  ⟨s.bytes.take (pgSize - 1), nul_not_mem_take s⟩

/-- The first token that `strtok_r` finds, with spaces for delimiters. -/
def firstToken (s : CString) : Option CString :=
  let rest := s.bytes.dropWhile (· == 32)
  if rest = [] then none
  else some ⟨rest.takeWhile (· != 32), fun h =>
    s.noNul ((List.dropWhile_sublist _).mem ((List.takeWhile_sublist _).mem h))⟩

/-- `thread_create` in `process_execute`: the child gets a record, on the list of the
parent. -/
def threadCreate (name line : CString) (status : Int32) : SystemM ℕ := do
  let child := (← Command.get).nextTid
  Command.modify fun s =>
    { (s.update child fun _ =>
        { UserProcess.blank with parent := some p, phase := .loading name line }) with
      records := Function.update s.records child ⟨.notLoaded, false, false, status⟩
      nextTid := child + 1 }
  Command.modify fun s => s.update p fun process =>
    { process with childList := process.childList ++ [child] }
  pure child

/-- `exec`, from the return of `process_execute` on. -/
def execEnd (childTid : ℤ) : SystemM CallResult := do
  let s ← Command.get
  match s.getChildProcess p childTid with
  | none => Command.stop .nullRecord
  | some c =>
    Command.modify fun s => s.goto p .running
    pure (.returns (some (if (s.records c).loaded = .loadFail then callError else .ofInt childTid)))

/-- `exec` of a command line, up to the point where it waits. -/
def exec (cmdLine : CString) : ExecMemory → SystemM CallResult
  | .noCopy => execEnd p tidError
  -- the thread is not created, and so `exec_sema` is never raised
  | .noThread => do
    Command.modify fun s => s.goto p .stuck
    pure .hangs
  | .enough status =>
    match firstToken (pageCopy cmdLine) with
    | none => Command.stop .assertName
    | some name => do
      let child ← threadCreate p name (pageCopy cmdLine) status
      Command.modify fun s => s.goto p (.awaitingLoad child)
      pure .blocks

/-- `load`: there may be no page for the page directory, and what the file holds may
or may not be a program that fits into memory. -/
def load (name : CString) (page good : Bool) : SystemM Bool :=
  if page then do
    match ← onFilesys (filesysOpen name) with
    | none => pure false
    | some file =>
      onFilesys (fileClose file)
      pure good
  else pure false

/-- `start_process`, until the parent is told. A pointer to every token goes into `args`,
which has been allocated with the length of the line for its size. -/
def startProcess (name line : CString) (page good : Bool) : SystemM CallResult :=
  if allocatedBytes (line.strlen + 1) < 4 * (words line.bytes).length then
    Command.stop .argsOverrun
  else do
    let success ← load name page good
    if (← Command.get).recordListed p then
      if success then
        Command.modify fun s => s.writeRecord p fun record => { record with loaded := .loadSuccess }
        Command.modify fun s => s.goto p (.starting name line)
        pure .blocks
      else
        Command.modify fun s => s.writeRecord p fun record => { record with loaded := .loadFail }
        processExit p
    else Command.stop .freedRecord

/-- `start_process`, from there on. The arguments go onto a stack of one page. -/
def denyExecutable (name line : CString) : SystemM CallResult := do
  match ← onFilesys (filesysOpen name) with
  | none => Command.stop .assertFile
  | some file =>
    let _ ← processAddFile p file
    onFilesys (fileDenyWrite file)
    let f ← onFilesys (fileOf file)
    if pgSize < imageSize (words line.bytes) then Command.stop .stackOverrun
    else
      Command.modify fun s => s.update p fun process =>
        { process with phase := .running, executable := some f.inode }
      pure (.returns none)

/-! ## Waiting -/

/-- `process_wait`, up to the point where it waits. -/
def processWait (childTid : ℤ) : SystemM CallResult := do
  let s ← Command.get
  match s.getChildProcess p childTid with
  | none => pure (.returns (some callError))
  | some c =>
    if (s.records c).waited then pure (.returns (some callError))
    else
      Command.modify fun s => s.writeRecord c fun record => { record with waited := true }
      if (s.records c).exited then pure (.returns (some (s.records c).status))
      else
        Command.modify fun s => s.goto p (.waiting c)
        pure .blocks

/-- `process_wait`, from `sema_down` on. -/
def waitEnd (c : ℕ) : SystemM CallResult := do
  let status := ((← Command.get).records c).status
  Command.modify fun s => s.update p fun process =>
    { process with childList := process.childList.erase c, phase := .running }
  pure (.returns (some status))

/-- A call that has waited goes on. -/
def resume : SystemM CallResult := do
  match ((← Command.get).processes p).phase with
  | .awaitingLoad c => execEnd p c
  | .waiting c => waitEnd p c
  | _ => pure .hangs

end

/-! ## The calls -/

/-- **A system call with its arguments.** A string is nothing where `is_safe` refuses the
pointer. A buffer is an address in the memory that the process has. -/
inductive SystemCall
  | halt
  | exit (status : Int32)
  | exec (cmdLine : Option CString) (memory : ExecMemory)
  | wait (pid : Int32)
  | create (file : Option CString) (initialSize : UInt32)
  | remove (file : Option CString)
  | open (file : Option CString)
  | filesize (fd : Int32)
  | read (fd : Int32) (memory : AddressSpace) (buffer size : UInt32)
  | write (fd : Int32) (memory : AddressSpace) (buffer size : UInt32)
  | seek (fd : Int32) (position : UInt32)
  | tell (fd : Int32)
  | close (fd : Int32)
  | null (i : Int32)
  /-- `is_safe` refuses the address of the number or of an argument. -/
  | badStack
  /-- A number that `syscall_handler` does not know. -/
  | unknown

namespace SystemCall

/-- The value of a `bool` in `eax`. -/
def ofBool (b : Bool) : Int32 := if b then 1 else 0

/-- A string argument behind `is_safe`. -/
def isSafe {α : Type} (p : ℕ) (pointer : Option α) (c : α → SystemM CallResult) :
    SystemM CallResult :=
  match pointer with
  | none => Pintos.exit p (-1)
  | some a => c a

/-- A call on an open file. -/
def withFile (p : ℕ) (fd : Int32) (missing : SystemM CallResult) (c : ℕ → SystemM CallResult) :
    SystemM CallResult := do
  match (← Command.get).processGetFile p fd with
  | none => missing
  | some file => c file

/-- **The function of a system call**, for the process that makes it. -/
def run (p : ℕ) : SystemCall → SystemM CallResult
  | halt => pure .powersOff
  | exit status => Pintos.exit p status
  | exec cmdLine memory => isSafe p cmdLine fun cmdLine => Pintos.exec p cmdLine memory
  | wait pid => processWait p pid.toInt
  | create file initialSize => isSafe p file fun file => do
    let success ← onFilesys (filesysCreate file initialSize.toInt32)
    pure (.returns (some (ofBool success)))
  | remove file => isSafe p file fun file => do
    let success ← onFilesys (filesysRemove file)
    pure (.returns (some (ofBool success)))
  | .open file => isSafe p file fun file => do
    match ← onFilesys (filesysOpen file) with
    | none => pure (.returns (some callError))
    | some f =>
      let fd ← processAddFile p f
      pure (.returns (some fd))
  | filesize fd => withFile p fd (pure (.returns (some callError))) fun f => do
    let size ← onFilesys (fileLength f)
    pure (.returns (some size))
  | read fd memory buffer size =>
    if fd = 1 then Pintos.exit p (-1)
    else if memory.isSafe buffer then
      if fd = 0 then pure (.returns (some size.toInt32))
      else withFile p fd (pure (.returns (some callError))) fun f => do
        -- `file_read` puts the bytes into the buffer as it goes
        let bytes ← onFilesys (fileRead f size.toInt32)
        if memory.Writable buffer bytes.length then pure (.returns (some (.ofNat bytes.length)))
        else Command.stop .pageFault
    else Pintos.exit p (-1)
  | write fd memory buffer size =>
    if fd = 0 then Pintos.exit p (-1)
    -- `buffer + size` wraps around
    else if memory.isSafe buffer && memory.isSafe (buffer + size) then
      if fd = 1 then
        -- `putbuf`
        if memory.Readable buffer size.toNat then pure (.returns (some size.toInt32))
        else Command.stop .pageFault
      else withFile p fd (Pintos.exit p (-1)) fun f => do
        let writtenSize ← onFilesys (fileWrite f (memory.bytesFrom buffer) size.toInt32)
        if memory.Readable buffer writtenSize then pure (.returns (some (.ofNat writtenSize)))
        else Command.stop .pageFault
    else Pintos.exit p (-1)
  | seek fd position => withFile p fd (pure (.returns none)) fun f => do
    onFilesys (fileSeek f position.toInt32)
    pure (.returns none)
  | tell fd => withFile p fd (pure (.returns (some callError))) fun f => do
    let offset ← onFilesys (fileTell f)
    pure (.returns (some offset))
  | close fd => do
    processCloseFile p fd
    pure (.returns none)
  | null i => pure (.returns (some (i + 1)))
  | badStack => Pintos.exit p (-1)
  | unknown => pure (.returns none)

end SystemCall

/-! ## Runs -/

/-- **What happens next.** -/
inductive SystemEvent
  | call (p : ℕ) (c : SystemCall)
  | resume (p : ℕ)
  | startProcess (p : ℕ) (page good : Bool)
  | denyExecutable (p : ℕ)

namespace SystemEvent

/-- The initial thread, which has the number zero, executes programs and waits for
them. -/
def initialThread : SystemCall → Bool
  | .exec (some _) _ | .wait _ => true
  | _ => false

/-- What can happen in a state. A call that waits goes on when the child has raised the
semaphore. -/
def enabled (s : System) : SystemEvent → Bool
  | call p c => (s.processes p).phase = .running ∧ (p = 0 → initialThread c)
  | .resume p =>
    match (s.processes p).phase with
    | .awaitingLoad c => (s.records c).loaded ≠ .notLoaded
    | .waiting c => (s.records c).exited
    | _ => false
  | .startProcess p _ _ =>
    match (s.processes p).phase with
    | .loading _ _ => true
    | _ => false
  | .denyExecutable p =>
    match (s.processes p).phase with
    | .starting _ _ => true
    | _ => false

/-- What is done. -/
def run (s : System) : SystemEvent → SystemM CallResult
  | call p c => c.run p
  | .resume p => Pintos.resume p
  | .startProcess p page good =>
    match (s.processes p).phase with
    | .loading name line => Pintos.startProcess p name line page good
    | _ => pure .hangs
  | .denyExecutable p =>
    match (s.processes p).phase with
    | .starting name line => Pintos.denyExecutable p name line
    | _ => pure .hangs

end SystemEvent

/-- The initial thread runs, over a file system that has been set up. -/
def System.initial (fs : Filesys) : System where
  fs := fs
  processes p := if p = 0 then { UserProcess.blank with phase := .running } else .blank
  records _ := ⟨.notLoaded, false, false, 0⟩
  nextTid := 1

/-- A step: something that can happen, and does not stop the kernel. -/
def SystemStep (s : System) (e : SystemEvent) (s' : System) : Prop :=
  e.enabled s = true ∧ ∃ result, e.run s s = .ok (result, s')

end Pintos
