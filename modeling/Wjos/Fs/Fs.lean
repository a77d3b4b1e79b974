/-
Wjos.Fs.Fs — the descriptor calls of `kernel/fs/fs.c`, with the file table
of `kernel/fs/file.c` and the descriptor functions of `kernel/core/task.c`.

The state keeps the `ref` field of every slot of `file_table` and the
`file_table` of every task: `fileTable (t, fd)` is the slot that
`t->file_table[fd]` points to. The other fields of a slot (name, mode,
type, position) do not influence any of these functions. What the file
system's own `open` answers is the parameter `err` of `sysOpen`.

Calls are executed one at a time, so the mutexes of the file table have no
counterpart. A counter never holds more than the number of descriptors,
128 for each of 130 tasks, so `ref` needs no wrap-around.
-/
import Wjos.Core.Task

namespace Wjos

open Lib

/-- `FILE_TABLE_SIZE`. -/
def fileTableSize : Nat := 512

/-- `TASK_OFILE_NR`. -/
def taskOfileNr : Nat := 128

/-- The file table and the descriptor tables; `live` are the tasks that
have been started and have not exited. -/
structure Files where
  ref : Nat → Int
  fileTable : TaskId × Nat → Option Nat
  live : TaskId → Bool

/-- `file_alloc`. -/
def fileAlloc (s : Files) : Files × Option Nat :=
  match findSlot (fun i => s.ref i = 0) fileTableSize 0 with
  | none => (s, none)
  | some i => ({ s with ref := Function.update s.ref i 1 }, some i)

/-- `file_free`. -/
def fileFree (s : Files) (file : Nat) : Files :=
  if s.ref file ≠ 0 then { s with ref := Function.update s.ref file (s.ref file - 1) } else s

/-- `file_inc_ref`. -/
def fileIncRef (s : Files) (file : Nat) : Files :=
  { s with ref := Function.update s.ref file (s.ref file + 1) }

/-- `task_alloc_fd` of the current task `t`. -/
def taskAllocFd (s : Files) (t : TaskId) (file : Nat) : Files × Int :=
  match findSlot (fun i => (s.fileTable (t, i)).isNone) taskOfileNr 0 with
  | none => (s, -1)
  | some i => ({ s with fileTable := Function.update s.fileTable (t, i) (some file) }, i)

/-- `task_remove_fd`: the test is `fd > 0`. -/
def taskRemoveFd (s : Files) (t : TaskId) (fd : Int) : Files :=
  if fd > 0 ∧ fd < taskOfileNr then
    { s with fileTable := Function.update s.fileTable (t, fd.toNat) none }
  else s

/-- `task_file`: here the test is `fd >= 0`. -/
def taskFile (s : Files) (t : TaskId) (fd : Int) : Option Nat :=
  if fd ≥ 0 ∧ fd < taskOfileNr then s.fileTable (t, fd.toNat) else none

/-- `is_fd_bed`. -/
def isFdBed (file : Int) : Bool := file < 0 || file > taskOfileNr

/-- The failure path of `sys_open`. -/
def sysOpenFailed (s : Files) (t : TaskId) (file : Nat) (fd : Int) : Files × Int :=
  let s := fileFree s file
  (if fd ≥ 0 then taskRemoveFd s t fd else s, -1)

/-- `sys_open`; `err` is what `fs->op->open` returns. -/
def sysOpen (s : Files) (t : TaskId) (err : Int) : Files × Int :=
  match fileAlloc s with
  | (s, none) => (s, -1)
  | (s, some file) =>
    let (s, fd) := taskAllocFd s t file
    if fd < 0 then sysOpenFailed s t file fd
    else
      let s := { s with ref := Function.update s.ref file 1 }
      if err < 0 then sysOpenFailed s t file fd else (s, fd)

/-- `sys_close`; `none` when `ASSERT(p_file->ref > 0)` fails. -/
def sysClose (s : Files) (t : TaskId) (file : Int) : Option (Files × Int) :=
  if isFdBed file then some (s, 0)
  else
    match taskFile s t file with
    | none => some (s, -1)
    | some pFile =>
      if s.ref pFile > 0 then
        let s' := { s with ref := Function.update s.ref pFile (s.ref pFile - 1) }
        let s' := if s.ref pFile = 1 then fileFree s' pFile else s'
        some (taskRemoveFd s' t file, 0)
      else none

/-- `sys_dup`. -/
def sysDup (s : Files) (t : TaskId) (file : Int) : Files × Int :=
  if isFdBed file then (s, -1)
  else
    match taskFile s t file with
    | none => (s, -1)
    | some pFile =>
      let (s, fd) := taskAllocFd s t pFile
      if fd ≥ 0 then (fileIncRef s pFile, fd) else (s, -1)

/-- The body of the loop of `copy_opened_files`. -/
def copyOpenedFile (parent child : TaskId) (s : Files) (fd : Nat) : Files :=
  match s.fileTable (parent, fd) with
  | none => s
  | some file =>
    let s := fileIncRef s file
    { s with fileTable := Function.update s.fileTable (child, fd) (some file) }

/-- `copy_opened_files`. -/
def copyOpenedFiles (s : Files) (parent child : TaskId) : Files :=
  (List.range taskOfileNr).foldl (copyOpenedFile parent child) s

/-- What `sys_fork` does to the descriptors: `task_init` clears the table of
the child, the parent's is copied, and the child is started. -/
def sysFork (s : Files) (parent child : TaskId) : Files :=
  let s := { s with fileTable := fun p => if p.1 = child then none else s.fileTable p }
  let s := copyOpenedFiles s parent child
  { s with live := Function.update s.live child true }

/-- The body of the loop of `sys_exit` over the descriptors. -/
def sysExitFile (t : TaskId) (s : Files) (fd : Nat) : Option Files :=
  match s.fileTable (t, fd) with
  | none => some s
  | some _ =>
    (sysClose s t fd).map fun r =>
      { r.1 with fileTable := Function.update r.1.fileTable (t, fd) none }

/-- What `sys_exit` does to the descriptors. -/
def sysExit (s : Files) (t : TaskId) : Option Files :=
  ((List.range taskOfileNr).foldlM (sysExitFile t) s).map fun s =>
    { s with live := Function.update s.live t false }

/-! ## The calls -/

/-- The descriptor calls, with the task that makes them. -/
inductive FdEvent where
  | sysOpen (t : TaskId) (err : Int)
  | sysDup (t : TaskId) (fd : Int)
  | sysClose (t : TaskId) (fd : Int)
  | sysFork (t : TaskId) (i : Nat)
  | sysExit (t : TaskId)
  deriving DecidableEq, Repr

/-- The task that makes a call. -/
def FdEvent.task : FdEvent → TaskId
  | .sysOpen t _ => t
  | .sysDup t _ => t
  | .sysClose t _ => t
  | .sysFork t _ => t
  | .sysExit t => t

/-- One call of a live task. A fork needs a slot that no live task has. -/
def fdStep (s : Files) (e : FdEvent) : Option Files :=
  if s.live e.task then
    match e with
    | .sysOpen t err => some (sysOpen s t err).1
    | .sysDup t fd => some (sysDup s t fd).1
    | .sysClose t fd => (sysClose s t fd).map (·.1)
    | .sysFork t i =>
      if i < taskNr ∧ s.live (.slot i) = false then some (sysFork s t (.slot i)) else none
    | .sysExit t => sysExit s t
  else none

/-- After `file_table_init` and `task_first_init` nothing is open. -/
def filesInit : Files where
  ref := fun _ => 0
  fileTable := fun _ => none
  live := fun t => t = .first

end Wjos
