/-
Wjos.Fs.OpenClose — `sys_open` and `sys_close` of several tasks at once.

`Fs.lean` runs each call as one step. Here a call is cut at the operations on
mutexes, where its task may be preempted or blocked: `file_alloc` and
`file_free` are one step each, since nothing happens between the lock and the
unlock of `file_alloc_mutex`; the mutex of the file system is held over
several steps, and `fatfs_close` is cut once more where it reads the
directory entry from the disk. Every task has a program counter (`FdPc`), and
an event lets one task take its next step, so a run is any interleaving. A
task in the wait list of the mutex takes no step; the unlock that hands it
the mutex moves its counter on.

There is one mounted volume; `dev` says of a slot that its file system is
`devfs`, which has no mutex and nothing to write back. What `fs->op->open`
stores and what the disk answers to `fatfs_close` come with the events. The
descriptor functions are those of `Fs.lean`. The last two fields of the state
only record what has happened.
-/
import Wjos.Lib.Sync
import Wjos.Fs.Fs
import Wjos.Fs.Fatfs.Fatfs

namespace Wjos

open Lib

/-- Where a task is in `sys_open` or `sys_close`, with its local variables
`file`, `fd` and `fs`. -/
inductive FdPc where
  | user
  /-- In `sys_open`, after `file_alloc`. -/
  | opened (file flags : Nat) (dev : Bool)
  /-- Before `fs_protect`. -/
  | openLock (file : Nat) (fd : Int) (dev : Bool)
  /-- In the wait list of the mutex. -/
  | openWait (file : Nat) (fd : Int)
  /-- In `fs->op->open`. -/
  | openFs (file : Nat) (fd : Int) (dev : Bool)
  /-- Before `fs_unprotect`, with the answer. -/
  | openUnlock (file : Nat) (fd : Int) (dev ok : Bool)
  /-- At `sys_open_failed`. -/
  | openFailed (file : Nat) (fd : Int)
  /-- In `sys_close`, after the last reference went, before `fs_protect`. -/
  | closeLock (file : Nat) (fd : Int) (dev : Bool)
  /-- In the wait list of the mutex. -/
  | closeWait (file : Nat) (fd : Int)
  /-- At the start of `fs->op->close`. -/
  | closeFs (file : Nat) (fd : Int) (dev : Bool)
  /-- In `fatfs_close`, with the entry `index` in the buffer. -/
  | closeEntry (file : Nat) (fd index : Int)
  /-- Before `fs_unprotect`. -/
  | closeUnlock (file : Nat) (fd : Int) (dev : Bool)
  /-- Before `file_free`. -/
  | closeFree (file : Nat) (fd : Int)
  /-- Before `task_remove_fd`. -/
  | removeFd (fd : Int)
  deriving DecidableEq, Repr

/-- A waiter that is handed the mutex. -/
def FdPc.granted : FdPc → FdPc
  | .openWait file fd => .openFs file fd false
  | .closeWait file fd => .closeFs file fd false
  | pc => pc

/-- What `fatfs_close` writes back: the entry it read, the entry it writes,
and what it stores there. -/
structure WriteBack where
  readIndex : Int
  index : Int
  size : Nat
  sblk : Nat
  deriving DecidableEq, Repr

/-- The second half of `fatfs_close`. -/
def fatfsCloseEntry (file : File) (readIndex : Int) : WriteBack where
  readIndex := readIndex
  index := file.pIndex
  size := file.size
  sblk := file.sblk

/-- The file table with the descriptors, and where each task is; `closing` is
the `file_t` that a task in `sys_close` took the last reference from. -/
structure OpenClose where
  desc : Files
  file : Nat → File
  dev : Nat → Bool
  mutex : Lock TaskId
  pc : TaskId → FdPc
  written : List WriteBack
  closing : TaskId → File

/-- The calls and the steps; `fsOpen` is the answer of `fs->op->open`, `fsClose`
the one of `read_dir_entry` to `fatfs_close`. -/
inductive OpenCloseEvent where
  | sysOpen (t : TaskId) (flags : Nat) (dev : Bool)
  | sysClose (t : TaskId) (fd : Int)
  | fsOpen (t : TaskId) (file : Option File)
  | fsClose (t : TaskId) (ok : Bool)
  | step (t : TaskId)
  deriving DecidableEq, Repr

/-- The task that the unlock wakes goes on. -/
def wakeFd (pc : TaskId → FdPc) : Option TaskId → TaskId → FdPc
  | none => pc
  | some u => Function.update pc u (pc u).granted

/-- `fs_protect`: `t` goes on to `inside`, or waits. -/
def fsProtect (s : OpenClose) (t : TaskId) (dev : Bool) (inside waiting : FdPc) : OpenClose :=
  if dev then { s with pc := Function.update s.pc t inside }
  else
    let (mutex, ok) := s.mutex.lock t
    { s with mutex := mutex, pc := Function.update s.pc t (if ok then inside else waiting) }

/-- `fs_unprotect`: `t` goes on to `next`. -/
def fsUnprotect (s : OpenClose) (t : TaskId) (dev : Bool) (next : FdPc) : OpenClose :=
  if dev then { s with pc := Function.update s.pc t next }
  else
    let (mutex, woken) := s.mutex.unlock t
    { s with mutex := mutex, pc := wakeFd (Function.update s.pc t next) woken }

def openCloseStep (s : OpenClose) : OpenCloseEvent → Option OpenClose
  | .sysOpen t flags dev =>
    match s.pc t with
    | .user =>
      match fileAlloc s.desc with
      | (_, none) => some s
      | (desc, some file) =>
        some { s with
          desc := desc
          file := Function.update s.file file (fileNew 0)
          pc := Function.update s.pc t (.opened file flags dev) }
    | _ => none
  | .sysClose t fd =>
    match s.pc t with
    | .user =>
      if isFdBed fd then some s
      else
        match taskFile s.desc t fd with
        | none => some s
        | some file =>
          if s.desc.ref file > 0 then
            let desc := { s.desc with
              ref := Function.update s.desc.ref file (s.desc.ref file - 1) }
            if s.desc.ref file = 1 then
              some { s with
                desc := desc
                pc := Function.update s.pc t (.closeLock file fd (s.dev file))
                closing := Function.update s.closing t (s.file file) }
            else some { s with desc := taskRemoveFd desc t fd }
          else none
    | _ => none
  | .fsOpen t result =>
    match s.pc t with
    | .openFs file fd dev =>
      match result with
      | none => some { s with pc := Function.update s.pc t (.openUnlock file fd dev false) }
      | some fields =>
        some { s with
          file := Function.update s.file file fields
          pc := Function.update s.pc t (.openUnlock file fd dev true) }
    | _ => none
  | .fsClose t ok =>
    match s.pc t with
    | .closeFs file fd dev =>
      some { s with
        pc := Function.update s.pc t
          (if dev ∨ ok = false then .closeUnlock file fd dev
          else .closeEntry file fd (s.file file).pIndex) }
    | _ => none
  | .step t =>
    match s.pc t with
    | .opened file flags dev =>
      let (desc, fd) := taskAllocFd s.desc t file
      if fd < 0 then
        some { s with desc := desc, pc := Function.update s.pc t (.openFailed file fd) }
      else
        some { s with
          desc := { desc with ref := Function.update desc.ref file 1 }
          file := Function.update s.file file { s.file file with mode := flags }
          dev := Function.update s.dev file dev
          pc := Function.update s.pc t (.openLock file fd dev) }
    | .openLock file fd dev => some (fsProtect s t dev (.openFs file fd dev) (.openWait file fd))
    | .openUnlock file fd dev ok =>
      some (fsUnprotect s t dev (if ok then .user else .openFailed file fd))
    | .openFailed file fd =>
      some { s with
        desc := fileFree s.desc file
        pc := Function.update s.pc t (if fd ≥ 0 then .removeFd fd else .user) }
    | .closeLock file fd dev =>
      some (fsProtect s t dev (.closeFs file fd dev) (.closeWait file fd))
    | .closeEntry file fd index =>
      some { s with
        pc := Function.update s.pc t (.closeUnlock file fd false)
        written := s.written ++ [fatfsCloseEntry (s.file file) index] }
    | .closeUnlock file fd dev => some (fsUnprotect s t dev (.closeFree file fd))
    | .closeFree file fd =>
      some { s with
        desc := fileFree s.desc file
        pc := Function.update s.pc t (.removeFd fd) }
    | .removeFd fd =>
      some { s with
        desc := taskRemoveFd s.desc t fd
        pc := Function.update s.pc t .user }
    | _ => none

/-- Nothing open, no call in progress. -/
def openCloseInit : OpenClose where
  desc := filesInit
  file := fun _ => fileNew 0
  dev := fun _ => false
  mutex := Lock.free
  pc := fun _ => .user
  written := []
  closing := fun _ => fileNew 0

end Wjos
