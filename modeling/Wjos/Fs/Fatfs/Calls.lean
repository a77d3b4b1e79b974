/-
Wjos.Fs.Fatfs.Calls — the file calls of `kernel/fs/fs.c` on a mounted FAT
volume.

The two halves of the file system meet here: `desc` is the file table with
the descriptors (`Fs.lean`), `fat` the volume with the `file_t` of each slot
that `fatfs_open` filled in (`Fatfs.lean`). A slot of a device has a
reference count and no entry in `fat.files`, so `read`, `write`, `seek` and
`close` on it are another driver's and leave the volume alone.

Every call that reaches the volume does so with the mutex of the volume held,
so a call is one step. `sys_read` and `sys_write` compare the mode with
`O_WRONLY` and `O_RDONLY` to write a line to the log and go on; the
comparison has no counterpart here. A buffer is a list, so the test `!ptr`
has none either.
-/
import Wjos.Fs.Fs
import Wjos.Fs.Fatfs.Fatfs

namespace Wjos

open Lib

/-- The descriptors and the volume. -/
structure SysFs where
  desc : Files
  fat : FatFs

/-- The slot that `fd` of `t` refers to, for a call that goes on after
`is_fd_bed` and `task_file`. -/
def SysFs.slotOf (s : SysFs) (t : TaskId) (fd : Int) : Option Nat :=
  if isFdBed fd then none else taskFile s.desc t fd

/-- The file of the volume that `fd` of `t` refers to. -/
def SysFs.fileOf (s : SysFs) (t : TaskId) (fd : Int) : Option File :=
  (s.slotOf t fd).bind s.fat.files

/-- The `file_t` in slot `i` after an operation of the file system. -/
def FatFs.put (fs : FatFs) (v : Volume) (i : Nat) (file : Option File) : FatFs where
  vol := v
  files := Function.update fs.files i file

section Calls

variable (dev : Dev) (g : Fat) (fuel : Nat) (s : SysFs) (t : TaskId)

/-- `sys_open` of a path on the volume. -/
def sysOpenFile (path : List UInt8) (flags : Nat) : Option (SysFs × Int) :=
  match fileAlloc s.desc with
  | (_, none) => some (s, -1)
  | (desc, some i) =>
    let (desc, fd) := taskAllocFd desc t i
    if fd < 0 then
      let (desc, err) := sysOpenFailed desc t i fd
      some ({ s with desc := desc }, err)
    else
      let desc := { desc with ref := Function.update desc.ref i 1 }
      (fatfsOpen dev g fuel s.fat.vol path (fileNew flags)).map fun (v, file, err) =>
        if err < 0 then
          let (desc, err) := sysOpenFailed desc t i fd
          ({ desc := desc, fat := s.fat.put v i none }, err)
        else ({ desc := desc, fat := s.fat.put v i (some file) }, fd)

/-- `sys_read`; `len` is the 32-bit pattern of the argument. -/
def sysReadFile (fd : Int) (len : Nat) : Option SysFs :=
  match s.slotOf t fd with
  | none => some s
  | some i =>
    match s.fat.files i with
    | none => some s
    | some file =>
      if len = 0 then some s
      else
        (fatfsRead dev g fuel s.fat.vol (fun _ => 0) len file).map fun (v, file, _) =>
          { s with fat := s.fat.put v i (some file) }

/-- `sys_write`. -/
def sysWriteFile (fd : Int) (buf : List UInt8) : Option SysFs :=
  match s.slotOf t fd with
  | none => some s
  | some i =>
    match s.fat.files i with
    | none => some s
    | some file =>
      if buf = [] then some s
      else
        (fatfsWrite dev g fuel s.fat.vol (bufOf buf) buf.length file).map fun (v, file, _) =>
          { s with fat := s.fat.put v i (some file) }

/-- `sys_lseek`. -/
def sysLseekFile (fd : Int) (ptr : Nat) (dir : Int) : Option SysFs :=
  match s.slotOf t fd with
  | none => some s
  | some i =>
    match s.fat.files i with
    | none => some s
    | some file =>
      (fatfsSeek dev g s.fat.vol file ptr dir).map fun (v, file, _) =>
        { s with fat := s.fat.put v i (some file) }

/-- What `sys_close` does to the volume: `fs->op->close` when the last
reference goes. -/
def closeFat (i : Nat) : FatFs :=
  if s.desc.ref i = 1 then
    match s.fat.files i with
    | none => s.fat
    | some file => s.fat.put (fatfsClose dev g s.fat.vol file) i none
  else s.fat

/-- `sys_close`; `none` when its `ASSERT` fails. -/
def sysCloseFile (fd : Int) : Option SysFs :=
  match s.slotOf t fd with
  | none => some s
  | some i =>
    (sysClose s.desc t fd).map fun r => { desc := r.1, fat := closeFat dev g s i }

/-- One round of the loop of `sys_exit` over the descriptors. -/
def sysExitFd (fd : Nat) : Option SysFs :=
  match s.desc.fileTable (t, fd) with
  | none => some s
  | some _ =>
    (sysCloseFile dev g s t fd).map fun s =>
      { s with desc.fileTable := Function.update s.desc.fileTable (t, fd) none }

end Calls

/-! ## The calls -/

/-- The calls, with the task that makes them; `sysOpenDev` is a `sys_open`
that another file system answers with `err`, `sysExitFd` a round of the loop
of `sys_exit` and `sysExit` what follows the loop. -/
inductive SysEvent where
  | sysOpen (t : TaskId) (path : List UInt8) (flags : Nat)
  | sysOpenDev (t : TaskId) (err : Int)
  | sysRead (t : TaskId) (fd : Int) (len : Nat)
  | sysWrite (t : TaskId) (fd : Int) (buf : List UInt8)
  | sysLseek (t : TaskId) (fd : Int) (ptr : Nat) (dir : Int)
  | sysClose (t : TaskId) (fd : Int)
  | sysDup (t : TaskId) (fd : Int)
  | sysFork (t : TaskId) (i : Nat)
  | sysExitFd (t : TaskId) (fd : Nat)
  | sysExit (t : TaskId)
  | sysUnlink (t : TaskId) (path : List UInt8)
  deriving DecidableEq, Repr

/-- The task that makes a call. -/
def SysEvent.task : SysEvent → TaskId
  | .sysOpen t _ _ => t
  | .sysOpenDev t _ => t
  | .sysRead t _ _ => t
  | .sysWrite t _ _ => t
  | .sysLseek t _ _ _ => t
  | .sysClose t _ => t
  | .sysDup t _ => t
  | .sysFork t _ => t
  | .sysExitFd t _ => t
  | .sysExit t => t
  | .sysUnlink t _ => t

/-- One call. -/
def sysCall (dev : Dev) (g : Fat) (fuel : Nat) (s : SysFs) : SysEvent → Option SysFs
  | .sysOpen t path flags => (sysOpenFile dev g fuel s t path flags).map (·.1)
  | .sysOpenDev t err => some { s with desc := (sysOpen s.desc t err).1 }
  | .sysRead t fd len => sysReadFile dev g fuel s t fd len
  | .sysWrite t fd buf => sysWriteFile dev g fuel s t fd buf
  | .sysLseek t fd ptr dir => sysLseekFile dev g s t fd ptr dir
  | .sysClose t fd => sysCloseFile dev g s t fd
  | .sysDup t fd => some { s with desc := (sysDup s.desc t fd).1 }
  | .sysFork t i =>
    if i < taskNr ∧ s.desc.live (.slot i) = false then
      some { s with desc := sysFork s.desc t (.slot i) }
    else none
  | .sysExitFd t fd => if fd < taskOfileNr then sysExitFd dev g s t fd else none
  | .sysExit t => some { s with desc.live := Function.update s.desc.live t false }
  | .sysUnlink _ path =>
    (fatfsUnlink dev g fuel s.fat.vol path).map fun (v, _) => { s with fat.vol := v }

/-- One call of a live task. -/
def sysStep (dev : Dev) (g : Fat) (fuel : Nat) (s : SysFs) (e : SysEvent) : Option SysFs :=
  if s.desc.live e.task then sysCall dev g fuel s e else none

/-- After booting: nothing open, `fs` the mounted volume. -/
def sysInit (fs : FatFs) : SysFs where
  desc := filesInit
  fat := { fs with files := fun _ => none }

end Wjos
