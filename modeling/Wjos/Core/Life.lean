/-
Wjos.Core.Life — what the life of a process takes and gives back:
`tss_init`, `task_init`, `task_uninit`, `sys_fork`, `sys_execve`,
`sys_exit`, `sys_wait` of `kernel/core/task.c` and `sys_sbrk` of
`kernel/core/memory.c`, with the frames, the descriptors of the GDT and
`task_list`.

`Task.lean` has the scheduler and `Process.lean` the interleaving of the
calls. Here each call is one step of the task that makes it, the scheduler is
left open, and the state holds what those modules leave out: physical memory,
the GDT, the TSS of each task, its heap bounds and `task_list`.

The file layer is a parameter: `FileLayer` is what `sys_open`, `sys_read`,
`sys_lseek`, `sys_close` and the loops over descriptors may do, for files of
any kind. Local variables that a failed read leaves as they were hold what
lay on the kernel stack, `junk`. The strings of a call are passed as lists,
without their NUL; `argv` ends where the list does.
-/
import Wjos.Core.Paging
import Wjos.Core.Task
import Wjos.Cpu.Gdt
import Wjos.Tools.Klib

namespace Wjos.Os

open Lib

/-- `TASK_NAME_SIZE`. -/
def taskNameSize : Nat := 32

/-- `MEM_TASK_STACK_TOP`. -/
def memTaskStackTop : Nat := 0xE0000000

/-- `MEM_TASK_STACK_SIZE`. -/
def memTaskStackSize : Nat := 4096 * 500

/-- `MEM_TASK_ARG_SIZE`. -/
def memTaskArgSize : Nat := 4096 * 4

/-- `EFLAGS_IF | EFLAGS_DEFAULT`. -/
def eflagsUser : Nat := 0x202

/-- `SYSCALL_PARAM_COUNT`. -/
def syscallParamCount : Nat := 5

/-- `sizeof(syscall_frame_t)`. -/
def syscallFrameSize : Nat := 88

/-- `TASK_FLAGS_SYSTEM`. -/
def taskFlagsSystem : Nat := 1

/-- `KERNEL_SELECTOR_CS`. -/
def kernelSelectorCs : Nat := 8

/-- `KERNEL_SELECTOR_DS`. -/
def kernelSelectorDs : Nat := 16

/-- `SEG_CPL_3`. -/
def segCpl3 : Nat := 3

/-- The registers of `tss_t` that are stored to. -/
structure Tss where
  esp0 : Nat
  ss0 : Nat
  cr3 : Nat
  eip : Nat
  eflags : Nat
  eax : Nat
  ecx : Nat
  edx : Nat
  ebx : Nat
  esp : Nat
  ebp : Nat
  esi : Nat
  edi : Nat
  es : Nat
  cs : Nat
  ss : Nat
  ds : Nat
  fs : Nat
  gs : Nat

/-- A zeroed `tss_t`. -/
def Tss.zero : Tss := ⟨0, 0, 0, 0, 0, 0, 0, 0, 0, 0, 0, 0, 0, 0, 0, 0, 0, 0, 0⟩

/-- `task_t` without its list nodes and its descriptor table. `tid` is the
address of the structure, or nothing in a zeroed one. -/
structure TaskT where
  state : TaskState
  tid : Option TaskId
  parent : Option TaskId
  heapStart : Nat
  heapEnd : Nat
  sleepTicks : Int
  timeTicks : Int
  sliceTicks : Int
  status : Int
  name : Nat → UInt8
  tss : Tss
  tssSel : Nat

/-- A zeroed `task_t`. -/
def TaskT.zero : TaskT := ⟨.created, none, none, 0, 0, 0, 0, 0, 0, fun _ => 0, Tss.zero, 0⟩

/-- What the calls here use of the file layer, for the task that makes the
call. `none` is a machine that stops. -/
structure FileLayer (φ : Type) where
  sysOpen : φ → TaskId → List UInt8 → Option (Int × φ)
  /-- The result, and what is stored to the buffer. -/
  sysRead : φ → TaskId → Int → Nat → Option ((Int × List UInt8) × φ)
  sysLseek : φ → TaskId → Int → Nat → Option (Int × φ)
  sysClose : φ → TaskId → Int → Option (Int × φ)
  /-- `kernel_memset(&task->file_table, 0, sizeof(task->file_table))`. -/
  clearFileTable : φ → TaskId → φ
  /-- `copy_opened_files` from a parent to its child. -/
  copyOpenedFiles : φ → TaskId → TaskId → φ
  /-- The loop of `sys_exit` over the descriptors. -/
  closeFiles : φ → TaskId → Option φ
  /-- A read stores no more than it was asked for. -/
  length_le : ∀ s t fd len r, sysRead s t fd len = some r → r.1.2.length ≤ len

/-- The state of the kernel. -/
structure OsState (φ : Type) where
  phys : PhysMem
  gdt : Gdt
  appCodeSel : Nat
  appDataSel : Nat
  task : TaskId → TaskT
  allNode : TaskId → Links TaskId
  taskList : ListT TaskId
  files : φ

variable {φ α : Type}

/-- A store into the structure of `t`. -/
def OsState.setTask (s : OsState φ) (t : TaskId) (p : TaskT) : OsState φ :=
  { s with task := Function.update s.task t p }

/-- A program on physical memory. -/
def onPhys (x : Prog PhysMem α) : Prog (OsState φ) α :=
  zoom OsState.phys (fun m s => { s with phys := m }) x

/-- A call of the file layer. -/
def onFiles (x : φ → Option (α × φ)) : Prog (OsState φ) α :=
  zoom OsState.files (fun f s => { s with files := f }) x

/-- A store into the structure of `t` that its old contents decide. -/
def editTask (t : TaskId) (f : TaskT → TaskT) : Prog (OsState φ) Unit :=
  store fun s => s.setTask t (f (s.task t))

/-! ## The structures of a task -/

/-- `tss_init_failed` of `tss_init`. -/
def tssInitFailed (cr3 tssSel kernelStack : Nat) : Prog (OsState φ) Int := do
  store fun s => { s with gdt := gdtFreeSel s.gdt tssSel }
  onlyIf (kernelStack ≠ 0) (onPhys (memoryFreePage cr3 kernelStack))
  pure (-1)

/-- `tss_init` from the line on where it has found `tss_sel`. -/
def tssInitSel (cr3 : Nat) (task : TaskId) (flag entry esp tssSel : Nat) :
    Prog (OsState φ) Int := do
  store fun s => { s with gdt := segmentDescSet s.gdt tssSel tssSize segTss }
  editTask task fun p => { p with tss := Tss.zero }
  let codeSel ← look fun s =>
    if flag &&& taskFlagsSystem ≠ 0 then kernelSelectorCs else s.appCodeSel ||| segCpl3
  let dataSel ← look fun s =>
    if flag &&& taskFlagsSystem ≠ 0 then kernelSelectorDs else s.appDataSel ||| segCpl3
  let kernelStack ← onPhys paddrAllocPage
  if kernelStack = 0 then tssInitFailed cr3 tssSel kernelStack
  else do
    editTask task fun p => { p with
      tss := { p.tss with
        eip := entry
        esp := esp
        esp0 := kernelStack + 4096
        ss := dataSel
        ss0 := kernelSelectorDs
        es := dataSel
        ds := dataSel
        fs := dataSel
        gs := dataSel
        cs := codeSel
        eflags := eflagsUser } }
    let pageDir ← onPhys memoryCreateUvm
    if pageDir = 0 then do
      store fun s => { s with gdt := gdtFreeSel s.gdt tssSel }
      tssInitFailed cr3 tssSel kernelStack
    else do
      editTask task fun p => { p with tss := { p.tss with cr3 := pageDir }, tssSel := tssSel }
      pure 0

/-- `tss_init`; `cr3` is the directory of the current task. -/
def tssInit (cr3 : Nat) (task : TaskId) (flag entry esp : Nat) : Prog (OsState φ) Int := do
  let tssSel ← look fun s => gdtAllocDesc s.gdt
  if tssSel < 0 then pure (-1)
  else tssInitSel cr3 task flag entry esp tssSel.toNat

/-- `task_init`. What `tss_init` returns is not looked at. -/
def taskInit (L : FileLayer φ) (cr3 : Nat) (task : TaskId) (name : Nat → UInt8)
    (flag entry esp : Nat) : Prog (OsState φ) Int := do
  let _ ← tssInit cr3 task flag entry esp
  editTask task fun p => { p with
    name := kernelStrncpy p.name name taskNameSize
    parent := none
    state := .created
    sleepTicks := 0
    heapStart := 0
    heapEnd := 0
    timeTicks := taskTimeSliceDefault
    sliceTicks := taskTimeSliceDefault
    status := 0
    tid := some task }
  store fun s =>
    let r := listInsertLast (Function.update s.allNode task nodeInit) s.taskList task
    { s with allNode := r.1, taskList := r.2, files := L.clearFileTable s.files task }
  pure 0

/-- `kernel_memset(task, 0, sizeof(task_t))`. -/
def zeroTask (L : FileLayer φ) (task : TaskId) : Prog (OsState φ) Unit :=
  store fun s =>
    { s.setTask task TaskT.zero with
      allNode := Function.update s.allNode task nodeInit
      files := L.clearFileTable s.files task }

/-- `task_uninit`. -/
def taskUninit (L : FileLayer φ) (cr3 : Nat) (task : TaskId) : Prog (OsState φ) Unit := do
  let p ← look fun s => s.task task
  onlyIf (p.tssSel ≠ 0) (store fun s => { s with gdt := gdtFreeSel s.gdt p.tssSel })
  onlyIf (p.tss.esp0 ≠ 0) (onPhys (memoryFreePage cr3 (u32 (p.tss.esp - 4096 : Int))))
  onlyIf (p.tss.cr3 ≠ 0) (onPhys (memoryDestroyUvm p.tss.cr3))
  zeroTask L task

/-- `alloc_task`. -/
def allocTask (s : OsState φ) : Option Nat :=
  findSlot (fun i => (s.task (.slot i)).name 0 = 0) taskNr 0

/-- `free_task`. -/
def freeTask (task : TaskId) : Prog (OsState φ) Unit :=
  editTask task fun p => { p with name := Function.update p.name 0 0 }

/-! ## `sys_fork` -/

/-- The word at offset `off` of the `syscall_frame_t` of the caller. -/
def frameWord (esp0 off : Nat) : Prog (OsState φ) Nat :=
  onPhys (loadWord (esp0 - syscallFrameSize + off))

/-- `fork_failed` of `sys_fork`, with a child. -/
def forkFailed (L : FileLayer φ) (cr3 : Nat) (child : TaskId) :
    Prog (OsState φ) (Option TaskId) := do
  taskUninit L cr3 child
  freeTask child
  pure none

/-- The stores of `sys_fork` into `child_task->tss`, from the frame of the
parent `t`, and the one of the parent. -/
def copyFrame (esp0 : Nat) (t child : TaskId) : Prog (OsState φ) Unit := do
  let ebx ← frameWord esp0 36
  let ecx ← frameWord esp0 44
  let edx ← frameWord esp0 40
  let esi ← frameWord esp0 24
  let edi ← frameWord esp0 20
  let ebp ← frameWord esp0 28
  let cs ← frameWord esp0 56
  let ds ← frameWord esp0 16
  let es ← frameWord esp0 12
  let fs ← frameWord esp0 8
  let gs ← frameWord esp0 4
  let eflags ← frameWord esp0 0
  editTask child fun p => { p with
    tss := { p.tss with
      eax := 0
      ebx := ebx
      ecx := ecx
      edx := edx
      esi := esi
      edi := edi
      ebp := ebp
      cs := cs
      ds := ds
      es := es
      fs := fs
      gs := gs
      eflags := eflags }
    parent := some t }

/-- `sys_fork` of `t`, once `alloc_task` has found `child`. The two tests of
results are the source's: `task_init` returns 0, and an unsigned number is
never below 0. -/
def forkChild (L : FileLayer φ) (t child : TaskId) (p : TaskT) :
    Prog (OsState φ) (Option TaskId) := do
  let eip ← frameWord p.tss.esp0 52
  let esp ← frameWord p.tss.esp0 80
  let err ← taskInit L p.tss.cr3 child p.name 0 eip ((esp + 4 * syscallParamCount) % 4294967296)
  if err < 0 then forkFailed L p.tss.cr3 child
  else do
    store fun s => { s with files := L.copyOpenedFiles s.files t child }
    copyFrame p.tss.esp0 t child
    let pageDir ← look fun s => (s.task t).tss.cr3
    let cr3 ← onPhys (memoryCopyUvm p.tss.cr3 pageDir)
    editTask child fun q => { q with tss := { q.tss with cr3 := cr3 } }
    if cr3 < 0 then forkFailed L p.tss.cr3 child
    else do
      editTask child fun q => { q with state := .ready }
      look fun s => (s.task child).tid

/-- `sys_fork` of `t`: the tid of the child, or nothing for -1. -/
def sysFork (L : FileLayer φ) (t : TaskId) : Prog (OsState φ) (Option TaskId) := do
  let p ← look fun s => s.task t
  match ← look allocTask with
  | none => pure none
  | some i => forkChild L t (.slot i) p

/-! ## `sys_sbrk` -/

/-- `task->heap_end = end; return pre_heap_end;`. -/
def heapGrown (t : TaskId) (preHeapEnd finish : Nat) : Prog (OsState φ) Int := do
  editTask t fun p => { p with heapEnd := finish }
  pure preHeapEnd

/-- `sys_sbrk` for an `incr` that is not 0. The sum in the first test is one
of `int`s. -/
def sbrkGrow (t : TaskId) (cr3 heapEnd : Nat) (incr : Int) : Prog (OsState φ) Int :=
  let finish := (heapEnd + incr.toNat) % 4294967296
  let startOffset := heapEnd % 4096
  let currSize := if startOffset ≠ 0 then 4096 - startOffset else 0
  let start := (heapEnd + currSize) % 4294967296
  if startOffset ≠ 0 ∧ cInt (startOffset + incr) ≤ 4096 then heapGrown t heapEnd finish
  else if incr - currSize ≠ 0 then do
    let err ← onPhys (memoryAllocForPageDir cr3 start (u32 (finish - start : Int)) ptePuw)
    if err < 0 then pure (-1)
    else heapGrown t heapEnd finish
  else heapGrown t heapEnd finish

/-- `sys_sbrk` of `t`. -/
def sysSbrk (t : TaskId) (incr : Int) : Prog (OsState φ) Int := do
  let p ← look fun s => s.task t
  check (incr ≥ 0)
  if incr = 0 then pure p.heapEnd
  else sbrkGrow t p.tss.cr3 p.heapEnd incr

/-! ## `sys_execve` -/

/-- `sys_read` into memory at the address `ptr`. -/
def readTo (L : FileLayer φ) (t : TaskId) (file : Int) (ptr len : Nat) : Prog (OsState φ) Int := do
  if ptr = 0 then pure 0
  else do
    let r ← onFiles fun f => L.sysRead f t file len
    onPhys (storeBytes ptr r.2)
    pure r.1

/-- `Elf32_Phdr`, the fields the loader uses. -/
structure Phdr where
  pType : Nat
  pOffset : Nat
  pVaddr : Nat
  pFilesz : Nat
  pMemsz : Nat

/-- The program header that lies in a buffer. -/
def Phdr.ofBytes (b : Nat → UInt8) : Phdr where
  pType := le32 b 0
  pOffset := le32 b 4
  pVaddr := le32 b 8
  pFilesz := le32 b 16
  pMemsz := le32 b 20

/-- The loop of `load_phdr`, with `size` bytes to go. -/
def loadPhdrLoop (L : FileLayer φ) (t : TaskId) (file : Int) (pageDir : Nat) :
    (fuel vaddr size : Nat) → Prog (OsState φ) Int
  | 0, _, _ => pure 0
  | fuel + 1, vaddr, size =>
    if size = 0 then pure 0
    else do
      let currSize := if size > 4096 then 4096 else size
      let paddr ← onPhys (memoryGetPaddr pageDir vaddr)
      let cnt ← readTo L t file paddr currSize
      if cnt < currSize then pure (-1)
      else loadPhdrLoop L t file pageDir fuel ((vaddr + currSize) % 4294967296) (size - currSize)

/-- `load_phdr`. -/
def loadPhdr (L : FileLayer φ) (t : TaskId) (file : Int) (phdr : Phdr) (pageDir : Nat) :
    Prog (OsState φ) Int := do
  let err ← onPhys (memoryAllocForPageDir pageDir phdr.pVaddr phdr.pMemsz ptePuw)
  if err < 0 then pure (-1)
  else do
    let pos ← onFiles fun f => L.sysLseek f t file phdr.pOffset
    if pos < 0 then pure (-1)
    else loadPhdrLoop L t file pageDir (phdr.pFilesz / 4096 + 1) phdr.pVaddr phdr.pFilesz

/-- A header read into a local buffer: the result and the buffer. -/
def readHeader (L : FileLayer φ) (t : TaskId) (file : Int) (buf : Nat → UInt8) (len : Nat) :
    Prog (OsState φ) (Int × (Nat → UInt8)) := do
  let r ← onFiles fun f => L.sysRead f t file len
  pure (r.1, copyTo buf 0 r.2.length fun i => r.2.getD i 0)

/-- The loop of `load_elf_file` over the program headers, with `n` to go;
`buf` is `elf_phdr`. `false` is `goto load_failed`. The comparison of `cnt`
with a `sizeof` is one of unsigned numbers. -/
def loadPhdrs (L : FileLayer φ) (t : TaskId) (file : Int) (pageDir phentsize : Nat) :
    (n phoff : Nat) → (buf : Nat → UInt8) → Prog (OsState φ) Bool
  | 0, _, _ => pure true
  | n + 1, phoff, buf => do
    let next := (phoff + phentsize) % 4294967296
    let pos ← onFiles fun f => L.sysLseek f t file phoff
    if pos < 0 then pure false
    else do
      let (cnt, buf) ← readHeader L t file buf 32
      if u32 cnt < 32 then pure false
      else do
        let phdr := Phdr.ofBytes buf
        if phdr.pType ≠ 1 ∨ phdr.pVaddr < memoryTaskBase then
          loadPhdrs L t file pageDir phentsize n next buf
        else do
          let err ← loadPhdr L t file phdr pageDir
          if err < 0 then pure false
          else do
            let heap := (phdr.pVaddr + phdr.pMemsz) % 4294967296
            editTask t fun p => { p with heapStart := heap, heapEnd := heap }
            loadPhdrs L t file pageDir phentsize n next buf

/-- `load_failed` of `load_elf_file`: descriptor 0 is not closed. -/
def loadFailed (L : FileLayer φ) (t : TaskId) (file : Int) : Prog (OsState φ) Nat := do
  onlyIf (file ≠ 0) do
    let _ ← onFiles fun f => L.sysClose f t file
  pure 0

/-- `load_elf_file`: the entry point, or 0. `junk` holds `elf_hdr` and, from
52 on, `elf_phdr`. -/
def loadElfFile (L : FileLayer φ) (t : TaskId) (name : List UInt8) (pageDir : Nat)
    (junk : Nat → UInt8) : Prog (OsState φ) Nat := do
  let file ← onFiles fun f => L.sysOpen f t name
  if file < 0 then loadFailed L t file
  else do
    let (cnt, hdr) ← readHeader L t file junk 52
    if u32 cnt < 52 then loadFailed L t file
    else if hdr 0 ≠ 0x7F ∨ hdr 1 ≠ 69 ∨ hdr 2 ≠ 76 ∨ hdr 3 ≠ 70 then loadFailed L t file
    else do
      let buf := fun i => junk (52 + i)
      if ← loadPhdrs L t file pageDir (le16 hdr 42) (le16 hdr 44) (le32 hdr 28) buf then do
        let _ ← onFiles fun f => L.sysClose f t file
        pure (le32 hdr 24)
      else loadFailed L t file

/-- The bytes of a 32-bit word. -/
def wordBytes (v : Nat) : List UInt8 :=
  [UInt8.ofNat v, UInt8.ofNat (v / 256), UInt8.ofNat (v / 65536), UInt8.ofNat (v / 16777216)]

/-- The loop of `copy_args` over the strings: `i` is the index of the first
one, `destArg` where it goes, `destArgTb` the address of the pointers. -/
def copyArgStrings (pageDir destArgTb : Nat) : (i destArg : Nat) → List (List UInt8) →
    Prog PhysMem Unit
  | _, _, [] => pure ()
  | i, destArg, arg :: args => do
    let err ← memoryCopyUvmData destArg pageDir (arg ++ [0])
    check (err ≥ 0)
    storeWord (destArgTb + 4 * i) destArg
    copyArgStrings pageDir destArgTb (i + 1) ((destArg + arg.length + 1) % 4294967296) args

/-- `copy_args`; `retAddr` is what `task_args.ret_addr` holds. -/
def copyArgs (dest pageDir : Nat) (argv : List (List UInt8)) (retAddr : Nat) :
    Prog PhysMem Int := do
  let argc := argv.length
  let destArg := (dest + 12 + 4 * (argc + 1)) % 4294967296
  let destArgTb ← memoryGetPaddr pageDir (dest + 12)
  copyArgStrings pageDir destArgTb 0 destArg argv
  onlyIf (argc ≠ 0) (storeWord (destArgTb + 4 * argc) 0)
  memoryCopyUvmData dest pageDir (wordBytes retAddr ++ wordBytes argc ++ wordBytes (dest + 12))

/-- The stores of `sys_execve` into the `syscall_frame_t` of the caller. -/
def execFrame (esp0 entry stackTop : Nat) : Prog PhysMem Unit := do
  let frame := esp0 - syscallFrameSize
  storeWord (frame + 52) entry
  storeWord (frame + 40) 0
  storeWord (frame + 44) 0
  storeWord (frame + 36) 0
  storeWord (frame + 48) 0
  storeWord (frame + 28) 0
  storeWord (frame + 20) 0
  storeWord (frame + 24) 0
  storeWord frame eflagsUser
  storeWord (frame + 80) (stackTop - 4 * syscallParamCount)

/-- `exec_failed` of `sys_execve`, with a new directory. -/
def execFailed (t : TaskId) (oldPageDir newPageDir : Nat) : Prog (OsState φ) Int := do
  editTask t fun p => { p with tss := { p.tss with cr3 := oldPageDir } }
  onPhys (memoryDestroyUvm newPageDir)
  pure (-1)

/-- `stack_top` of `sys_execve`. -/
def stackTop : Nat := memTaskStackTop - memTaskArgSize

/-- `sys_execve` of `t`. -/
def sysExecve (L : FileLayer φ) (t : TaskId) (name : List UInt8) (argv : List (List UInt8))
    (junk : Nat → UInt8) : Prog (OsState φ) Int := do
  editTask t fun p => { p with
    name := kernelStrncpy p.name (cString (getFileName name)) taskNameSize }
  let tss ← look fun s => (s.task t).tss
  let newPageDir ← onPhys memoryCreateUvm
  if newPageDir = 0 then pure (-1)
  else do
    let entry ← loadElfFile L t name newPageDir junk
    if entry = 0 then execFailed t tss.cr3 newPageDir
    else do
      let err ← onPhys (memoryAllocForPageDir newPageDir (memTaskStackTop - memTaskStackSize)
        memTaskStackSize ptePuw)
      if err < 0 then execFailed t tss.cr3 newPageDir
      else do
        let err ← onPhys (copyArgs stackTop newPageDir argv (le32 junk 84))
        if err < 0 then execFailed t tss.cr3 newPageDir
        else do
          onPhys (execFrame tss.esp0 entry stackTop)
          editTask t fun p => { p with tss := { p.tss with cr3 := newPageDir } }
          onPhys (memoryDestroyUvm tss.cr3)
          pure 0

/-! ## `sys_exit` and `sys_wait` -/

/-- Slot `i` holds a zombie child of `t`. -/
def isZombieChild (s : OsState φ) (t : TaskId) (i : Nat) : Bool :=
  (s.task (.slot i)).parent = some t && (s.task (.slot i)).state = .zombie

/-- The loop of `sys_exit` over the children. -/
def reparent (s : OsState φ) (t : TaskId) : TaskId → TaskT
  | .slot i =>
    if i < taskNr ∧ (s.task (.slot i)).parent = some t then
      { s.task (.slot i) with parent := some .first }
    else s.task (.slot i)
  | u => s.task u

/-- `task_set_ready` for a task that waits. -/
def wakeWaitting (t : TaskId) : Prog (OsState φ) Unit :=
  editTask t fun p => if p.state = .waitting then { p with state := .ready } else p

/-- `sys_exit` of `t`; it reads `parent->state`. -/
def sysExit (L : FileLayer φ) (t : TaskId) (status : Int) : Prog (OsState φ) Unit := do
  onFiles fun f => (L.closeFiles f t).map fun f => ((), f)
  let moveChild ← look fun s => (findSlot (isZombieChild s t) taskNr 0).isSome
  store fun s => { s with task := reparent s t }
  match ← look fun s => (s.task t).parent with
  | none => check false
  | some parent => do
    onlyIf (moveChild ∧ parent ≠ .first) (wakeWaitting .first)
    wakeWaitting parent
    editTask t fun p => { p with state := .zombie, status := status }

/-- `sys_wait` of `t`: the tid and the status of a zombie child, which is
gone then; without one the task waits, and its next step scans again. -/
def sysWait (L : FileLayer φ) (t : TaskId) : Prog (OsState φ) (Option (Option TaskId × Int)) := do
  match ← look fun s => findSlot (isZombieChild s t) taskNr 0 with
  | none => do
    editTask t fun p => { p with state := .waitting }
    pure none
  | some i => do
    let p ← look fun s => s.task (.slot i)
    let cr3 ← look fun s => (s.task t).tss.cr3
    onPhys (memoryDestroyUvm p.tss.cr3)
    onPhys (memoryFreePage cr3 (u32 (p.tss.esp0 - 4096 : Int)))
    zeroTask L (.slot i)
    pure (some (p.tid, p.status))

/-! ## The steps -/

/-- What a task does. -/
inductive LifeEvent where
  | fork (t : TaskId)
  | sbrk (t : TaskId) (incr : Int)
  | execve (t : TaskId) (name : List UInt8) (argv : List (List UInt8)) (junk : Nat → UInt8)
  | exit (t : TaskId) (status : Int)
  | wait (t : TaskId)
  | userStore (t : TaskId) (vaddr : Nat) (b : UInt8)

/-- The task that takes a step. -/
def LifeEvent.task : LifeEvent → TaskId
  | .fork t => t
  | .sbrk t _ => t
  | .execve t _ _ _ => t
  | .exit t _ => t
  | .wait t => t
  | .userStore t _ _ => t

/-- A store of the program of `t` into its own memory. -/
def storeUser (t : TaskId) (vaddr : Nat) (b : UInt8) : Prog (OsState φ) Unit := do
  let cr3 ← look fun s => (s.task t).tss.cr3
  onPhys do
    match ← look fun m => translate m cr3 vaddr with
    | none => check false
    | some a => storeBytes a [b]

/-- What a step does. -/
def LifeEvent.run (L : FileLayer φ) : LifeEvent → Prog (OsState φ) Unit
  | .fork t => do let _ ← sysFork L t
  | .sbrk t incr => do let _ ← sysSbrk t incr
  | .execve t name argv junk => do let _ ← sysExecve L t name argv junk
  | .exit t status => sysExit L t status
  | .wait t => do let _ ← sysWait L t
  | .userStore t vaddr b => storeUser t vaddr b

/-- A task runs that may run and that the processor can be switched to. -/
def OsState.runs (s : OsState φ) (t : TaskId) : Bool :=
  ((s.task t).state = .ready || (s.task t).state = .running) && (s.task t).tssSel ≠ 0

/-- One step of a task that runs. -/
def lifeStep (L : FileLayer φ) (s : OsState φ) (e : LifeEvent) : Option (OsState φ) :=
  if s.runs e.task then (e.run L s).map fun r => r.2 else none

end Wjos.Os
