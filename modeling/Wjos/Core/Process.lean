/-
Wjos.Core.Process — the life of a task in `kernel/core/task.c`: `sys_fork`,
`sys_execve`, `sys_exit` and `sys_wait` over `task_table`.

`Task.lean` has the scheduler and one current task. Here the scheduler is
left open: any task that is ready or running may take the next step of the
call it is in, which covers every interleaving, and what a task does between
two steps of different tasks is one step:

* `forkAlloc` — `alloc_task`, under `task_table_mutex`;
* `forkInit` — `task_init`, up to and with the end of its interrupts-off
  block;
* `forkParent` — the store `child_task->parent = parent_task`;
* `forkStart` — `task_start` and the return;
* `execve` — the store of the name, which comes before anything that can
  fail; nothing later in `sys_execve` touches the fields modelled here;
* `waitScan`, `waitBlock`, `exitReparent`, `exitFinal` — the sections of
  `sys_wait` and `sys_exit`, as in `Task.lean`.

`alloc_task` takes the first slot whose name starts with a NUL. In `sys_fork`
the test of `task_init` is for an error it never returns and the one of
`memory_copy_uvm` is `(uint32_t) < 0`, so once a slot was found the fork
goes through to its end. Exceptions in kernel mode halt the machine, so
`sys_exit` starts in user code only.
-/
import Wjos.Core.Task
import Wjos.Tools.Klib

namespace Wjos

open Lib

/-- `TASK_NAME_SIZE`. -/
def taskNameSize : Nat := 32

/-- The fields of `task_t` that the calls use. `tid` is the address of the
structure, or nothing in a zeroed one; `name` is the memory from `name[0]`
on. -/
structure Proc where
  state : TaskState
  tid : Option TaskId
  parent : Option TaskId
  status : Int
  name : Nat → UInt8

/-- A zeroed `task_t`. -/
def Proc.zero : Proc := ⟨.created, none, none, 0, fun _ => 0⟩

/-- Where a task stands in its call. -/
inductive Pc where
  | user
  | forkInit (child : Nat)
  | forkParent (child : Nat)
  | forkStart (child : Nat)
  | waitBlock
  | waitScan
  | exitFinal (moveChild : Bool)
  deriving DecidableEq, Repr

/-- The task table, with `first_task` and the idle task, and where each
task stands. -/
structure ProcTable where
  task : TaskId → Proc
  pc : TaskId → Pc

/-- `task->state` lets a task run. -/
def TaskState.runs : TaskState → Bool
  | .ready => true
  | .running => true
  | _ => false

/-- A store into the structure of `t`. -/
def ProcTable.setTask (s : ProcTable) (t : TaskId) (p : Proc) : ProcTable :=
  { s with task := Function.update s.task t p }

/-- The task `t` goes on to `pc`. -/
def ProcTable.setPc (s : ProcTable) (t : TaskId) (pc : Pc) : ProcTable :=
  { s with pc := Function.update s.pc t pc }

/-! ## The sections -/

/-- `alloc_task`. -/
def allocTask (s : ProcTable) : Option Nat :=
  findSlot (fun i => (s.task (.slot i)).name 0 = 0) taskNr 0

/-- `task_init`, for a child that copies the name of `t`. -/
def procInit (s : ProcTable) (t : TaskId) (child : Nat) : ProcTable :=
  let s := s.setTask (.slot child)
    { state := .created
      tid := some (.slot child)
      parent := none
      status := 0
      name := kernelStrncpy (s.task (.slot child)).name (s.task t).name taskNameSize }
  s.setPc (.slot child) .user

/-- The store of the name in `sys_execve`. -/
def execveName (s : ProcTable) (t : TaskId) (path : List UInt8) : ProcTable :=
  s.setTask t { s.task t with
    name := kernelStrncpy (s.task t).name (cString (getFileName path)) taskNameSize }

/-- Slot `i` holds a zombie child of `t`. -/
def zombieChild (s : ProcTable) (t : TaskId) (i : Nat) : Bool :=
  (s.task (.slot i)).parent = some t && (s.task (.slot i)).state = .zombie

/-- The scan of `sys_wait`: the table, and `pid` and `status` when it returns. -/
def waitScan (s : ProcTable) (t : TaskId) : ProcTable × Option (Option TaskId × Int) :=
  match findSlot (zombieChild s t) taskNr 0 with
  | none => (s, none)
  | some i =>
    (s.setTask (.slot i) Proc.zero,
      some ((s.task (.slot i)).tid, (s.task (.slot i)).status))

/-- The loop of `sys_exit` over the children. -/
def procReparent (s : ProcTable) (t : TaskId) : TaskId → Proc
  | .slot i =>
    if i < taskNr ∧ (s.task (.slot i)).parent = some t then
      { s.task (.slot i) with parent := some .first }
    else s.task (.slot i)
  | u => s.task u

/-- `task_set_ready` for a task that waits. -/
def wakeWaitting (s : ProcTable) (t : TaskId) : ProcTable :=
  if (s.task t).state = .waitting then s.setTask t { s.task t with state := .ready } else s

/-- The end of `sys_exit`; it reads `parent->state`. -/
def procExitFinal (s : ProcTable) (t : TaskId) (moveChild : Bool) (status : Int) :
    Option ProcTable :=
  match (s.task t).parent with
  | none => none
  | some parent =>
    let s := if moveChild ∧ parent ≠ .first then wakeWaitting s .first else s
    let s := wakeWaitting s parent
    some (s.setTask t { s.task t with state := .zombie, status := status })

/-! ## The steps -/

inductive ProcEvent where
  | forkAlloc (t : TaskId)
  | forkInit (t : TaskId)
  | forkParent (t : TaskId)
  | forkStart (t : TaskId)
  | execve (t : TaskId) (path : List UInt8)
  | waitScan (t : TaskId)
  | waitBlock (t : TaskId)
  | exitReparent (t : TaskId)
  | exitFinal (t : TaskId) (status : Int)
  deriving DecidableEq, Repr

/-- The task that takes a step. -/
def ProcEvent.task : ProcEvent → TaskId
  | .forkAlloc t => t
  | .forkInit t => t
  | .forkParent t => t
  | .forkStart t => t
  | .execve t _ => t
  | .waitScan t => t
  | .waitBlock t => t
  | .exitReparent t => t
  | .exitFinal t _ => t

/-- One step of the call that the task stands in. -/
def procCall (s : ProcTable) (e : ProcEvent) : Option ProcTable :=
  match e, s.pc e.task with
  | .forkAlloc t, .user =>
    match allocTask s with
    | none => some s
    | some child => some (s.setPc t (.forkInit child))
  | .forkInit t, .forkInit child => some ((procInit s t child).setPc t (.forkParent child))
  | .forkParent t, .forkParent child =>
    let s := s.setTask (.slot child) { s.task (.slot child) with parent := some t }
    some (s.setPc t (.forkStart child))
  | .forkStart t, .forkStart child =>
    let s := s.setTask (.slot child) { s.task (.slot child) with state := .ready }
    some (s.setPc t .user)
  | .execve t path, .user => some (execveName s t path)
  | .waitScan t, .user | .waitScan t, .waitScan =>
    match waitScan s t with
    | (s, none) => some (s.setPc t .waitBlock)
    | (s, some _) => some (s.setPc t .user)
  | .waitBlock t, .waitBlock =>
    some ((s.setTask t { s.task t with state := .waitting }).setPc t .waitScan)
  | .exitReparent t, .user =>
    let moveChild := (findSlot (zombieChild s t) taskNr 0).isSome
    some ({ s with task := procReparent s t }.setPc t (.exitFinal moveChild))
  | .exitFinal t status, .exitFinal moveChild =>
    (procExitFinal s t moveChild status).map fun s => s.setPc t .user
  | _, _ => none

/-- One step of a task that runs. -/
def procStep (s : ProcTable) (e : ProcEvent) : Option ProcTable :=
  if (s.task e.task).state.runs then procCall s e else none

/-- After `task_first_init`: `first_task` runs, the table is zeroed. The idle
task makes no calls. -/
def procInitial : ProcTable where
  task
    | .first =>
      { state := .ready
        tid := some .first
        parent := none
        status := 0
        name := cString [102, 105, 114, 115, 116, 95, 116, 97, 115, 107] }
    | _ => Proc.zero
  pc := fun _ => .user

end Wjos
