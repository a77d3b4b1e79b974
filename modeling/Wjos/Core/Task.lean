/-
Wjos.Core.Task — the scheduler of `kernel/core/task.c`.

The state is one flat record: the task structures (`task`), the links of
their embedded list nodes (`node`), the two queue headers and the current
task, and the mutexes and semaphores of `kernel/ipc`, whose wait lists
thread through the same nodes. A task is named by the object the kernel
keeps it in: the idle task, the first task, or a slot of `task_table`.

Every function below runs with interrupts off in the kernel, so it is one
atomic step; `irq_enter_protection` and `irq_leave_protection` have no
counterpart here. `task_switch_from_to` only loads the new TSS, which is
what changing `currTask` means. Fields of `task_t` that no scheduling
function reads (registers, heap bounds, names, files) are left out.

`sysWait` and `sysExit` are cut where the code gives up atomicity:

* `sysWaitScan` — the scan of `task_table` under `task_table_mutex`;
* `sysWaitBlock` — the interrupts-off block that sets `TASK_WAITTING`;
* `sysExitReparent` — handing the children over under the mutex;
* `sysExitFinal` — the interrupts-off end of `sys_exit`.
-/
import Wjos.Lib.CInt
import Wjos.Lib.Search
import Wjos.Tools.List

namespace Wjos

open Lib

/-- `TASK_NR`. -/
def taskNr : Nat := 128

/-- `TASK_TIME_SLICE_DEFAULT`. -/
def taskTimeSliceDefault : Int := 10

/-- `OS_TICKS_MS`. -/
def osTicksMs : UInt32 := 10

/-- The object that holds a task: `task_manager.idle_task`,
`task_manager.first_task` or `task_table[i]`. -/
inductive TaskId where
  | idle
  | first
  | slot (i : Nat)
  deriving DecidableEq, Repr

/-- The nodes embedded in a task that the scheduler queues. -/
inductive NodeId where
  | runNode (t : TaskId)
  | waitNode (t : TaskId)
  deriving DecidableEq, Repr

/-- The states of `task_t`. -/
inductive TaskState where
  | created
  | running
  | sleep
  | ready
  | waitting
  | zombie
  deriving DecidableEq, Repr

/-- The scheduling fields of `task_t`. -/
structure Task where
  state : TaskState
  parent : Option TaskId
  sleepTicks : Int
  timeTicks : Int
  sliceTicks : Int
  status : Int
  deriving DecidableEq, Repr

/-- A zeroed `task_t`; `TASK_CREATED` is 0. -/
def Task.zero : Task := ⟨.created, none, 0, 0, 0, 0⟩

/-- `mutex_t`. -/
structure Mutex where
  lockedCount : Int
  owner : Option TaskId
  waitList : ListT NodeId

/-- `sem_t`. -/
structure Sem where
  count : Int
  waitList : ListT NodeId

/-- The scheduler's part of the kernel. -/
structure Kernel where
  task : TaskId → Task
  node : NodeId → Links NodeId
  readyList : ListT NodeId
  sleepList : ListT NodeId
  currTask : TaskId
  mutex : Nat → Mutex
  sem : Nat → Sem

/-- The store `task->state = st`. -/
def Kernel.setState (k : Kernel) (t : TaskId) (st : TaskState) : Kernel :=
  { k with task := Function.update k.task t { k.task t with state := st } }

/-- `list_node_parent(node, task_t, run_node)`; null is the idle task's
stand-in and never asked for. -/
def runNodeParent : Option NodeId → TaskId
  | some (.runNode t) => t
  | _ => .idle

/-- `list_node_parent(node, task_t, wait_node)`. -/
def waitNodeParent : Option NodeId → TaskId
  | some (.waitNode t) => t
  | _ => .idle

/-- `task_next_run`. -/
def taskNextRun (k : Kernel) : TaskId :=
  if k.readyList.count = 0 then .idle else runNodeParent k.readyList.first

/-- `task_set_ready`. -/
def taskSetReady (k : Kernel) (t : TaskId) : Kernel :=
  if t = .idle then k
  else
    let r := listInsertLast k.node k.readyList (.runNode t)
    Kernel.setState { k with node := r.1, readyList := r.2 } t .ready

/-- `task_set_block`. -/
def taskSetBlock (k : Kernel) (t : TaskId) : Kernel :=
  if t = .idle then k
  else
    let r := listRemove k.node k.readyList (.runNode t)
    { k with node := r.1, readyList := r.2 }

/-- `task_set_sleep`; zero ticks return at once. -/
def taskSetSleep (k : Kernel) (t : TaskId) (ticks : UInt32) : Kernel :=
  if ticks ≤ 0 then k
  else
    let r := listInsertLast k.node k.sleepList (.runNode t)
    { k with
      task := Function.update k.task t
        { k.task t with sleepTicks := ticks.toNat, state := .sleep }
      node := r.1
      sleepList := r.2 }

/-- `task_set_wakeup`. -/
def taskSetWakeup (k : Kernel) (t : TaskId) : Kernel :=
  let r := listRemove k.node k.sleepList (.runNode t)
  { k with node := r.1, sleepList := r.2 }

/-- `task_dispatch`. -/
def taskDispatch (k : Kernel) : Kernel :=
  let next := taskNextRun k
  if next ≠ k.currTask then Kernel.setState { k with currTask := next } next .running else k

/-- `sys_yeild`. -/
def sysYeild (k : Kernel) : Kernel :=
  if k.readyList.count > 1 then
    taskDispatch (taskSetReady (taskSetBlock k k.currTask) k.currTask)
  else k

/-- The first part of `task_time_tick`: the time slice of the current
task. -/
def tickSlice (k : Kernel) : Kernel :=
  let t := k.currTask
  let slice := (k.task t).sliceTicks - 1
  if slice = 0 then
    let k' := { k with
      task := Function.update k.task t { k.task t with sliceTicks := (k.task t).timeTicks } }
    taskSetReady (taskSetBlock k' t) t
  else { k with task := Function.update k.task t { k.task t with sliceTicks := slice } }

/-- The body of the loop over the sleep list: one sleeper loses a tick
and is woken when none is left. -/
def tickSleeper (k : Kernel) (t : TaskId) : Kernel :=
  let left := (k.task t).sleepTicks - 1
  let k' := { k with task := Function.update k.task t { k.task t with sleepTicks := left } }
  if left = 0 then taskSetReady (taskSetWakeup k' t) t else k'

/-- The loop over the sleep list. `next` is read before the body runs, as
in the source; the fuel bounds the walk. -/
def tickSleepers : Nat → Option NodeId → Kernel → Kernel
  | 0, _, k => k
  | _ + 1, none, k => k
  | fuel + 1, some curr, k =>
    let next := (k.node curr).next
    tickSleepers fuel next (tickSleeper k (runNodeParent (some curr)))

/-- `task_time_tick`. The walk needs one iteration for each member of the
sleep list. -/
def taskTimeTick (k : Kernel) : Kernel :=
  let k' := tickSlice k
  taskDispatch (tickSleepers k'.sleepList.count.toNat k'.sleepList.first k')

/-- The tick count `sys_sleep` rounds its argument to, in `uint32_t`
arithmetic. -/
def sleepTicksOf (ms : UInt32) : UInt32 := (ms + osTicksMs - 1) / osTicksMs

/-- `sys_sleep`. -/
def sysSleep (k : Kernel) (ms : UInt32) : Kernel :=
  taskDispatch (taskSetSleep (taskSetBlock k k.currTask) k.currTask (sleepTicksOf ms))

/-- `task_start`. -/
def taskStart (k : Kernel) (t : TaskId) : Kernel := taskSetReady k t

/-- `task_init`, as far as the scheduler sees it. -/
def taskInit (k : Kernel) (t : TaskId) : Kernel :=
  { k with
    task := Function.update k.task t
      { state := .created, parent := none, sleepTicks := 0, timeTicks := taskTimeSliceDefault,
        sliceTicks := taskTimeSliceDefault, status := 0 }
    node := Function.update (Function.update k.node (.runNode t) nodeInit) (.waitNode t) nodeInit }

/-- The scheduling part of a successful `sys_fork` whose child is `t`. -/
def sysForkStart (k : Kernel) (t : TaskId) : Kernel :=
  let k' := taskInit k t
  taskStart
    { k' with task := Function.update k'.task t { k'.task t with parent := some k.currTask } } t

/-! ## `sys_wait` and `sys_exit` -/

/-- Slot `i` holds a zombie child of `t`. -/
def isZombieChild (k : Kernel) (t : TaskId) (i : Nat) : Bool :=
  (k.task (.slot i)).parent = some t && (k.task (.slot i)).state = .zombie

/-- The scan of `sys_wait`: the first zombie child is zeroed and its pid
(the address of its slot) and status are returned. -/
def sysWaitScan (k : Kernel) : Kernel × Option (TaskId × Int) :=
  match findSlot (isZombieChild k k.currTask) taskNr 0 with
  | none => (k, none)
  | some i =>
    ({ k with
        task := Function.update k.task (.slot i) Task.zero
        node := Function.update (Function.update k.node (.runNode (.slot i)) nodeInit)
          (.waitNode (.slot i)) nodeInit },
      some (.slot i, (k.task (.slot i)).status))

/-- The blocking step of `sys_wait`. -/
def sysWaitBlock (k : Kernel) : Kernel :=
  taskDispatch (Kernel.setState (taskSetBlock k k.currTask) k.currTask .waitting)

/-- The loop of `sys_exit` over the children: they become children of
`first_task`. -/
def reparent (k : Kernel) (t : TaskId) : TaskId → Task
  | .slot i =>
    if i < taskNr ∧ (k.task (.slot i)).parent = some t then
      { k.task (.slot i) with parent := some .first }
    else k.task (.slot i)
  | u => k.task u

/-- The re-parenting step of `sys_exit`; the flag is `move_child`. -/
def sysExitReparent (k : Kernel) : Kernel × Bool :=
  ({ k with task := reparent k k.currTask },
    (findSlot (isZombieChild k k.currTask) taskNr 0).isSome)

/-- The wake-up of `first_task` when zombie children were moved to it. -/
def exitWakeFirst (k : Kernel) (moveChild : Bool) : Kernel :=
  if moveChild ∧ (k.task k.currTask).parent ≠ some .first ∧
      (k.task .first).state = .waitting then
    taskSetReady k .first
  else k

/-- The final step of `sys_exit`. It reads `curr_task->parent->state`, so
it has no meaning for a task without a parent. -/
def sysExitFinal (k : Kernel) (moveChild : Bool) (status : Int) : Option Kernel :=
  match (k.task k.currTask).parent with
  | none => none
  | some parent =>
    let t := k.currTask
    let k₁ := exitWakeFirst k moveChild
    let k₂ := if (k₁.task parent).state = .waitting then taskSetReady k₁ parent else k₁
    let k₃ := { k₂ with
      task := Function.update k₂.task t { k₂.task t with state := .zombie, status := status } }
    some (taskDispatch (taskSetBlock k₃ t))

end Wjos
