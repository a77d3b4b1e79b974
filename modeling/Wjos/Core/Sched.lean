/-
Wjos.Core.Sched — the scheduling events of the kernel, and the abstract
scheduler they refine.

## The events

`kernelStep` is one scheduling event of the kernel. `tick` is the clock
interrupt and `semNotify` may also come from the keyboard or disk
interrupt, so these two can happen at any time. Everything else is called
by the running task. The idle task only executes `hlt`, so it performs no
event of its own.

## The abstract scheduler

`Sched` keeps, instead of links and headers, the queue at each `Place`:
the ready list, the sleep list and the wait list of each mutex and
semaphore. `schedStep` says what each event does to the queues. The
invariant `Sched.Inv` holds of every state the abstract scheduler reaches:
a task stands in at most one queue (`Placed`), the idle task in none, only
live tasks stand in queues, and the current task is the head of the ready
queue. `Wjos.Core.SchedRefine` connects the two levels.
-/
import Wjos.Lib.Run
import Wjos.Ipc.Mutex
import Wjos.Ipc.Sem

namespace Wjos

open Lib

/-- The scheduling events. -/
inductive Event where
  | tick
  | yeild
  | sleep (ms : UInt32)
  | lock (m : Nat)
  | unlock (m : Nat)
  | semWait (n : Nat)
  | semNotify (n : Nat)
  | fork (i : Nat)
  | waitScan
  | waitBlock
  | exitReparent
  | exitFinal (moveChild : Bool) (status : Int)
  deriving DecidableEq, Repr

/-- An event performed by the current task. A fork needs an unused slot:
one whose task was never started, or was reaped. -/
def taskCall (k : Kernel) : Event → Option Kernel
  | .tick => some (taskTimeTick k)
  | .yeild => some (sysYeild k)
  | .sleep ms => some (sysSleep k ms)
  | .lock m => some (mutexLock k m)
  | .unlock m => some (mutexUnlock k m)
  | .semWait n => some (semWait k n)
  | .semNotify n => some (semNotify k n)
  | .fork i =>
    if i < taskNr ∧ (k.task (.slot i)).state = .created then some (sysForkStart k (.slot i))
    else none
  | .waitScan => some (sysWaitScan k).1
  | .waitBlock => some (sysWaitBlock k)
  | .exitReparent => some (sysExitReparent k).1
  | .exitFinal moveChild status => sysExitFinal k moveChild status

/-- The interrupt handlers of the kernel only tick and notify. -/
def isInterrupt : Event → Bool
  | .tick => true
  | .semNotify _ => true
  | _ => false

/-- One scheduling event. -/
def kernelStep (k : Kernel) (e : Event) : Option Kernel :=
  if k.currTask = .idle ∧ isInterrupt e = false then none else taskCall k e

/-- The state after `task_manager_init` and `task_first_init`: the first
task runs, every slot is unused, every mutex is free, and the semaphores
hold the counts they were initialised with. -/
def kernelInit (counts : Nat → Int) : Kernel :=
  let k : Kernel :=
    { task := fun _ => Task.zero
      node := fun _ => nodeInit
      readyList := listInit
      sleepList := listInit
      currTask := .first
      mutex := fun _ => mutexInit
      sem := fun n => semInit (counts n) }
  taskStart (taskInit (taskInit k .idle) .first) .first

/-! ## The abstract scheduler -/

/-- Where a task can be queued. -/
inductive Place where
  | ready
  | sleep
  | mutexWait (m : Nat)
  | semWait (n : Nat)
  deriving DecidableEq, Repr

structure Sched where
  task : TaskId → Task
  currTask : TaskId
  queue : Place → List TaskId
  lockedCount : Nat → Int
  owner : Nat → Option TaskId
  semCount : Nat → Int

namespace Sched

def setState (s : Sched) (t : TaskId) (st : TaskState) : Sched :=
  { s with task := Function.update s.task t { s.task t with state := st } }

def setReady (s : Sched) (t : TaskId) : Sched :=
  if t = .idle then s
  else setState { s with queue := enqueue s.queue .ready t } t .ready

def setBlock (s : Sched) (t : TaskId) : Sched :=
  if t = .idle then s else { s with queue := dequeue s.queue .ready t }

def setSleep (s : Sched) (t : TaskId) (ticks : UInt32) : Sched :=
  if ticks ≤ 0 then s
  else
    { s with
      task := Function.update s.task t
        { s.task t with sleepTicks := ticks.toNat, state := .sleep }
      queue := enqueue s.queue .sleep t }

def setWakeup (s : Sched) (t : TaskId) : Sched :=
  { s with queue := dequeue s.queue .sleep t }

def nextRun (s : Sched) : TaskId := (s.queue .ready).head?.getD .idle

def dispatch (s : Sched) : Sched :=
  if s.nextRun ≠ s.currTask then
    setState { s with currTask := s.nextRun } s.nextRun .running
  else s

def yeild (s : Sched) : Sched :=
  if (s.queue .ready).length > 1 then
    ((s.setBlock s.currTask).setReady s.currTask).dispatch
  else s

def tickSlice (s : Sched) : Sched :=
  let t := s.currTask
  let slice := (s.task t).sliceTicks - 1
  if slice = 0 then
    let s' := { s with
      task := Function.update s.task t { s.task t with sliceTicks := (s.task t).timeTicks } }
    (s'.setBlock t).setReady t
  else { s with task := Function.update s.task t { s.task t with sliceTicks := slice } }

def tickSleeper (s : Sched) (t : TaskId) : Sched :=
  let left := (s.task t).sleepTicks - 1
  let s' := { s with task := Function.update s.task t { s.task t with sleepTicks := left } }
  if left = 0 then (s'.setWakeup t).setReady t else s'

def tick (s : Sched) : Sched :=
  ((s.tickSlice.queue .sleep).foldl tickSleeper s.tickSlice).dispatch

def sleep (s : Sched) (ms : UInt32) : Sched :=
  ((s.setBlock s.currTask).setSleep s.currTask (sleepTicksOf ms)).dispatch

/-- The current task leaves the ready queue and waits at `p`. -/
def blockAt (s : Sched) (p : Place) : Sched :=
  let s' := s.setBlock s.currTask
  { s' with queue := enqueue s'.queue p s.currTask }.dispatch

def lock (s : Sched) (m : Nat) : Sched :=
  if s.lockedCount m = 0 then
    { s with
      lockedCount := Function.update s.lockedCount m (cInt (s.lockedCount m + 1))
      owner := Function.update s.owner m (some s.currTask) }
  else if s.owner m = some s.currTask then
    { s with lockedCount := Function.update s.lockedCount m (cInt (s.lockedCount m + 1)) }
  else s.blockAt (.mutexWait m)

def unlock (s : Sched) (m : Nat) : Sched :=
  if s.owner m = some s.currTask then
    let left := cInt (s.lockedCount m - 1)
    if left = 0 then
      match s.queue (.mutexWait m) with
      | [] =>
        { s with
          lockedCount := Function.update s.lockedCount m left
          owner := Function.update s.owner m none }
      | t :: _ =>
        let s' := { s with queue := dequeue s.queue (.mutexWait m) t }.setReady t
        dispatch
          { s' with
            lockedCount := Function.update s.lockedCount m 1
            owner := Function.update s.owner m (some t) }
    else { s with lockedCount := Function.update s.lockedCount m left }
  else s

def semWait (s : Sched) (n : Nat) : Sched :=
  if s.semCount n > 0 then
    { s with semCount := Function.update s.semCount n (cInt (s.semCount n - 1)) }
  else s.blockAt (.semWait n)

def semNotify (s : Sched) (n : Nat) : Sched :=
  match s.queue (.semWait n) with
  | [] => { s with semCount := Function.update s.semCount n (cInt (s.semCount n + 1)) }
  | t :: _ => ({ s with queue := dequeue s.queue (.semWait n) t }.setReady t).dispatch

/-- A task structure after `task_init`, as a child of `parent`. -/
def freshTask (parent : TaskId) : Task where
  state := .created
  parent := some parent
  sleepTicks := 0
  timeTicks := taskTimeSliceDefault
  sliceTicks := taskTimeSliceDefault
  status := 0

/-- The task `t` is initialised as a child of the current task and
started. -/
def fork (s : Sched) (t : TaskId) : Sched :=
  setReady { s with task := Function.update s.task t (freshTask s.currTask) } t

def isZombieChild (s : Sched) (t : TaskId) (i : Nat) : Bool :=
  (s.task (.slot i)).parent = some t && (s.task (.slot i)).state = .zombie

def waitScan (s : Sched) : Sched :=
  match findSlot (s.isZombieChild s.currTask) taskNr 0 with
  | none => s
  | some i => { s with task := Function.update s.task (.slot i) Task.zero }

def waitBlock (s : Sched) : Sched :=
  ((s.setBlock s.currTask).setState s.currTask .waitting).dispatch

def reparent (s : Sched) (t : TaskId) : TaskId → Task
  | .slot i =>
    if i < taskNr ∧ (s.task (.slot i)).parent = some t then
      { s.task (.slot i) with parent := some .first }
    else s.task (.slot i)
  | u => s.task u

def exitReparent (s : Sched) : Sched := { s with task := s.reparent s.currTask }

def exitWakeFirst (s : Sched) (moveChild : Bool) : Sched :=
  if moveChild ∧ (s.task s.currTask).parent ≠ some .first ∧
      (s.task .first).state = .waitting then
    s.setReady .first
  else s

def exitFinal (s : Sched) (moveChild : Bool) (status : Int) : Option Sched :=
  match (s.task s.currTask).parent with
  | none => none
  | some parent =>
    let t := s.currTask
    let s₁ := s.exitWakeFirst moveChild
    let s₂ := if (s₁.task parent).state = .waitting then s₁.setReady parent else s₁
    let s₃ := { s₂ with
      task := Function.update s₂.task t { s₂.task t with state := .zombie, status := status } }
    some (s₃.setBlock t).dispatch

end Sched

/-- What an event of the current task does to the abstract scheduler. -/
def schedCall (s : Sched) : Event → Option Sched
  | .tick => some s.tick
  | .yeild => some s.yeild
  | .sleep ms => some (s.sleep ms)
  | .lock m => some (s.lock m)
  | .unlock m => some (s.unlock m)
  | .semWait n => some (s.semWait n)
  | .semNotify n => some (s.semNotify n)
  | .fork i =>
    if i < taskNr ∧ (s.task (.slot i)).state = .created then some (s.fork (.slot i)) else none
  | .waitScan => some s.waitScan
  | .waitBlock => some s.waitBlock
  | .exitReparent => some s.exitReparent
  | .exitFinal moveChild status => s.exitFinal moveChild status

/-- One abstract scheduling event. -/
def schedStep (s : Sched) (e : Event) : Option Sched :=
  if s.currTask = .idle ∧ isInterrupt e = false then none else schedCall s e

/-- The abstract initial state. -/
def schedInit (counts : Nat → Int) : Sched where
  task := (kernelInit counts).task
  currTask := .first
  queue := fun p => if p = .ready then [.first] else []
  lockedCount := fun _ => 0
  owner := fun _ => none
  semCount := counts

end Wjos
