/-
Wjos.Ipc.Mutex — `kernel/ipc/mutex.c`: the recursive mutex.

`locked_count` is a C `int` and is counted with `cInt`. A mutex is named
by its index in `Kernel.mutex`. `mutexLock` on a mutex that another task
owns blocks the current task and dispatches; the C function returns to
its caller when that task is dispatched again.
-/
import Wjos.Core.Task

namespace Wjos

open Lib

/-- `mutex_init`. -/
def mutexInit : Mutex := ⟨0, none, listInit⟩

/-- Stores a mutex. -/
def Kernel.setMutex (k : Kernel) (m : Nat) (x : Mutex) : Kernel :=
  { k with mutex := Function.update k.mutex m x }

/-- `mutex_lock`. -/
def mutexLock (k : Kernel) (m : Nat) : Kernel :=
  let curr := k.currTask
  let x := k.mutex m
  if x.lockedCount = 0 then
    k.setMutex m { x with lockedCount := cInt (x.lockedCount + 1), owner := some curr }
  else if x.owner = some curr then
    k.setMutex m { x with lockedCount := cInt (x.lockedCount + 1) }
  else
    let k' := taskSetBlock k curr
    let r := listInsertLast k'.node x.waitList (.waitNode curr)
    taskDispatch (Kernel.setMutex { k' with node := r.1 } m { x with waitList := r.2 })

/-- `mutex_unlock`; `select_node` is `list_remove_first`. -/
def mutexUnlock (k : Kernel) (m : Nat) : Kernel :=
  let x := k.mutex m
  if x.owner = some k.currTask then
    let left := cInt (x.lockedCount - 1)
    if left = 0 then
      if x.waitList.count > 0 then
        let r := listRemoveFirst k.node x.waitList
        let task := waitNodeParent r.2.2
        let k' := taskSetReady { k with node := r.1 } task
        taskDispatch (k'.setMutex m ⟨1, some task, r.2.1⟩)
      else k.setMutex m { x with lockedCount := left, owner := none }
    else k.setMutex m { x with lockedCount := left }
  else k

end Wjos
