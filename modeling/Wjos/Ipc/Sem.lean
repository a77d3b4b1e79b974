/-
Wjos.Ipc.Sem — `kernel/ipc/sem.c`: the counting semaphore.

`count` is a C `int` and is counted with `cInt`. A semaphore is named by
its index in `Kernel.sem`. `semNotify` hands the permit to the first
waiter, if there is one, and does not touch `count` then.
-/
import Wjos.Core.Task

namespace Wjos

open Lib

/-- `sem_init`. -/
def semInit (initCount : Int) : Sem := ⟨initCount, listInit⟩

/-- Stores a semaphore. -/
def Kernel.setSem (k : Kernel) (n : Nat) (x : Sem) : Kernel :=
  { k with sem := Function.update k.sem n x }

/-- `sem_wait`. -/
def semWait (k : Kernel) (n : Nat) : Kernel :=
  let x := k.sem n
  if x.count > 0 then k.setSem n { x with count := cInt (x.count - 1) }
  else
    let curr := k.currTask
    let k' := taskSetBlock k curr
    let r := listInsertLast k'.node x.waitList (.waitNode curr)
    taskDispatch (Kernel.setSem { k' with node := r.1 } n { x with waitList := r.2 })

/-- `sem_notify`. -/
def semNotify (k : Kernel) (n : Nat) : Kernel :=
  let x := k.sem n
  if x.waitList.count > 0 then
    let r := listRemoveFirst k.node x.waitList
    let task := waitNodeParent r.2.2
    taskDispatch
      (taskSetReady (Kernel.setSem { k with node := r.1 } n { x with waitList := r.2.1 }) task)
  else k.setSem n { x with count := cInt (x.count + 1) }

end Wjos
