/-
Wjos.Ipc.Blocking — the semaphores and mutexes of the scheduler, seen at their
wait lists.

`Sched.semOf` and `Sched.mutexOf` forget everything about a scheduler but one
semaphore or mutex. What `sem_wait`, `sem_notify`, `mutex_lock` and
`mutex_unlock` do to it is what the operations of `Lib.Semaphore` and
`Lib.Lock` do; the models of the drivers and file systems use those.
-/
import Wjos.Core.SchedFrame
import Wjos.Lib.Sync

namespace Wjos

open Lib

namespace Sched

variable {s : Sched}

/-- Semaphore `n`. -/
def semOf (s : Sched) (n : Nat) : Semaphore TaskId := ⟨s.semCount n, s.queue (.semWait n)⟩

/-- Mutex `m`. -/
def mutexOf (s : Sched) (m : Nat) : Lock TaskId :=
  ⟨s.lockedCount m, s.owner m, s.queue (.mutexWait m)⟩

/-- The current task waits: it goes on exactly when it has got a permit. -/
theorem semOf_semWait (h : Inv s) (hidle : s.currTask ≠ .idle) (n : Nat) :
    (s.semWait n).semOf n = ((s.semOf n).wait s.currTask).1 ∧
      ((s.semWait n).currTask = s.currTask ↔ ((s.semOf n).wait s.currTask).2 = true) := by
  unfold Sched.semWait Semaphore.wait
  by_cases hpos : s.semCount n > 0
  · rw [if_pos hpos, if_pos (show (s.semOf n).count > 0 from hpos)]
    simp [semOf]
  · rw [if_neg hpos, if_neg (show ¬(s.semOf n).count > 0 from hpos)]
    obtain ⟨-, -, hcount⟩ := blockAt_same s (.semWait n)
    refine ⟨?_, iff_of_false (currTask_blockAt h hidle rfl) (by simp)⟩
    rw [semOf, hcount, queue_blockAt s hidle rfl]
    rfl

/-- A notify wakes the waiter that is given the permit. -/
theorem semOf_semNotify (h : Inv s) (n : Nat) :
    (s.semNotify n).semOf n = (s.semOf n).notify.1 ∧
      (s.semNotify n).queue .ready = s.queue .ready ++ (s.semOf n).notify.2.toList := by
  unfold Sched.semNotify Semaphore.notify
  cases hq : s.queue (.semWait n) with
  | nil => simp [semOf, hq]
  | cons t rest =>
    obtain ⟨hrest, hready⟩ := queue_wake h rfl hq
    simp [semOf, hq, hrest, hready]

/-- The current task locks: it goes on exactly when it has got the mutex. -/
theorem mutexOf_lock (h : Inv s) (hidle : s.currTask ≠ .idle) (m : Nat) :
    (s.lock m).mutexOf m = ((s.mutexOf m).lock s.currTask).1 ∧
      ((s.lock m).currTask = s.currTask ↔ ((s.mutexOf m).lock s.currTask).2 = true) := by
  unfold Sched.lock Lock.lock
  by_cases hz : s.lockedCount m = 0
  · rw [if_pos hz, if_pos (show (s.mutexOf m).lockedCount = 0 from hz)]
    simp [mutexOf]
  rw [if_neg hz, if_neg (show (s.mutexOf m).lockedCount ≠ 0 from hz)]
  by_cases ho : s.owner m = some s.currTask
  · rw [if_pos ho, if_pos (show (s.mutexOf m).owner = some s.currTask from ho)]
    simp [mutexOf]
  · rw [if_neg ho, if_neg (show (s.mutexOf m).owner ≠ some s.currTask from ho)]
    obtain ⟨hcount, howner, -⟩ := blockAt_same s (.mutexWait m)
    refine ⟨?_, iff_of_false (currTask_blockAt h hidle rfl) (by simp)⟩
    rw [mutexOf, hcount, howner, queue_blockAt s hidle rfl]
    rfl

/-- An unlock wakes the waiter that the mutex is handed to. -/
theorem mutexOf_unlock (h : Inv s) (m : Nat) :
    (s.unlock m).mutexOf m = ((s.mutexOf m).unlock s.currTask).1 ∧
      (s.unlock m).queue .ready =
        s.queue .ready ++ ((s.mutexOf m).unlock s.currTask).2.toList := by
  unfold Sched.unlock Lock.unlock
  by_cases ho : s.owner m = some s.currTask
  · rw [if_pos ho, if_pos (show (s.mutexOf m).owner = some s.currTask from ho)]
    by_cases hl : cInt (s.lockedCount m - 1) = 0
    · rw [if_pos (show cInt ((s.mutexOf m).lockedCount - 1) = 0 from hl)]
      simp only [if_pos hl]
      cases hq : s.queue (.mutexWait m) with
      | nil => simp [mutexOf, hq]
      | cons t rest =>
        obtain ⟨hrest, hready⟩ := queue_wake h rfl hq
        simp [mutexOf, hq, hrest, hready]
    · rw [if_neg (show cInt ((s.mutexOf m).lockedCount - 1) ≠ 0 from hl)]
      simp [mutexOf, hl]
  · rw [if_neg ho, if_neg (show (s.mutexOf m).owner ≠ some s.currTask from ho)]
    simp

end Sched

end Wjos
