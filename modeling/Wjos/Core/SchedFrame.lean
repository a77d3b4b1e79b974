/-
Wjos.Core.SchedFrame — what the scheduling events leave alone.

The ready list and the sleep list are everybody's, but the wait list of a
mutex or semaphore, with its counter and owner, changes only in the calls
made on that object. `SameAt p s s'` says that nothing of the object at `p`
changed, and `sameAt_step` that every event of another object is such a
step.
-/
import Wjos.Core.SchedInv

namespace Wjos

open Lib

/-- The wait list an event is about. -/
def Event.place : Event → Option Place
  | .lock m => some (.mutexWait m)
  | .unlock m => some (.mutexWait m)
  | .semWait n => some (.semWait n)
  | .semNotify n => some (.semWait n)
  | _ => none

/-- The wait lists. -/
def Place.isWait : Place → Bool
  | .ready | .sleep => false
  | .mutexWait _ | .semWait _ => true

namespace Sched

/-- The object whose wait list is at `p` is the same in both states. -/
structure SameAt (p : Place) (s s' : Sched) : Prop where
  queue_eq : s'.queue p = s.queue p
  locked_eq : ∀ m, p = .mutexWait m → s'.lockedCount m = s.lockedCount m
  owner_eq : ∀ m, p = .mutexWait m → s'.owner m = s.owner m
  count_eq : ∀ n, p = .semWait n → s'.semCount n = s.semCount n

variable {s s' s'' : Sched} {p : Place} {t : TaskId}

theorem SameAt.refl (p : Place) (s : Sched) : SameAt p s s :=
  ⟨rfl, fun _ _ => rfl, fun _ _ => rfl, fun _ _ => rfl⟩

/-- Task structures and the current task belong to no object. -/
theorem SameAt.setTask (h : SameAt p s s') (x : TaskId → Task) (c : TaskId) :
    SameAt p s { s' with task := x, currTask := c } :=
  ⟨h.queue_eq, h.locked_eq, h.owner_eq, h.count_eq⟩

theorem SameAt.enqueue (h : SameAt p s s') {r : Place} (hr : p ≠ r) (t : TaskId) :
    SameAt p s { s' with queue := enqueue s'.queue r t } :=
  ⟨(enqueue_of_ne _ t hr).trans h.queue_eq, h.locked_eq, h.owner_eq, h.count_eq⟩

theorem SameAt.dequeue (h : SameAt p s s') {r : Place} (hr : p ≠ r) (t : TaskId) :
    SameAt p s { s' with queue := dequeue s'.queue r t } :=
  ⟨(dequeue_of_ne _ t hr).trans h.queue_eq, h.locked_eq, h.owner_eq, h.count_eq⟩

theorem SameAt.storeMutex (h : SameAt p s s') {m : Nat} (hm : p ≠ .mutexWait m) (c : Int)
    (o : Option TaskId) :
    SameAt p s { s' with
      lockedCount := Function.update s'.lockedCount m c
      owner := Function.update s'.owner m o } where
  queue_eq := h.queue_eq
  locked_eq := fun r hr => by
    have hne : r ≠ m := fun he => hm (he ▸ hr)
    exact (Function.update_of_ne hne _ _).trans (h.locked_eq r hr)
  owner_eq := fun r hr => by
    have hne : r ≠ m := fun he => hm (he ▸ hr)
    exact (Function.update_of_ne hne _ _).trans (h.owner_eq r hr)
  count_eq := h.count_eq

theorem SameAt.storeCount (h : SameAt p s s') {m : Nat} (hm : p ≠ .mutexWait m) (c : Int) :
    SameAt p s { s' with lockedCount := Function.update s'.lockedCount m c } where
  queue_eq := h.queue_eq
  locked_eq := fun r hr => by
    have hne : r ≠ m := fun he => hm (he ▸ hr)
    exact (Function.update_of_ne hne _ _).trans (h.locked_eq r hr)
  owner_eq := h.owner_eq
  count_eq := h.count_eq

theorem SameAt.storeSem (h : SameAt p s s') {n : Nat} (hn : p ≠ .semWait n) (c : Int) :
    SameAt p s { s' with semCount := Function.update s'.semCount n c } where
  queue_eq := h.queue_eq
  locked_eq := h.locked_eq
  owner_eq := h.owner_eq
  count_eq := fun r hr => by
    have hne : r ≠ n := fun he => hn (he ▸ hr)
    exact (Function.update_of_ne hne _ _).trans (h.count_eq r hr)

theorem ne_ready (hp : p.isWait = true) : p ≠ .ready := by
  intro h
  rw [h] at hp
  exact absurd hp (by simp [Place.isWait])

theorem ne_sleep (hp : p.isWait = true) : p ≠ .sleep := by
  intro h
  rw [h] at hp
  exact absurd hp (by simp [Place.isWait])

theorem SameAt.setReady (h : SameAt p s s') (hp : p.isWait = true) (t : TaskId) :
    SameAt p s (s'.setReady t) := by
  unfold Sched.setReady
  split
  · exact h
  · exact (h.enqueue (ne_ready hp) t).setTask _ _

theorem SameAt.setBlock (h : SameAt p s s') (hp : p.isWait = true) (t : TaskId) :
    SameAt p s (s'.setBlock t) := by
  unfold Sched.setBlock
  split
  · exact h
  · exact h.dequeue (ne_ready hp) t

theorem SameAt.dispatch (h : SameAt p s s') : SameAt p s s'.dispatch := by
  unfold Sched.dispatch
  split
  · exact h.setTask _ _
  · exact h

theorem SameAt.blockAt (h : SameAt p s s') (hp : p.isWait = true) {r : Place} (hr : p ≠ r) :
    SameAt p s (s'.blockAt r) :=
  ((h.setBlock hp s'.currTask).enqueue hr s'.currTask).dispatch

theorem SameAt.tickSlice (h : SameAt p s s') (hp : p.isWait = true) :
    SameAt p s s'.tickSlice := by
  unfold Sched.tickSlice
  dsimp only
  split
  · exact ((h.setTask _ _).setBlock hp _).setReady hp _
  · exact h.setTask _ _

theorem SameAt.tickSleeper (h : SameAt p s s') (hp : p.isWait = true) (t : TaskId) :
    SameAt p s (s'.tickSleeper t) := by
  unfold Sched.tickSleeper
  dsimp only
  split
  · exact ((h.setTask _ _).dequeue (ne_sleep hp) t).setReady hp t
  · exact h.setTask _ _

theorem SameAt.tick (h : SameAt p s s') (hp : p.isWait = true) : SameAt p s s'.tick := by
  have hfold : ∀ (l : List TaskId) (u : Sched), SameAt p s u →
      SameAt p s (l.foldl Sched.tickSleeper u) := by
    intro l
    induction l with
    | nil => exact fun u hu => hu
    | cons t l ih => exact fun u hu => ih _ (hu.tickSleeper hp t)
  exact (hfold _ _ (h.tickSlice hp)).dispatch

theorem SameAt.sleep (h : SameAt p s s') (hp : p.isWait = true) (ms : UInt32) :
    SameAt p s (s'.sleep ms) := by
  have h₁ := h.setBlock hp s'.currTask
  unfold Sched.sleep Sched.setSleep
  split
  · exact h₁.dispatch
  · exact ((h₁.setTask _ _).enqueue (ne_sleep hp) s'.currTask).dispatch

theorem SameAt.lock (h : SameAt p s s') (hp : p.isWait = true) {m : Nat}
    (hm : p ≠ .mutexWait m) : SameAt p s (s'.lock m) := by
  unfold Sched.lock
  split
  · exact h.storeMutex hm _ _
  · split
    · exact h.storeCount hm _
    · exact h.blockAt hp hm

theorem SameAt.unlock (h : SameAt p s s') (hp : p.isWait = true) {m : Nat}
    (hm : p ≠ .mutexWait m) : SameAt p s (s'.unlock m) := by
  unfold Sched.unlock
  split
  · dsimp only
    split
    · split
      · exact h.storeMutex hm _ _
      · rename_i t _ _
        have h₁ := ((h.dequeue hm t).setReady hp t).storeMutex hm 1 (some t)
        rw [lockedCount_setReady, owner_setReady] at h₁
        exact h₁.dispatch
    · exact h.storeCount hm _
  · exact h

theorem SameAt.semWait (h : SameAt p s s') (hp : p.isWait = true) {n : Nat}
    (hn : p ≠ .semWait n) : SameAt p s (s'.semWait n) := by
  unfold Sched.semWait
  split
  · exact h.storeSem hn _
  · exact h.blockAt hp hn

theorem SameAt.semNotify (h : SameAt p s s') (hp : p.isWait = true) {n : Nat}
    (hn : p ≠ .semWait n) : SameAt p s (s'.semNotify n) := by
  unfold Sched.semNotify
  split
  · exact h.storeSem hn _
  · rename_i t _ _
    exact ((h.dequeue hn t).setReady hp t).dispatch

theorem SameAt.exitFinal (h : SameAt p s s') (hp : p.isWait = true) {moveChild : Bool}
    {status : Int} (he : s'.exitFinal moveChild status = some s'') : SameAt p s s'' := by
  unfold Sched.exitFinal at he
  split at he
  · exact absurd he (by simp)
  · rename_i parent _
    rw [Option.some.injEq] at he
    subst he
    have h₁ : SameAt p s (s'.exitWakeFirst moveChild) := by
      unfold Sched.exitWakeFirst
      split
      · exact h.setReady hp _
      · exact h
    have h₂ : SameAt p s (if ((s'.exitWakeFirst moveChild).task parent).state = .waitting then
        (s'.exitWakeFirst moveChild).setReady parent else s'.exitWakeFirst moveChild) := by
      split
      · exact h₁.setReady hp _
      · exact h₁
    exact ((h₂.setTask _ _).setBlock hp _).dispatch

/-! ## Blocking at a wait list, and waking its first member -/

@[simp] theorem lockedCount_dispatch (s : Sched) : s.dispatch.lockedCount = s.lockedCount := by
  unfold Sched.dispatch
  split <;> rfl

@[simp] theorem owner_dispatch (s : Sched) : s.dispatch.owner = s.owner := by
  unfold Sched.dispatch
  split <;> rfl

@[simp] theorem semCount_dispatch (s : Sched) : s.dispatch.semCount = s.semCount := by
  unfold Sched.dispatch
  split <;> rfl

@[simp] theorem semCount_setReady (s : Sched) (t : TaskId) :
    (s.setReady t).semCount = s.semCount := by
  unfold Sched.setReady
  split <;> rfl

/-- Blocking changes the counter and owner of no object. -/
theorem blockAt_same (s : Sched) (p : Place) :
    (s.blockAt p).lockedCount = s.lockedCount ∧ (s.blockAt p).owner = s.owner ∧
      (s.blockAt p).semCount = s.semCount := by
  unfold Sched.blockAt
  rw [lockedCount_dispatch, owner_dispatch, semCount_dispatch]
  unfold Sched.setBlock
  split
  · exact ⟨rfl, rfl, rfl⟩
  · exact ⟨rfl, rfl, rfl⟩

/-- The caller joins the wait list as its last member. -/
theorem queue_blockAt (s : Sched) (hidle : s.currTask ≠ .idle) (hp : p.isWait = true) :
    (s.blockAt p).queue p = s.queue p ++ [s.currTask] := by
  unfold Sched.blockAt
  rw [queue_dispatch]
  show Lib.enqueue (s.setBlock s.currTask).queue p s.currTask p = _
  rw [enqueue_self, queue_setBlock _ hidle, dequeue_of_ne _ _ (ne_ready hp)]

/-- Somebody else runs after the caller blocked. -/
theorem currTask_blockAt (h : Inv s) (hidle : s.currTask ≠ .idle) (hp : p.isWait = true) :
    (s.blockAt p).currTask ≠ s.currTask := by
  have hout := h.notMem_setBlock hidle (h.curr_mem hidle) .ready
  intro he
  have hne : (s.blockAt p).currTask ≠ .idle := he ▸ hidle
  have hm := (h.blockAt hidle p).curr_mem hne
  rw [he] at hm
  unfold Sched.blockAt at hm
  rw [queue_dispatch] at hm
  have hm' : s.currTask ∈ Lib.enqueue (s.setBlock s.currTask).queue p s.currTask .ready := hm
  rw [enqueue_of_ne _ _ (ne_ready hp).symm] at hm'
  exact hout hm'

/-- The current task stands in no wait list. -/
theorem Inv.curr_notMem_wait (h : Inv s) (hp : p.isWait = true) : s.currTask ∉ s.queue p := by
  intro hm
  by_cases hidle : s.currTask = .idle
  · exact h.no_idle p (hidle ▸ hm)
  · exact ne_ready hp (h.placed.apart _ _ _ hm (h.curr_mem hidle))

/-- The first waiter leaves its list and joins the ready queue. -/
theorem queue_wake (h : Inv s) (hp : p.isWait = true) {l : List TaskId} (hq : s.queue p = t :: l) :
    (Sched.setReady { s with queue := Lib.dequeue s.queue p t } t).queue p = l ∧
      (Sched.setReady { s with queue := Lib.dequeue s.queue p t } t).queue .ready
        = s.queue .ready ++ [t] := by
  have hidle : t ≠ .idle := fun he => h.no_idle p (by rw [hq, he]; simp)
  rw [queue_setReady _ hidle, enqueue_of_ne _ _ (ne_ready hp), enqueue_self]
  dsimp only
  rw [dequeue_self, dequeue_of_ne _ _ (ne_ready hp).symm, hq, List.erase_cons_head]
  exact ⟨rfl, rfl⟩

/-- What an unlock can do: nothing, undo one of several locks, free the
mutex, or pass it to the first waiter. -/
theorem unlock_cases (h : Inv s) (m : Nat) :
    (s.owner m ≠ some s.currTask ∧ s.unlock m = s) ∨
    (s.owner m = some s.currTask ∧
      ((cInt (s.lockedCount m - 1) ≠ 0 ∧ (s.unlock m).queue = s.queue ∧
        (s.unlock m).owner m = s.owner m ∧
        (s.unlock m).lockedCount m = cInt (s.lockedCount m - 1)) ∨
      (cInt (s.lockedCount m - 1) = 0 ∧ s.queue (.mutexWait m) = [] ∧
        (s.unlock m).queue = s.queue ∧ (s.unlock m).owner m = none ∧
        (s.unlock m).lockedCount m = 0) ∨
      ∃ t l, cInt (s.lockedCount m - 1) = 0 ∧ s.queue (.mutexWait m) = t :: l ∧
        (s.unlock m).queue (.mutexWait m) = l ∧ (s.unlock m).owner m = some t ∧
        (s.unlock m).lockedCount m = 1)) := by
  unfold Sched.unlock
  by_cases ho : s.owner m = some s.currTask
  · rw [if_pos ho]
    refine Or.inr ⟨ho, ?_⟩
    dsimp only
    by_cases h0 : cInt (s.lockedCount m - 1) = 0
    · rw [if_pos h0]
      cases hq : s.queue (.mutexWait m) with
      | nil => exact Or.inr (Or.inl ⟨h0, rfl, rfl, by simp, by simp [h0]⟩)
      | cons t l =>
        refine Or.inr (Or.inr ⟨t, l, h0, rfl, ?_, by simp, by simp⟩)
        rw [queue_dispatch]
        exact (queue_wake h rfl hq).1
    · rw [if_neg h0]
      exact Or.inl ⟨h0, rfl, rfl, by simp⟩
  · rw [if_neg ho]
    exact Or.inl ⟨ho, rfl⟩

/-- An event leaves the mutexes and semaphores alone that it is not
about. -/
theorem sameAt_step {e : Event} (hp : p.isWait = true) (he : e.place ≠ some p)
    (hs : schedStep s e = some s') : SameAt p s s' := by
  have hc := schedCall_of_step hs
  have hr := SameAt.refl p s
  cases e with
  | tick =>
    rw [schedCall, Option.some.injEq] at hc
    exact hc ▸ hr.tick hp
  | yeild =>
    rw [schedCall, Option.some.injEq] at hc
    rw [← hc]
    unfold Sched.yeild
    split
    · exact ((hr.setBlock hp _).setReady hp _).dispatch
    · exact hr
  | sleep ms =>
    rw [schedCall, Option.some.injEq] at hc
    exact hc ▸ hr.sleep hp ms
  | lock m =>
    rw [schedCall, Option.some.injEq] at hc
    exact hc ▸ hr.lock hp fun h => he (by rw [h]; rfl)
  | unlock m =>
    rw [schedCall, Option.some.injEq] at hc
    exact hc ▸ hr.unlock hp fun h => he (by rw [h]; rfl)
  | semWait n =>
    rw [schedCall, Option.some.injEq] at hc
    exact hc ▸ hr.semWait hp fun h => he (by rw [h]; rfl)
  | semNotify n =>
    rw [schedCall, Option.some.injEq] at hc
    exact hc ▸ hr.semNotify hp fun h => he (by rw [h]; rfl)
  | fork i =>
    rw [schedCall] at hc
    split at hc
    · rw [Option.some.injEq] at hc
      exact hc ▸ (hr.setTask _ _).setReady hp _
    · exact absurd hc (by simp)
  | waitScan =>
    rw [schedCall, Option.some.injEq] at hc
    rw [← hc]
    unfold Sched.waitScan
    split
    · exact hr
    · exact hr.setTask _ _
  | waitBlock =>
    rw [schedCall, Option.some.injEq] at hc
    exact hc ▸ ((hr.setBlock hp _).setTask _ _).dispatch
  | exitReparent =>
    rw [schedCall, Option.some.injEq] at hc
    exact hc ▸ hr.setTask _ _
  | exitFinal moveChild status => exact hr.exitFinal hp hc

end Sched

end Wjos
