/-
Wjos.Core.SchedInv — the invariant of the abstract scheduler.

`Sched.Sound` is what holds between any two operations of one event: the
queues are apart, the idle task is in none, and every queued task is live
(not `TASK_CREATED`, `TASK_WAITTING` or `TASK_ZOMBIE`). `Sched.Inv` adds
what `task_dispatch` establishes: the current task is the next one to run.

Each operation has one lemma; `Sched.inv_step` assembles them, one case
per event.
-/
import Wjos.Core.Sched

namespace Wjos

open Lib

/-- The states of a task that runs, sleeps or is queued for something. -/
def TaskState.isLive : TaskState → Bool
  | .running | .sleep | .ready => true
  | .created | .waitting | .zombie => false

namespace Sched

/-- What every operation of the scheduler keeps. -/
structure Sound (s : Sched) : Prop where
  placed : Placed s.queue
  no_idle : ∀ p, TaskId.idle ∉ s.queue p
  live : ∀ p t, t ∈ s.queue p → (s.task t).state.isLive = true

/-- What holds between two events. -/
structure Inv (s : Sched) : Prop extends Sound s where
  curr_eq : s.currTask = s.nextRun

variable {s : Sched} {t : TaskId}

/-- A task that is not live stands in no queue. -/
theorem Sound.notMem (h : Sound s) (hl : (s.task t).state.isLive = false) (p : Place) :
    t ∉ s.queue p := fun hm => by simp [h.live p t hm] at hl

/-- The invariant reads the queues and the states only. -/
theorem Sound.congr {s' : Sched} (h : Sound s) (hq : s'.queue = s.queue)
    (ht : ∀ u, (s'.task u).state = (s.task u).state) : Sound s' where
  placed := hq ▸ h.placed
  no_idle := by rw [hq]; exact h.no_idle
  live := by
    intro p u hu
    rw [hq] at hu
    rw [ht]
    exact h.live p u hu

/-- Rewriting a task structure. -/
theorem Sound.setTask (h : Sound s) (x : Task)
    (hx : ∀ p, t ∈ s.queue p → x.state.isLive = true) :
    Sound { s with task := Function.update s.task t x } where
  placed := h.placed
  no_idle := h.no_idle
  live := by
    intro p u hu
    show (Function.update s.task t x u).state.isLive = true
    by_cases hut : u = t
    · subst hut
      rw [Function.update_self]
      exact hx p hu
    · rw [Function.update_of_ne hut]
      exact h.live p u hu

/-- Rewriting a task structure but for its state. -/
theorem Sound.setTask_of_state (h : Sound s) (x : Task) (hx : x.state = (s.task t).state) :
    Sound { s with task := Function.update s.task t x } :=
  h.setTask x fun p hp => by rw [hx]; exact h.live p t hp

/-- A live task that stands nowhere joins a queue. -/
theorem Sound.enqueue (h : Sound s) (p : Place) (hidle : t ≠ .idle)
    (hl : (s.task t).state.isLive = true) (ht : ∀ r, t ∉ s.queue r) :
    Sound { s with queue := enqueue s.queue p t } where
  placed := h.placed.enqueue ht
  no_idle := by
    intro r hr
    rcases mem_enqueue.mp hr with hr | ⟨-, he⟩
    · exact h.no_idle r hr
    · exact hidle he.symm
  live := by
    intro r u hu
    rcases mem_enqueue.mp hu with hu | ⟨-, rfl⟩
    · exact h.live r u hu
    · exact hl

theorem Sound.dequeue (h : Sound s) (p : Place) (t : TaskId) :
    Sound { s with queue := dequeue s.queue p t } where
  placed := h.placed.dequeue p t
  no_idle := fun r hr => h.no_idle r ((mem_dequeue h.placed).mp hr).1
  live := fun r u hu => h.live r u ((mem_dequeue h.placed).mp hu).1

/-! ## The operations -/

theorem Sound.setReady (h : Sound s) (ht : ∀ p, t ∉ s.queue p) : Sound (s.setReady t) := by
  unfold Sched.setReady
  split
  · exact h
  · rename_i hidle
    -- the state is written after the insertion; the order does not matter
    have h₁ := h.setTask (t := t) { s.task t with state := .ready } fun p hp => absurd hp (ht p)
    exact h₁.enqueue .ready hidle (by simp [TaskState.isLive]) ht

theorem Sound.setBlock (h : Sound s) (t : TaskId) : Sound (s.setBlock t) := by
  unfold Sched.setBlock
  split
  · exact h
  · exact h.dequeue .ready t

/-- A ready task that blocked stands nowhere. -/
theorem Sound.notMem_setBlock (h : Sound s) (hidle : t ≠ .idle) (ht : t ∈ s.queue .ready)
    (p : Place) : t ∉ (s.setBlock t).queue p := by
  unfold Sched.setBlock
  rw [if_neg hidle]
  exact notMem_dequeue h.placed ht p

@[simp] theorem task_setBlock (s : Sched) (t : TaskId) : (s.setBlock t).task = s.task := by
  unfold Sched.setBlock
  split <;> rfl

@[simp] theorem currTask_setBlock (s : Sched) (t : TaskId) :
    (s.setBlock t).currTask = s.currTask := by
  unfold Sched.setBlock
  split <;> rfl

@[simp] theorem currTask_setReady (s : Sched) (t : TaskId) :
    (s.setReady t).currTask = s.currTask := by
  unfold Sched.setReady
  split <;> rfl

@[simp] theorem lockedCount_setReady (s : Sched) (t : TaskId) :
    (s.setReady t).lockedCount = s.lockedCount := by
  unfold Sched.setReady
  split <;> rfl

@[simp] theorem owner_setReady (s : Sched) (t : TaskId) : (s.setReady t).owner = s.owner := by
  unfold Sched.setReady
  split <;> rfl

/-- Setting a task ready does not look at the mutexes. -/
theorem setReady_storeMutex (s : Sched) (t : TaskId) (c : Nat → Int) (o : Nat → Option TaskId) :
    { s with lockedCount := c, owner := o }.setReady t
      = { s.setReady t with lockedCount := c, owner := o } := by
  unfold Sched.setReady
  split <;> rfl

/-- What `setReady` does to the queues. -/
theorem queue_setReady (s : Sched) (hidle : t ≠ .idle) :
    (s.setReady t).queue = Lib.enqueue s.queue .ready t := by
  unfold Sched.setReady
  rw [if_neg hidle]
  rfl

/-- What `setBlock` does to the queues. -/
theorem queue_setBlock (s : Sched) (hidle : t ≠ .idle) :
    (s.setBlock t).queue = Lib.dequeue s.queue .ready t := by
  unfold Sched.setBlock
  rw [if_neg hidle]

@[simp] theorem queue_dispatch (s : Sched) : s.dispatch.queue = s.queue := by
  unfold Sched.dispatch
  split <;> rfl

/-- The next task to run is the idle task or stands in the ready queue. -/
theorem nextRun_mem (hidle : s.nextRun ≠ .idle) : s.nextRun ∈ s.queue .ready := by
  unfold nextRun at hidle ⊢
  cases hq : s.queue .ready with
  | nil => simp [hq] at hidle
  | cons u l => simp

/-- `task_dispatch` makes the next task the current one. -/
theorem currTask_dispatch (s : Sched) : s.dispatch.currTask = s.nextRun := by
  unfold Sched.dispatch
  split
  · rfl
  · rename_i h
    exact (not_not.mp h).symm

theorem Sound.dispatch (h : Sound s) : Inv s.dispatch where
  toSound := by
    unfold Sched.dispatch
    split
    · have h₁ := h.setTask (t := s.nextRun) { s.task s.nextRun with state := .running }
        fun _ _ => rfl
      exact h₁.congr rfl fun _ => rfl
    · exact h
  curr_eq := by
    rw [currTask_dispatch]
    unfold nextRun
    rw [queue_dispatch]

/-- The current task, unless it is the idle task, stands in the ready
queue. -/
theorem Inv.curr_mem (h : Inv s) (hidle : s.currTask ≠ .idle) : s.currTask ∈ s.queue .ready := by
  rw [h.curr_eq] at hidle ⊢
  exact nextRun_mem hidle

theorem Inv.curr_live (h : Inv s) (hidle : s.currTask ≠ .idle) :
    (s.task s.currTask).state.isLive = true := h.live _ _ (h.curr_mem hidle)

/-- Blocking the current task at a wait list. -/
theorem Inv.blockAt (h : Inv s) (hidle : s.currTask ≠ .idle) (p : Place) : Inv (s.blockAt p) := by
  refine Sound.dispatch ?_
  refine (h.setBlock s.currTask).enqueue p hidle ?_ ?_
  · rw [task_setBlock]
    exact h.curr_live hidle
  · exact h.notMem_setBlock hidle (h.curr_mem hidle)

/-- Taking a waiter off its list and making it ready. -/
theorem Sound.wake (h : Sound s) {p : Place} (ht : t ∈ s.queue p) :
    Sound ({ s with queue := Lib.dequeue s.queue p t }.setReady t) :=
  (h.dequeue p t).setReady (notMem_dequeue h.placed ht)

/-- Membership survives a wake-up. -/
theorem mem_setReady {u : TaskId} {p : Place} (hu : u ∈ s.queue p) :
    u ∈ (s.setReady t).queue p := by
  by_cases hidle : t = .idle
  · unfold Sched.setReady
    rw [if_pos hidle]
    exact hu
  · rw [queue_setReady s hidle]
    exact mem_enqueue.mpr (Or.inl hu)

/-! ## The clock tick -/

theorem Inv.tickSlice (h : Inv s) : Sound s.tickSlice := by
  unfold Sched.tickSlice
  dsimp only
  split
  · have h₁ := h.setTask_of_state (t := s.currTask)
      { s.task s.currTask with sliceTicks := (s.task s.currTask).timeTicks } rfl
    by_cases hidle : s.currTask = .idle
    · unfold Sched.setReady Sched.setBlock
      rw [if_pos hidle, if_pos hidle]
      exact h₁
    · exact (h₁.setBlock s.currTask).setReady (h₁.notMem_setBlock hidle (h.curr_mem hidle))
  · exact h.setTask_of_state _ rfl

theorem Sound.tickSleeper (h : Sound s) (ht : t ∈ s.queue .sleep) : Sound (s.tickSleeper t) := by
  unfold Sched.tickSleeper
  dsimp only
  have h₁ := h.setTask_of_state (t := t)
    { s.task t with sleepTicks := (s.task t).sleepTicks - 1 } rfl
  split
  · exact h₁.wake ht
  · exact h₁

/-- Treating one sleeper leaves the other sleepers asleep. -/
theorem Sound.mem_sleep_tickSleeper (h : Sound s) {u : TaskId} (hut : u ≠ t)
    (hu : u ∈ s.queue .sleep) : u ∈ (s.tickSleeper t).queue .sleep := by
  have hd : u ∈ Lib.dequeue s.queue .sleep t .sleep :=
    (mem_dequeue h.placed).mpr ⟨hu, fun hc => hut hc.2⟩
  unfold Sched.tickSleeper
  dsimp only
  split
  · exact mem_setReady hd
  · exact hu

theorem Sound.tickSleepers {l : List TaskId} (h : Sound s) (hl : l.Nodup)
    (hs : ∀ u ∈ l, u ∈ s.queue .sleep) : Sound (l.foldl Sched.tickSleeper s) := by
  induction l generalizing s with
  | nil => exact h
  | cons u l ih =>
    rw [List.foldl_cons]
    have hu : u ∉ l := (List.nodup_cons.mp hl).1
    refine ih (h.tickSleeper (hs u (by simp))) hl.of_cons fun v hv => ?_
    exact h.mem_sleep_tickSleeper (fun he => hu (he ▸ hv)) (hs v (by simp [hv]))

theorem Inv.tick (h : Inv s) : Inv s.tick :=
  (h.tickSlice.tickSleepers (h.tickSlice.placed.nodup _) fun _ hu => hu).dispatch

/-! ## The system calls -/

theorem Inv.yeild (h : Inv s) (hidle : s.currTask ≠ .idle) : Inv s.yeild := by
  unfold Sched.yeild
  split
  · exact ((h.setBlock s.currTask).setReady
      (h.notMem_setBlock hidle (h.curr_mem hidle))).dispatch
  · exact h

theorem Inv.sleep (h : Inv s) (hidle : s.currTask ≠ .idle) (ms : UInt32) : Inv (s.sleep ms) := by
  refine Sound.dispatch ?_
  unfold Sched.setSleep
  split
  · exact h.setBlock s.currTask
  · have hout := h.notMem_setBlock hidle (h.curr_mem hidle)
    have h₁ := (h.setBlock s.currTask).setTask (t := s.currTask)
      { (s.setBlock s.currTask).task s.currTask with
        sleepTicks := (sleepTicksOf ms).toNat, state := .sleep } fun p hp => absurd hp (hout p)
    exact h₁.enqueue .sleep hidle (by simp [TaskState.isLive]) hout

theorem Inv.lock (h : Inv s) (hidle : s.currTask ≠ .idle) (m : Nat) : Inv (s.lock m) := by
  unfold Sched.lock
  split
  · exact ⟨⟨h.placed, h.no_idle, h.live⟩, h.curr_eq⟩
  · split
    · exact ⟨⟨h.placed, h.no_idle, h.live⟩, h.curr_eq⟩
    · exact h.blockAt hidle _

theorem Inv.unlock (h : Inv s) (m : Nat) : Inv (s.unlock m) := by
  unfold Sched.unlock
  split
  · dsimp only
    split
    · split
      · exact ⟨⟨h.placed, h.no_idle, h.live⟩, h.curr_eq⟩
      · rename_i t l hq
        have hw := h.toSound.wake (p := .mutexWait m) (t := t) (by rw [hq]; simp)
        exact Sound.dispatch ⟨hw.placed, hw.no_idle, hw.live⟩
    · exact ⟨⟨h.placed, h.no_idle, h.live⟩, h.curr_eq⟩
  · exact h

theorem Inv.semWait (h : Inv s) (hidle : s.currTask ≠ .idle) (n : Nat) : Inv (s.semWait n) := by
  unfold Sched.semWait
  split
  · exact ⟨⟨h.placed, h.no_idle, h.live⟩, h.curr_eq⟩
  · exact h.blockAt hidle _

theorem Inv.semNotify (h : Inv s) (n : Nat) : Inv (s.semNotify n) := by
  unfold Sched.semNotify
  split
  · exact ⟨⟨h.placed, h.no_idle, h.live⟩, h.curr_eq⟩
  · rename_i t l hq
    exact (h.toSound.wake (p := .semWait n) (t := t) (by rw [hq]; simp)).dispatch

/-- A task that joins the ready queue behind others does not change who
runs next. -/
theorem nextRun_setReady (hne : s.queue .ready ≠ []) : (s.setReady t).nextRun = s.nextRun := by
  by_cases hidle : t = .idle
  · unfold Sched.setReady
    rw [if_pos hidle]
  · unfold nextRun
    rw [queue_setReady s hidle, enqueue_self, List.head?_append_of_ne_nil _ hne]

theorem Inv.fork (h : Inv s) (hidle : s.currTask ≠ .idle) (ht : (s.task t).state = .created) :
    Inv (s.fork t) := by
  have hout : ∀ p, t ∉ s.queue p := h.notMem (by rw [ht]; rfl)
  have h₁ := h.setTask (t := t) (freshTask s.currTask) fun p hp => absurd hp (hout p)
  refine ⟨h₁.setReady hout, ?_⟩
  have hne : s.queue .ready ≠ [] := List.ne_nil_of_mem (h.curr_mem hidle)
  have hn := nextRun_setReady (t := t)
    (s := { s with task := Function.update s.task t (freshTask s.currTask) }) hne
  unfold Sched.fork
  rw [currTask_setReady, hn]
  exact h.curr_eq

theorem Inv.waitScan (h : Inv s) : Inv s.waitScan := by
  unfold Sched.waitScan
  split
  · exact h
  · rename_i i hi
    have hz := (findSlot_eq_some hi).1
    simp only [isZombieChild, Bool.and_eq_true, decide_eq_true_eq] at hz
    have hout := h.notMem (t := .slot i) (by rw [hz.2]; rfl)
    exact ⟨h.setTask _ fun p hp => absurd hp (hout p), h.curr_eq⟩

theorem Inv.waitBlock (h : Inv s) (hidle : s.currTask ≠ .idle) : Inv s.waitBlock := by
  refine Sound.dispatch ?_
  have hout := h.notMem_setBlock hidle (h.curr_mem hidle)
  exact (h.setBlock s.currTask).setTask _ fun p hp => absurd hp (hout p)

theorem state_reparent (s : Sched) (t u : TaskId) : (s.reparent t u).state = (s.task u).state := by
  cases u with
  | slot i => unfold reparent; dsimp only; split <;> rfl
  | _ => rfl

theorem Inv.exitReparent (h : Inv s) : Inv s.exitReparent where
  toSound := h.toSound.congr rfl fun u => state_reparent s _ u
  curr_eq := h.curr_eq

@[simp] theorem currTask_exitWakeFirst (s : Sched) (b : Bool) :
    (s.exitWakeFirst b).currTask = s.currTask := by
  unfold exitWakeFirst
  split
  · rw [currTask_setReady]
  · rfl

theorem Sound.exitWakeFirst (h : Sound s) (moveChild : Bool) :
    Sound (s.exitWakeFirst moveChild) := by
  unfold Sched.exitWakeFirst
  split
  · rename_i hc
    exact h.setReady (h.notMem (by rw [hc.2.2]; rfl))
  · exact h

/-- Waking a task that waits for a child. -/
theorem Sound.wakeParent (h : Sound s) (t : TaskId) :
    Sound (if (s.task t).state = .waitting then s.setReady t else s) := by
  split
  · rename_i hw
    exact h.setReady (h.notMem (by rw [hw]; rfl))
  · exact h

/-- The wake-ups of `sys_exit` take nobody out of a queue. -/
theorem mem_exitWake {u : TaskId} {p : Place} (hu : u ∈ s.queue p) (moveChild : Bool)
    (parent : TaskId) :
    u ∈ (if ((s.exitWakeFirst moveChild).task parent).state = .waitting then
        (s.exitWakeFirst moveChild).setReady parent
      else s.exitWakeFirst moveChild).queue p := by
  have hu₁ : u ∈ (s.exitWakeFirst moveChild).queue p := by
    unfold Sched.exitWakeFirst
    split
    · exact mem_setReady hu
    · exact hu
  split
  · exact mem_setReady hu₁
  · exact hu₁

theorem Inv.exitFinal (h : Inv s) (hidle : s.currTask ≠ .idle) {moveChild : Bool} {status : Int}
    {s' : Sched} (hs : s.exitFinal moveChild status = some s') : Inv s' := by
  unfold Sched.exitFinal at hs
  split at hs
  · exact absurd hs (by simp)
  · rename_i parent _
    rw [Option.some.injEq] at hs
    subst hs
    dsimp only
    have h₁ := h.toSound.exitWakeFirst moveChild
    have h₂ := h₁.wakeParent parent
    set s₁ := s.exitWakeFirst moveChild with hs₁
    set s₂ := (if (s₁.task parent).state = .waitting then s₁.setReady parent else s₁) with hs₂
    have hm : s.currTask ∈ s₂.queue .ready :=
      mem_exitWake (h.curr_mem hidle) moveChild parent
    -- the zombie state is written before the task leaves the ready queue
    have hout := h₂.notMem_setBlock hidle hm
    have h₃ := (h₂.setBlock s.currTask).setTask (t := s.currTask)
      { s₂.task s.currTask with state := .zombie, status := status }
      fun p hp => absurd hp (hout p)
    refine Sound.dispatch ?_
    unfold Sched.setBlock at h₃ ⊢
    rw [if_neg hidle] at h₃ ⊢
    exact h₃

/-! ## Every event keeps the invariant -/

theorem currTask_ne_idle {e : Event} {s' : Sched} (hs : schedStep s e = some s')
    (he : isInterrupt e = false) : s.currTask ≠ .idle := by
  intro hidle
  simp [schedStep, hidle, he] at hs

theorem schedCall_of_step {e : Event} {s' : Sched} (hs : schedStep s e = some s') :
    schedCall s e = some s' := by
  unfold schedStep at hs
  split at hs
  · exact absurd hs (by simp)
  · exact hs

theorem inv_step (s : Sched) (e : Event) (s' : Sched) (h : Inv s)
    (hs : schedStep s e = some s') : Inv s' := by
  have hc := schedCall_of_step hs
  cases e with
  | tick =>
    rw [schedCall, Option.some.injEq] at hc
    exact hc ▸ h.tick
  | semNotify n =>
    rw [schedCall, Option.some.injEq] at hc
    exact hc ▸ h.semNotify n
  | yeild =>
    rw [schedCall, Option.some.injEq] at hc
    exact hc ▸ h.yeild (currTask_ne_idle hs rfl)
  | sleep ms =>
    rw [schedCall, Option.some.injEq] at hc
    exact hc ▸ h.sleep (currTask_ne_idle hs rfl) ms
  | lock m =>
    rw [schedCall, Option.some.injEq] at hc
    exact hc ▸ h.lock (currTask_ne_idle hs rfl) m
  | unlock m =>
    rw [schedCall, Option.some.injEq] at hc
    exact hc ▸ h.unlock m
  | semWait n =>
    rw [schedCall, Option.some.injEq] at hc
    exact hc ▸ h.semWait (currTask_ne_idle hs rfl) n
  | fork i =>
    rw [schedCall] at hc
    split at hc
    · rename_i hi
      rw [Option.some.injEq] at hc
      exact hc ▸ h.fork (currTask_ne_idle hs rfl) hi.2
    · exact absurd hc (by simp)
  | waitScan =>
    rw [schedCall, Option.some.injEq] at hc
    exact hc ▸ h.waitScan
  | waitBlock =>
    rw [schedCall, Option.some.injEq] at hc
    exact hc ▸ h.waitBlock (currTask_ne_idle hs rfl)
  | exitReparent =>
    rw [schedCall, Option.some.injEq] at hc
    exact hc ▸ h.exitReparent
  | exitFinal moveChild status => exact h.exitFinal (currTask_ne_idle hs rfl) hc

theorem inv_init (counts : Nat → Int) : Inv (schedInit counts) where
  placed := by
    constructor
    · intro p r a hp hr
      simp only [schedInit] at hp hr
      split at hp <;> split at hr <;> simp_all
    · intro p
      simp only [schedInit]
      split <;> simp
  no_idle := by
    intro p
    simp only [schedInit]
    split <;> simp
  live := by
    intro p t ht
    simp only [schedInit] at ht
    split at ht
    · rw [List.mem_singleton] at ht
      subst ht
      rfl
    · simp at ht
  curr_eq := rfl

end Sched

end Wjos
