/-
Wjos.Core.WaitExit — the synchronisation of `sys_wait` and `sys_exit`.

Both calls are made of atomic steps with gaps between them, in which other
tasks run. `Phase` is how far a task has got:

* `user` — in neither call;
* `scanned` — in `sys_wait`, after a scan that found no zombie child and
  before the step that blocks;
* `rescan` — in `sys_wait`, after the step that blocks: once woken the
  loop scans again;
* `exiting` — in `sys_exit`, after the re-parenting step, with the value
  of `move_child`.

`waitExitStep` lets a task take only the next step of the call it is in;
in a call it may also lock and unlock (`task_table_mutex`), and interrupts
come at any time.

A wake-up is lost when a child exits while its parent is in `scanned`:
`sys_exit` only looks for `TASK_WAITTING`, which the parent sets in a later
step. `no_lost_wakeup` says that this, and handing a zombie to a
`first_task` that waits or is about to wait, are the only ways to reach a
state with a waiting parent of a zombie.
-/
import Wjos.Core.SchedTheorems

namespace Wjos

open Lib

/-- How far a task has got in `sys_wait` or `sys_exit`. -/
inductive Phase where
  | user
  | scanned
  | rescan
  | exiting (moveChild : Bool)
  deriving DecidableEq, Repr

/-- The phase of the current task after one of its calls; `reaped` and
`moved` are what `sysWaitScan` and `sysExitReparent` return. -/
def Phase.next (reaped moved : Bool) : Phase → Event → Option Phase
  | ph, .tick => some ph
  | ph, .semNotify _ => some ph
  | ph, .lock _ => some ph
  | ph, .unlock _ => some ph
  | .user, .yeild => some .user
  | .user, .sleep _ => some .user
  | .user, .semWait _ => some .user
  | .user, .fork _ => some .user
  | .user, .waitScan => some (if reaped then .user else .scanned)
  | .rescan, .waitScan => some (if reaped then .user else .scanned)
  | .scanned, .waitBlock => some .rescan
  | .user, .exitReparent => some (.exiting moved)
  | .exiting moveChild, .exitFinal m _ => if m = moveChild then some .user else none
  | _, _ => none

/-- The phases after an event that took the current task to `ph`: a forked
child starts in user code. -/
def phasesAfter (phases : TaskId → Phase) (curr : TaskId) (ph : Phase) : Event → TaskId → Phase
  | .fork i => Function.update (Function.update phases curr ph) (.slot i) .user
  | _ => Function.update phases curr ph

/-- One event of the kernel, with the current task's phase respected. -/
def waitExitStep (x : Kernel × (TaskId → Phase)) (e : Event) :
    Option (Kernel × (TaskId → Phase)) :=
  (Phase.next (sysWaitScan x.1).2.isSome (sysExitReparent x.1).2 (x.2 x.1.currTask) e).bind
    fun ph => (kernelStep x.1 e).map fun k' => (k', phasesAfter x.2 x.1.currTask ph e)

/-- Every task starts in user code. -/
def waitExitInit (counts : Nat → Int) : Kernel × (TaskId → Phase) :=
  (kernelInit counts, fun _ => .user)

/-- No task that waits for a child, outside the ready list, has a zombie
child. -/
def Kernel.NoLostWakeup (k : Kernel) : Prop :=
  ∀ p, (k.task p).state = .waitting → ¬ k.Queued .ready p →
    ∀ i < taskNr, (k.task (.slot i)).parent = some p → (k.task (.slot i)).state ≠ .zombie

/-- The steps that lose no wake-up: no child exits while its parent stands
between its scan and its block, and no zombie is handed to `first_task`
while that waits or stands there. -/
def wakeupSafe (x : Kernel × (TaskId → Phase)) : Event → Prop
  | .exitFinal _ _ => ∀ p, (x.1.task x.1.currTask).parent = some p → x.2 p ≠ .scanned
  | .exitReparent => (∃ i < taskNr, isZombieChild x.1 x.1.currTask i = true) →
      (x.1.task .first).state ≠ .waitting ∧ x.2 .first ≠ .scanned
  | _ => True

instance (x : Kernel × (TaskId → Phase)) : ∀ e, Decidable (wakeupSafe x e)
  | .exitFinal _ _ =>
    match h : (x.1.task x.1.currTask).parent with
    | none => isTrue fun p hp => absurd (h.symm.trans hp) (by simp)
    | some parent => decidable_of_iff (x.2 parent ≠ .scanned)
        ⟨fun hn p hp => Option.some.inj (h.symm.trans hp) ▸ hn, fun hall => hall parent h⟩
  | .exitReparent => inferInstanceAs (Decidable (_ → _))
  | .tick | .yeild | .sleep _ | .lock _ | .unlock _ | .semWait _ | .semNotify _ | .fork _
  | .waitScan | .waitBlock => isTrue trivial

/-! ## Steps that answer nothing

Most events create neither zombies nor waiting tasks and leave the parents
alone. -/

namespace Sched

/-- `s'` has the parents of `s` and no new zombie or waiting task. -/
structure Quiet (s s' : Sched) : Prop where
  parent_eq : ∀ u, (s'.task u).parent = (s.task u).parent
  waitting : ∀ u, (s'.task u).state = .waitting → (s.task u).state = .waitting
  zombie : ∀ u, (s'.task u).state = .zombie → (s.task u).state = .zombie

variable {s s' s'' : Sched} {t : TaskId}

theorem Quiet.refl (s : Sched) : Quiet s s := ⟨fun _ => rfl, fun _ h => h, fun _ h => h⟩

/-- Only the task structures matter. -/
theorem Quiet.congr (h : Quiet s s') (ht : s''.task = s'.task) : Quiet s s'' where
  parent_eq := fun u => by rw [ht]; exact h.parent_eq u
  waitting := fun u hu => h.waitting u (by rw [← ht]; exact hu)
  zombie := fun u hu => h.zombie u (by rw [← ht]; exact hu)

/-- Rewriting a task structure to a live state, or keeping its state. -/
theorem Quiet.setTask (h : Quiet s s') {x : Task} (hp : x.parent = (s'.task t).parent)
    (hx : x.state = (s'.task t).state ∨ x.state.isLive = true) :
    Quiet s { s' with task := Function.update s'.task t x } := by
  have hstate : ∀ st : TaskState, st.isLive = false → ∀ u,
      (Function.update s'.task t x u).state = st → (s'.task u).state = st := by
    intro st hst u hu
    by_cases hut : u = t
    · rw [hut, Function.update_self] at hu
      rcases hx with he | hl
      · rw [hut, ← he]
        exact hu
      · rw [hu, hst] at hl
        exact absurd hl (by simp)
    · rw [Function.update_of_ne hut] at hu
      exact hu
  constructor
  · intro u
    show (Function.update s'.task t x u).parent = _
    by_cases hut : u = t
    · rw [hut, Function.update_self, hp]
      exact h.parent_eq t
    · rw [Function.update_of_ne hut]
      exact h.parent_eq u
  · exact fun u hu => h.waitting u (hstate .waitting rfl u hu)
  · exact fun u hu => h.zombie u (hstate .zombie rfl u hu)

theorem Quiet.setReady (h : Quiet s s') (t : TaskId) : Quiet s (s'.setReady t) := by
  unfold Sched.setReady
  split
  · exact h
  · exact (h.setTask (t := t) (x := { s'.task t with state := .ready }) rfl (Or.inr rfl)).congr rfl

theorem Quiet.setBlock (h : Quiet s s') (t : TaskId) : Quiet s (s'.setBlock t) :=
  h.congr (task_setBlock s' t)

theorem Quiet.setWakeup (h : Quiet s s') (t : TaskId) : Quiet s (s'.setWakeup t) :=
  ⟨h.parent_eq, h.waitting, h.zombie⟩

theorem Quiet.dispatch (h : Quiet s s') : Quiet s s'.dispatch := by
  unfold Sched.dispatch
  split
  · exact (h.setTask (t := s'.nextRun) (x := { s'.task s'.nextRun with state := .running }) rfl
      (Or.inr rfl)).congr rfl
  · exact h

theorem Quiet.tick (h : Quiet s s') : Quiet s s'.tick := by
  have hslice : Quiet s s'.tickSlice := by
    unfold Sched.tickSlice
    dsimp only
    split
    · have h₁ := h.setTask (t := s'.currTask) (x := { s'.task s'.currTask with
        sliceTicks := (s'.task s'.currTask).timeTicks }) rfl (Or.inl rfl)
      exact (h₁.setBlock _).setReady _
    · exact h.setTask rfl (Or.inl rfl)
  have hfold : ∀ (l : List TaskId) (u : Sched), Quiet s u →
      Quiet s (l.foldl Sched.tickSleeper u) := by
    intro l
    induction l with
    | nil => exact fun u hu => hu
    | cons t l ih =>
      intro u hu
      refine ih _ ?_
      have h₁ := hu.setTask (t := t)
        (x := { u.task t with sleepTicks := (u.task t).sleepTicks - 1 }) rfl (Or.inl rfl)
      unfold Sched.tickSleeper
      dsimp only
      split
      · exact (h₁.setWakeup t).setReady t
      · exact h₁
  exact (hfold _ _ hslice).dispatch

theorem Quiet.blockAt (h : Quiet s s') (p : Place) : Quiet s (s'.blockAt p) := by
  have h₁ := h.setBlock s'.currTask
  exact Quiet.dispatch ⟨h₁.parent_eq, h₁.waitting, h₁.zombie⟩

theorem Quiet.sleep (h : Quiet s s') (ms : UInt32) : Quiet s (s'.sleep ms) := by
  have h₁ := h.setBlock s'.currTask
  unfold Sched.sleep Sched.setSleep
  split
  · exact h₁.dispatch
  · have h₂ := h₁.setTask (t := s'.currTask)
      (x := { (s'.setBlock s'.currTask).task s'.currTask with
        sleepTicks := (sleepTicksOf ms).toNat, state := .sleep }) rfl (Or.inr rfl)
    exact Quiet.dispatch ⟨h₂.parent_eq, h₂.waitting, h₂.zombie⟩

theorem Quiet.lock (h : Quiet s s') (m : Nat) : Quiet s (s'.lock m) := by
  unfold Sched.lock
  split
  · exact h.congr rfl
  · split
    · exact h.congr rfl
    · exact h.blockAt _

theorem Quiet.unlock (h : Quiet s s') (m : Nat) : Quiet s (s'.unlock m) := by
  unfold Sched.unlock
  split
  · dsimp only
    split
    · split
      · exact h.congr rfl
      · rename_i t _ _
        have h₁ : Quiet s { s' with queue := Lib.dequeue s'.queue (.mutexWait m) t } :=
          ⟨h.parent_eq, h.waitting, h.zombie⟩
        have h₂ := h₁.setReady t
        exact Quiet.dispatch ⟨h₂.parent_eq, h₂.waitting, h₂.zombie⟩
    · exact h.congr rfl
  · exact h

theorem Quiet.semWait (h : Quiet s s') (n : Nat) : Quiet s (s'.semWait n) := by
  unfold Sched.semWait
  split
  · exact h.congr rfl
  · exact h.blockAt _

theorem Quiet.semNotify (h : Quiet s s') (n : Nat) : Quiet s (s'.semNotify n) := by
  unfold Sched.semNotify
  split
  · exact h.congr rfl
  · rename_i t _ _
    have h₁ : Quiet s { s' with queue := Lib.dequeue s'.queue (.semWait n) t } :=
      ⟨h.parent_eq, h.waitting, h.zombie⟩
    exact (h₁.setReady t).dispatch

theorem Quiet.yeild (h : Quiet s s') : Quiet s s'.yeild := by
  unfold Sched.yeild
  split
  · exact ((h.setBlock _).setReady _).dispatch
  · exact h

/-- The events of user code and the interrupts are quiet. -/
theorem quiet_call {e : Event} (hs : schedCall s e = some s')
    (he : (∀ i, e ≠ .fork i) ∧ e ≠ .waitScan ∧ e ≠ .waitBlock ∧ e ≠ .exitReparent ∧
      ∀ m st, e ≠ .exitFinal m st) : Quiet s s' := by
  have hr := Quiet.refl s
  cases e with
  | tick =>
    rw [schedCall, Option.some.injEq] at hs
    exact hs ▸ hr.tick
  | yeild =>
    rw [schedCall, Option.some.injEq] at hs
    exact hs ▸ hr.yeild
  | sleep ms =>
    rw [schedCall, Option.some.injEq] at hs
    exact hs ▸ hr.sleep ms
  | lock m =>
    rw [schedCall, Option.some.injEq] at hs
    exact hs ▸ hr.lock m
  | unlock m =>
    rw [schedCall, Option.some.injEq] at hs
    exact hs ▸ hr.unlock m
  | semWait n =>
    rw [schedCall, Option.some.injEq] at hs
    exact hs ▸ hr.semWait n
  | semNotify n =>
    rw [schedCall, Option.some.injEq] at hs
    exact hs ▸ hr.semNotify n
  | fork i => exact absurd rfl (he.1 i)
  | waitScan => exact absurd rfl he.2.1
  | waitBlock => exact absurd rfl he.2.2.1
  | exitReparent => exact absurd rfl he.2.2.2.1
  | exitFinal m st => exact absurd rfl (he.2.2.2.2 m st)

/-- A task that was woken does not wait. -/
theorem state_wakeParent (s : Sched) (hidle : t ≠ .idle) :
    ((if (s.task t).state = .waitting then s.setReady t else s).task t).state ≠ .waitting := by
  split
  · unfold Sched.setReady
    rw [if_neg hidle]
    show (Function.update s.task t { s.task t with state := .ready } t).state ≠ .waitting
    rw [Function.update_self]
    simp
  · rename_i h
    exact h

/-- `sys_exit` makes its caller a zombie, wakes its parent and leaves the
other tasks as they are. -/
theorem exitFinal_task {moveChild : Bool} {status : Int}
    (hs : s.exitFinal moveChild status = some s') {parent : TaskId}
    (hp : (s.task s.currTask).parent = some parent) (hidle : parent ≠ .idle) :
    (∀ u, (s'.task u).parent = (s.task u).parent) ∧
    (∀ u, (s'.task u).state = .waitting → (s.task u).state = .waitting ∧ u ≠ parent) ∧
    (∀ u, (s'.task u).state = .zombie → u = s.currTask ∨ (s.task u).state = .zombie) := by
  unfold Sched.exitFinal at hs
  rw [hp] at hs
  dsimp only at hs
  rw [Option.some.injEq] at hs
  subst hs
  have h₁ : Quiet s (s.exitWakeFirst moveChild) := by
    unfold Sched.exitWakeFirst
    split
    · exact (Quiet.refl s).setReady _
    · exact Quiet.refl s
  have h₂ : Quiet s (if ((s.exitWakeFirst moveChild).task parent).state = .waitting then
      (s.exitWakeFirst moveChild).setReady parent else s.exitWakeFirst moveChild) := by
    split
    · exact h₁.setReady _
    · exact h₁
  have hw := state_wakeParent (s.exitWakeFirst moveChild) hidle
  set s₂ := (if ((s.exitWakeFirst moveChild).task parent).state = .waitting then
      (s.exitWakeFirst moveChild).setReady parent else s.exitWakeFirst moveChild)
  set s₃ : Sched := { s₂ with
    task := Function.update s₂.task s.currTask
      { s₂.task s.currTask with state := .zombie, status := status } } with hs₃
  have h₃ : Quiet s₃ (s₃.setBlock s.currTask).dispatch := ((Quiet.refl s₃).setBlock _).dispatch
  have hother : ∀ u, u ≠ s.currTask → s₃.task u = s₂.task u :=
    fun u hu => Function.update_of_ne hu _ _
  have hself : s₃.task s.currTask
      = { s₂.task s.currTask with state := .zombie, status := status } := Function.update_self ..
  refine ⟨fun u => ?_, fun u hu => ?_, fun u hu => ?_⟩
  · rw [h₃.parent_eq]
    by_cases hc : u = s.currTask
    · rw [hc, hself]
      exact h₂.parent_eq _
    · rw [hother u hc]
      exact h₂.parent_eq u
  · have hu₃ := h₃.waitting u hu
    by_cases hc : u = s.currTask
    · rw [hc, hself] at hu₃
      exact absurd hu₃ (by simp)
    · rw [hother u hc] at hu₃
      exact ⟨h₂.waitting u hu₃, fun he => hw (he ▸ hu₃)⟩
  · have hu₃ := h₃.zombie u hu
    by_cases hc : u = s.currTask
    · exact Or.inl hc
    · rw [hother u hc] at hu₃
      exact Or.inr (h₂.zombie u hu₃)

theorem isZombieChild_iff (s : Sched) (t : TaskId) (i : Nat) :
    s.isZombieChild t i = true ↔
      (s.task (.slot i)).parent = some t ∧ (s.task (.slot i)).state = .zombie := by
  unfold Sched.isZombieChild
  rw [Bool.and_eq_true, decide_eq_true_eq, decide_eq_true_eq]

/-! ## The invariant -/

/-- No task that waits, or has found nothing and is about to wait, has a
zombie child. -/
structure Answered (s : Sched) (phases : TaskId → Phase) : Prop where
  no_zombie : ∀ p, phases p = .scanned ∨ (s.task p).state = .waitting →
    ∀ i < taskNr, s.isZombieChild p i = false
  idle : (s.task .idle).state ≠ .waitting
  parent : ∀ u, (s.task u).parent ≠ some .idle

variable {phases : TaskId → Phase}

theorem Answered.quiet (h : Answered s phases) (hq : Quiet s s') {phases' : TaskId → Phase}
    (hph : ∀ p, phases' p = .scanned → phases p = .scanned) : Answered s' phases' where
  no_zombie := by
    intro p hp i hi
    have hp' : phases p = .scanned ∨ (s.task p).state = .waitting :=
      hp.imp (hph p) (hq.waitting p)
    have hno := h.no_zombie p hp' i hi
    rw [Bool.eq_false_iff, ne_eq, isZombieChild_iff] at hno ⊢
    intro ⟨hpar, hz⟩
    exact hno ⟨(hq.parent_eq _).symm.trans hpar, hq.zombie _ hz⟩
  idle := fun hw => h.idle (hq.waitting _ hw)
  parent := fun u => by rw [hq.parent_eq]; exact h.parent u

/-- A fork: the child is fresh and its parent is not the idle task. -/
theorem Answered.fork (h : Answered s phases) (hidle : s.currTask ≠ .idle) (i : Nat)
    {phases' : TaskId → Phase} (hph : ∀ p, phases' p = .scanned → phases p = .scanned) :
    Answered (s.fork (.slot i)) phases' := by
  have hq : Quiet { s with task := Function.update s.task (.slot i) (freshTask s.currTask) }
      (s.fork (.slot i)) := (Quiet.refl _).setReady _
  refine Answered.quiet ?_ hq hph
  have hself : Function.update s.task (.slot i) (freshTask s.currTask) (.slot i)
      = freshTask s.currTask := Function.update_self ..
  have hother : ∀ u, u ≠ .slot i →
      Function.update s.task (.slot i) (freshTask s.currTask) u = s.task u :=
    fun u hu => Function.update_of_ne hu _ _
  constructor
  · intro p hp j hj
    have hstate : phases p = .scanned ∨ (s.task p).state = .waitting := by
      refine hp.imp id fun hw => ?_
      by_cases hpi : p = .slot i
      · dsimp only at hw
        rw [hpi, hself] at hw
        exact absurd hw (by simp [freshTask])
      · dsimp only at hw
        rw [hother p hpi] at hw
        exact hw
    have hno := h.no_zombie p hstate j hj
    rw [Bool.eq_false_iff, ne_eq, isZombieChild_iff] at hno ⊢
    dsimp only
    by_cases hji : TaskId.slot j = .slot i
    · rw [hji, hself]
      exact fun hc => absurd hc.2 (by simp [freshTask])
    · rw [hother _ hji]
      exact hno
  · dsimp only
    rw [hother .idle (by simp)]
    exact h.idle
  · intro u
    dsimp only
    by_cases hu : u = .slot i
    · rw [hu, hself]
      simpa [freshTask] using hidle
    · rw [hother u hu]
      exact h.parent u

/-- A scan: the caller reaps a zombie child or learns that it has none. -/
theorem Answered.waitScan (h : Answered s phases) {phases' : TaskId → Phase}
    (hph : ∀ p, phases' p = .scanned → phases p = .scanned ∨
      p = s.currTask ∧ findSlot (s.isZombieChild s.currTask) taskNr 0 = none) :
    Answered s.waitScan phases' := by
  unfold Sched.waitScan
  cases hf : findSlot (s.isZombieChild s.currTask) taskNr 0 with
  | none =>
    dsimp only
    refine ⟨fun p hp i hi => ?_, h.idle, h.parent⟩
    rcases hp with hsc | hw
    · rcases hph p hsc with hsc | ⟨rfl, hnone⟩
      · exact h.no_zombie p (Or.inl hsc) i hi
      · exact findSlot_eq_none.mp hnone i (Nat.zero_le _) (by omega)
    · exact h.no_zombie p (Or.inr hw) i hi
  | some i =>
    dsimp only
    have hself : Function.update s.task (.slot i) Task.zero (.slot i) = Task.zero :=
      Function.update_self ..
    have hother : ∀ u, u ≠ .slot i → Function.update s.task (.slot i) Task.zero u = s.task u :=
      fun u hu => Function.update_of_ne hu _ _
    constructor
    · intro p hp j hj
      have hstate : phases p = .scanned ∨ (s.task p).state = .waitting := by
        rcases hp with hsc | hw
        · rcases hph p hsc with hsc | ⟨-, hnone⟩
          · exact Or.inl hsc
          · rw [hf] at hnone
            exact absurd hnone (by simp)
        · right
          by_cases hpi : p = .slot i
          · dsimp only at hw
            rw [hpi, hself] at hw
            exact absurd hw (by simp [Task.zero])
          · dsimp only at hw
            rw [hother p hpi] at hw
            exact hw
      have hno := h.no_zombie p hstate j hj
      rw [Bool.eq_false_iff, ne_eq, isZombieChild_iff] at hno ⊢
      dsimp only
      by_cases hji : TaskId.slot j = .slot i
      · rw [hji, hself]
        exact fun hc => absurd hc.2 (by simp [Task.zero])
      · rw [hother _ hji]
        exact hno
    · dsimp only
      rw [hother .idle (by simp)]
      exact h.idle
    · intro u
      dsimp only
      by_cases hu : u = .slot i
      · rw [hu, hself]
        simp [Task.zero]
      · rw [hother u hu]
        exact h.parent u

/-- A task that found no zombie child blocks. -/
theorem Answered.waitBlock (h : Answered s phases) (hidle : s.currTask ≠ .idle)
    (hscan : phases s.currTask = .scanned) {phases' : TaskId → Phase}
    (hph : ∀ p, phases' p = .scanned → phases p = .scanned) :
    Answered s.waitBlock phases' := by
  have hq : Quiet ((s.setBlock s.currTask).setState s.currTask .waitting) s.waitBlock :=
    (Quiet.refl _).dispatch
  refine Answered.quiet ?_ hq hph
  have hother : ∀ u, u ≠ s.currTask →
      ((s.setBlock s.currTask).setState s.currTask .waitting).task u = s.task u := by
    intro u hu
    show Function.update (s.setBlock s.currTask).task s.currTask _ u = _
    rw [Function.update_of_ne hu, task_setBlock]
  have hself : ((s.setBlock s.currTask).setState s.currTask .waitting).task s.currTask
      = { s.task s.currTask with state := .waitting } := by
    show Function.update (s.setBlock s.currTask).task s.currTask _ s.currTask = _
    rw [Function.update_self, task_setBlock]
  constructor
  · intro p hp i hi
    have hstate : phases p = .scanned ∨ (s.task p).state = .waitting := by
      by_cases hpc : p = s.currTask
      · exact Or.inl (hpc ▸ hscan)
      · rw [hother p hpc] at hp
        exact hp
    have hno := h.no_zombie p hstate i hi
    rw [Bool.eq_false_iff, ne_eq, isZombieChild_iff] at hno ⊢
    by_cases hc : TaskId.slot i = s.currTask
    · rw [hc, hself]
      exact fun hz => absurd hz.2 (by simp)
    · rw [hother _ hc]
      exact hno
  · rw [hother .idle hidle.symm]
    exact h.idle
  · intro u
    by_cases hc : u = s.currTask
    · rw [hc, hself]
      exact h.parent s.currTask
    · rw [hother u hc]
      exact h.parent u

/-- The children are handed over while `first_task` can take zombies. -/
theorem Answered.exitReparent (h : Answered s phases)
    (hsafe : (∃ i < taskNr, s.isZombieChild s.currTask i = true) →
      (s.task .first).state ≠ .waitting ∧ phases .first ≠ .scanned)
    {phases' : TaskId → Phase} (hph : ∀ p, phases' p = .scanned → phases p = .scanned) :
    Answered s.exitReparent phases' := by
  have hstate : ∀ u, (s.exitReparent.task u).state = (s.task u).state :=
    fun u => state_reparent s s.currTask u
  constructor
  · intro p hp i hi
    rw [hstate] at hp
    have hp' := hp.imp_left (hph p)
    have hno := h.no_zombie p hp' i hi
    rw [Bool.eq_false_iff, ne_eq, isZombieChild_iff] at hno ⊢
    rw [hstate]
    intro ⟨hpar, hz⟩
    by_cases hc : (s.task (.slot i)).parent = some s.currTask
    · -- the child was handed over
      have hfirst : (s.exitReparent.task (.slot i)).parent = some .first := by
        unfold Sched.exitReparent reparent
        dsimp only
        rw [if_pos ⟨hi, hc⟩]
      obtain rfl : TaskId.first = p := Option.some.inj (hfirst.symm.trans hpar)
      obtain ⟨hnw, hns⟩ := hsafe ⟨i, hi, (isZombieChild_iff s _ i).mpr ⟨hc, hz⟩⟩
      rcases hp' with hsc | hw
      · exact hns hsc
      · exact hnw hw
    · have hsame : (s.exitReparent.task (.slot i)).parent = (s.task (.slot i)).parent := by
        unfold Sched.exitReparent reparent
        dsimp only
        rw [if_neg fun hx => hc hx.2]
      exact hno ⟨hsame ▸ hpar, hz⟩
  · rw [hstate]
    exact h.idle
  · intro u
    unfold Sched.exitReparent reparent
    dsimp only
    cases u with
    | slot i =>
      dsimp only
      split
      · simp
      · exact h.parent (.slot i)
    | idle => exact h.parent .idle
    | first => exact h.parent .first

/-- A child exits while its parent is not about to wait. -/
theorem Answered.exitFinal (h : Answered s phases) {moveChild : Bool} {status : Int}
    (hs : s.exitFinal moveChild status = some s')
    (hsafe : ∀ p, (s.task s.currTask).parent = some p → phases p ≠ .scanned)
    {phases' : TaskId → Phase} (hph : ∀ p, phases' p = .scanned → phases p = .scanned) :
    Answered s' phases' := by
  cases hpar : (s.task s.currTask).parent with
  | none =>
    unfold Sched.exitFinal at hs
    rw [hpar] at hs
    exact absurd hs (by simp)
  | some parent =>
    have hidle : parent ≠ .idle := fun he => h.parent s.currTask (he ▸ hpar)
    obtain ⟨hp', hw', hz'⟩ := exitFinal_task hs hpar hidle
    refine ⟨fun p hp i hi => ?_, fun hw => h.idle (hw' _ hw).1, fun u => ?_⟩
    · rw [Bool.eq_false_iff, ne_eq, isZombieChild_iff]
      intro ⟨hpi, hz⟩
      rw [hp'] at hpi
      rcases hz' _ hz with hc | hz
      · -- the new zombie: its parent was woken, and is not about to wait
        rw [hc, hpar, Option.some.injEq] at hpi
        subst hpi
        rcases hp with hsc | hw
        · exact hsafe _ hpar (hph _ hsc)
        · exact (hw' _ hw).2 rfl
      · have hno := h.no_zombie p (hp.imp (hph p) fun hw => (hw' p hw).1) i hi
        rw [(isZombieChild_iff s p i).mpr ⟨hpi, hz⟩] at hno
        exact absurd hno (by simp)
    · rw [hp']
      exact h.parent u

theorem answered_init (counts : Nat → Int) : Answered (schedInit counts) fun _ => .user where
  no_zombie := by
    intro p _ i _
    rw [Bool.eq_false_iff, ne_eq, isZombieChild_iff]
    intro hc
    have hz : TaskState.created = .zombie := hc.2
    exact absurd hz (by simp)
  idle := by
    show TaskState.created ≠ .waitting
    simp
  parent := by
    intro u
    cases u with
    | _ =>
      show none ≠ some TaskId.idle
      simp

end Sched

/-! ## Runs -/

/-- A task comes to stand between scan and block only by a fruitless
scan. -/
theorem Phase.next_eq_scanned {reaped moved : Bool} {ph ph' : Phase} {e : Event}
    (h : Phase.next reaped moved ph e = some ph') (hs : ph' = .scanned) :
    ph = .scanned ∨ e = .waitScan ∧ reaped = false := by
  subst hs
  cases ph with
  | scanned => exact Or.inl rfl
  | user =>
    cases e with
    | waitScan =>
      cases reaped with
      | true => cases h
      | false => exact Or.inr ⟨rfl, rfl⟩
    | _ => cases h
  | rescan =>
    cases e with
    | waitScan =>
      cases reaped with
      | true => cases h
      | false => exact Or.inr ⟨rfl, rfl⟩
    | _ => cases h
  | exiting m =>
    cases e with
    | exitFinal m' status =>
      change (if m' = m then some Phase.user else none) = some .scanned at h
      split at h <;> cases h
    | _ => cases h

theorem Phase.next_waitBlock {reaped moved : Bool} {ph ph' : Phase}
    (h : Phase.next reaped moved ph .waitBlock = some ph') : ph = .scanned := by
  cases ph with
  | scanned => rfl
  | _ => cases h

/-- The tasks that stand between scan and block after an event. -/
theorem phasesAfter_eq_scanned {reaped moved : Bool} {phases : TaskId → Phase} {curr p : TaskId}
    {ph : Phase} {e : Event} (h : Phase.next reaped moved (phases curr) e = some ph)
    (hp : phasesAfter phases curr ph e p = .scanned) :
    phases p = .scanned ∨ p = curr ∧ e = .waitScan ∧ reaped = false := by
  have hupd : Function.update phases curr ph p = .scanned := by
    cases e with
    | fork i =>
      by_cases hpi : p = .slot i
      · rw [hpi, phasesAfter, Function.update_self] at hp
        exact absurd hp (by simp)
      · rw [phasesAfter, Function.update_of_ne hpi] at hp
        exact hp
    | _ => exact hp
  by_cases hc : p = curr
  · subst hc
    rw [Function.update_self] at hupd
    exact (Phase.next_eq_scanned h hupd).imp id fun hx => ⟨rfl, hx⟩
  · rw [Function.update_of_ne hc] at hupd
    exact Or.inl hupd

/-- The kernel state and the phases lose no wake-up. -/
def WaitExitOk (x : Kernel × (TaskId → Phase)) : Prop :=
  ∃ s, Refines x.1 s ∧ Sched.Inv s ∧ Sched.Answered s x.2

theorem waitExitOk_init (counts : Nat → Int) : WaitExitOk (waitExitInit counts) :=
  ⟨_, refines_init counts, Sched.inv_init counts, Sched.answered_init counts⟩

theorem sysWaitScan_isSome {k : Kernel} {s : Sched} (hr : Refines k s) :
    (sysWaitScan k).2.isSome = (findSlot (s.isZombieChild s.currTask) taskNr 0).isSome := by
  unfold sysWaitScan
  rw [hr.isZombieChild_eq, hr.curr_eq]
  cases findSlot (s.isZombieChild s.currTask) taskNr 0 <;> rfl

/-- Every step that is `wakeupSafe` keeps the invariant. -/
theorem waitExitOk_step (x : Kernel × (TaskId → Phase)) (e : Event)
    (y : Kernel × (TaskId → Phase)) (h : WaitExitOk x) (hsafe : wakeupSafe x e)
    (hy : waitExitStep x e = some y) : WaitExitOk y := by
  obtain ⟨s, hr, hs, ha⟩ := h
  unfold waitExitStep at hy
  obtain ⟨ph, hph, hy⟩ := Option.bind_eq_some_iff.mp hy
  obtain ⟨k', hk, rfl⟩ := Option.map_eq_some_iff.mp hy
  obtain ⟨s', hs', hr'⟩ := refines_step hr hs hk
  have hc := Sched.schedCall_of_step hs'
  refine ⟨s', hr', Sched.inv_step s e s' hs hs', ?_⟩
  dsimp only
  -- only a fruitless scan brings a task to stand before its block
  have hscan := fun p => phasesAfter_eq_scanned (p := p) hph
  have hkeep : e ≠ .waitScan → ∀ p,
      phasesAfter x.2 x.1.currTask ph e p = .scanned → x.2 p = .scanned :=
    fun he p hp => (hscan p hp).resolve_right fun hx => he hx.2.1
  cases e with
  | fork i =>
    rw [schedCall] at hc
    split at hc
    · rw [Option.some.injEq] at hc
      exact hc ▸ ha.fork (Sched.currTask_ne_idle hs' rfl) i (hkeep (by simp))
    · exact absurd hc (by simp)
  | waitScan =>
    rw [schedCall, Option.some.injEq] at hc
    refine hc ▸ ha.waitScan fun p hp => (hscan p hp).imp id fun hx => ?_
    have hnone := hx.2.2
    rw [sysWaitScan_isSome hr] at hnone
    exact ⟨hx.1.trans hr.curr_eq, by simpa using hnone⟩
  | waitBlock =>
    rw [schedCall, Option.some.injEq] at hc
    have hsc : x.2 s.currTask = .scanned := hr.curr_eq ▸ Phase.next_waitBlock hph
    exact hc ▸ ha.waitBlock (Sched.currTask_ne_idle hs' rfl) hsc (hkeep (by simp))
  | exitReparent =>
    rw [schedCall, Option.some.injEq] at hc
    unfold wakeupSafe at hsafe
    rw [hr.isZombieChild_eq, hr.task_eq, hr.curr_eq] at hsafe
    exact hc ▸ ha.exitReparent hsafe (hkeep (by simp))
  | exitFinal moveChild status =>
    unfold wakeupSafe at hsafe
    rw [hr.task_eq, hr.curr_eq] at hsafe
    exact ha.exitFinal hc hsafe (hkeep (by simp))
  | _ => exact ha.quiet (Sched.quiet_call hc (by simp)) (hkeep (by simp))

/-- In every run whose steps are `wakeupSafe`, no waiting task outside the
ready list has a zombie child. -/
theorem no_lost_wakeup (counts : Nat → Int) (es : List Event) (x : Kernel × (TaskId → Phase))
    (hsafe : Along waitExitStep wakeupSafe (waitExitInit counts) es)
    (h : run waitExitStep (waitExitInit counts) es = some x) : x.1.NoLostWakeup := by
  obtain ⟨s, hr, -, ha⟩ := run_invariant_along waitExitOk_step (waitExitOk_init counts) hsafe h
  intro p hw _ i hi hp hz
  rw [hr.task_eq] at hw hp hz
  have hno := ha.no_zombie p (Or.inr hw) i hi
  rw [(Sched.isZombieChild_iff s p i).mpr ⟨hp, hz⟩] at hno
  exact absurd hno (by simp)

/-- A wait that its child's exit ends, a child and then a zombie handed to the
first task, and a second wait that an exit ends. -/
def waitExitRun : List Event :=
  [.fork 0, .waitScan, .waitBlock,
    -- the child leaves a child of its own and wakes the first task
    .fork 1, .exitReparent, .exitFinal false 7,
    .fork 2, .yeild,
    .waitScan, .yeild,
    -- a zombie is handed over while the first task does not wait
    .exitReparent, .exitFinal false 5, .exitReparent, .exitFinal true 3,
    .waitScan, .waitScan,
    .fork 0, .waitScan, .waitBlock, .exitReparent, .exitFinal false 1]

theorem waitExitRun_end :
    (run waitExitStep (waitExitInit fun _ => 0) waitExitRun).map (fun x =>
        ((x.1.task .first).state, (x.1.task (.slot 0)).parent, (x.1.task (.slot 0)).state))
      = some (.running, some .first, .zombie) := by
  decide +kernel

/-- The rule at this run: at its end the child is a zombie, and the first task
has been woken. -/
theorem no_lost_wakeup_wait_exit :
    ∃ x, run waitExitStep (waitExitInit fun _ => 0) waitExitRun = some x ∧ x.1.NoLostWakeup ∧
      (x.1.task (.slot 0)).parent = some .first ∧ (x.1.task (.slot 0)).state = .zombie ∧
      (x.1.task .first).state = .running := by
  obtain ⟨x, hx, he⟩ := Option.map_eq_some_iff.mp waitExitRun_end
  simp only [Prod.mk.injEq] at he
  obtain ⟨hstate, hparent, hzombie⟩ := he
  have hsafe : Along waitExitStep wakeupSafe (waitExitInit fun _ => 0) waitExitRun := by
    decide +kernel
  exact ⟨x, hx, no_lost_wakeup (fun _ => 0) waitExitRun x hsafe hx, hparent, hzombie, hstate⟩

/-- The first task forks, scans in vain and is preempted; its child runs and
exits; then the first task blocks. -/
def lostWakeupRun : List Event :=
  [.fork 0, .waitScan] ++ List.replicate 10 .tick ++
    [.exitReparent, .exitFinal false 0, .waitBlock]

/-- The phases only forbid events: the kernel still represents an abstract
state. -/
theorem refines_waitExit {counts : Nat → Int} {es : List Event} {x : Kernel × (TaskId → Phase)}
    (h : run waitExitStep (waitExitInit counts) es = some x) :
    ∃ s, Refines x.1 s ∧ Sched.Inv s := by
  have hstep : ∀ (x : Kernel × (TaskId → Phase)) (e : Event) (y : Kernel × (TaskId → Phase)),
      (∃ s, Refines x.1 s ∧ Sched.Inv s) → waitExitStep x e = some y →
        ∃ s, Refines y.1 s ∧ Sched.Inv s := by
    intro x e y ⟨s, hr, hs⟩ hy
    obtain ⟨ph, -, hy⟩ := Option.bind_eq_some_iff.mp hy
    obtain ⟨k', hk, rfl⟩ := Option.map_eq_some_iff.mp hy
    obtain ⟨s', hs', hr'⟩ := refines_step hr hs hk
    exact ⟨s', hr', Sched.inv_step s e s' hs hs'⟩
  exact run_invariant hstep ⟨_, refines_init counts, Sched.inv_init counts⟩ h

theorem lostWakeupRun_end :
    (run waitExitStep (waitExitInit fun _ => 0) lostWakeupRun).map (fun x =>
        ((x.1.task .first).state, (x.1.task (.slot 0)).parent, (x.1.task (.slot 0)).state))
      = some (.waitting, some .first, .zombie) := by
  decide +kernel

/-- The child's exit is not noticed and the parent waits for ever. -/
theorem lostWakeupRun_loses :
    ∃ x, run waitExitStep (waitExitInit fun _ => 0) lostWakeupRun = some x ∧
      ¬ x.1.NoLostWakeup := by
  obtain ⟨x, hx, he⟩ := Option.map_eq_some_iff.mp lostWakeupRun_end
  simp only [Prod.mk.injEq] at he
  obtain ⟨hw, hp, hz⟩ := he
  obtain ⟨s, hr, hs⟩ := refines_waitExit hx
  refine ⟨x, hx, fun h => h .first hw ?_ 0 (by decide) hp hz⟩
  rw [hr.queued_iff]
  rw [hr.task_eq] at hw
  exact hs.notMem (by rw [hw]; rfl) .ready

end Wjos
