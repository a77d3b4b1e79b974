/-
Wjos.Core.RoundRobin — no ready task starves.

`Behind s t n` says that `t` stands in the ready queue and that the tasks before
it have at most `n` ticks left in their time slices. Whatever the other tasks
do, they join the queue at its end only, so every event keeps it (`behind_step`)
and a tick takes one off (`Behind.tick`): the slice that it charges is that of
the first task in the queue. So `t` runs after `n` ticks at the latest
(`behind_run`).

`Sliced s` bounds `n`: no slice is longer than `TASK_TIME_SLICE_DEFAULT`, and no
queue holds more tasks than there are.
-/
import Mathlib.Algebra.BigOperators.Group.List.Basic
import Wjos.Core.Sleepers

namespace Wjos

open Lib

namespace Sched

/-- The ticks that are left in the slices of the tasks in `l`. -/
def ticksLeft (s : Sched) (l : List TaskId) : Int := (l.map fun u => (s.task u).sliceTicks).sum

/-- `t` is ready, and the tasks before it have at most `n` ticks left. -/
def Behind (s : Sched) (t : TaskId) (n : Int) : Prop :=
  ∃ pre post, s.queue .ready = pre ++ t :: post ∧
    (∀ u ∈ pre, 1 ≤ (s.task u).sliceTicks) ∧ s.ticksLeft pre ≤ n

variable {s s' : Sched} {t u : TaskId} {n : Int}

@[simp] theorem ticksLeft_cons (s : Sched) (c : TaskId) (l : List TaskId) :
    s.ticksLeft (c :: l) = (s.task c).sliceTicks + s.ticksLeft l := by simp [ticksLeft]

theorem ticksLeft_congr {l : List TaskId}
    (ht : ∀ u ∈ l, (s'.task u).sliceTicks = (s.task u).sliceTicks) :
    s'.ticksLeft l = s.ticksLeft l :=
  congrArg List.sum (List.map_congr_left ht)

theorem ticksLeft_setTask {l : List TaskId} (hu : u ∉ l) (x : Task) :
    ticksLeft { s with task := Function.update s.task u x } l = s.ticksLeft l := by
  refine ticksLeft_congr fun v hv => ?_
  have hne : v ≠ u := fun hc => hu (hc ▸ hv)
  simp [hne]

/-- Each of them has a tick left. -/
theorem length_le_ticksLeft {l : List TaskId} (hpos : ∀ u ∈ l, 1 ≤ (s.task u).sliceTicks) :
    (l.length : Int) ≤ s.ticksLeft l := by
  induction l with
  | nil => simp [ticksLeft]
  | cons c l ih =>
    have hfirst := hpos c (by simp)
    have hrest := ih fun u hu => hpos u (List.mem_cons_of_mem _ hu)
    rw [ticksLeft_cons, List.length_cons]
    push_cast
    omega

/-! ## The operations -/

/-- Only the ready queue and the slices of its members count. -/
theorem Behind.congr (h : Behind s t n) (hq : s'.queue .ready = s.queue .ready)
    (ht : ∀ u ∈ s.queue .ready, (s'.task u).sliceTicks = (s.task u).sliceTicks) :
    Behind s' t n := by
  obtain ⟨pre, post, hsplit, hpos, hsum⟩ := h
  have hpre : ∀ u ∈ pre, (s'.task u).sliceTicks = (s.task u).sliceTicks := fun u hu =>
    ht u (by rw [hsplit]; exact List.mem_append_left _ hu)
  refine ⟨pre, post, hq.trans hsplit, fun u hu => ?_, ?_⟩
  · rw [hpre u hu]
    exact hpos u hu
  · rwa [ticksLeft_congr hpre]

theorem Behind.setTask (h : Behind s t n) {x : Task}
    (hx : u ∈ s.queue .ready → x.sliceTicks = (s.task u).sliceTicks) :
    Behind { s with task := Function.update s.task u x } t n := by
  refine h.congr rfl fun v hv => ?_
  by_cases hvu : v = u
  · subst hvu
    simp [hx hv]
  · simp [hvu]

theorem Behind.setState (h : Behind s t n) (u : TaskId) (st : TaskState) :
    Behind (s.setState u st) t n := h.setTask fun _ => rfl

theorem Behind.enqueue (h : Behind s t n) (p : Place) (u : TaskId) :
    Behind { s with queue := enqueue s.queue p u } t n := by
  by_cases hp : p = .ready
  · subst hp
    obtain ⟨pre, post, hsplit, hpos, hsum⟩ := h
    refine ⟨pre, post ++ [u], ?_, hpos, hsum⟩
    show Lib.enqueue s.queue .ready u .ready = _
    rw [enqueue_self, hsplit]
    simp
  · exact h.congr (enqueue_of_ne _ _ (Ne.symm hp)) fun _ _ => rfl

/-- Another task leaves a queue. -/
theorem Behind.dequeue (h : Behind s t n) {p : Place} (hp : p = .ready → t ≠ u) :
    Behind { s with queue := dequeue s.queue p u } t n := by
  by_cases hready : p = .ready
  · subst hready
    obtain ⟨pre, post, hsplit, hpos, hsum⟩ := h
    by_cases hu : u ∈ pre
    · refine ⟨pre.erase u, post, ?_, fun v hv => hpos v (List.mem_of_mem_erase hv), ?_⟩
      · show Lib.dequeue s.queue .ready u .ready = _
        rw [dequeue_self, hsplit, List.erase_append_left _ hu]
      · have hone := hpos u hu
        have hrest : (s.task u).sliceTicks + s.ticksLeft (pre.erase u) = s.ticksLeft pre :=
          List.sum_map_erase (fun u => (s.task u).sliceTicks) hu
        show s.ticksLeft (pre.erase u) ≤ n
        omega
    · refine ⟨pre, post.erase u, ?_, hpos, hsum⟩
      show Lib.dequeue s.queue .ready u .ready = _
      rw [dequeue_self, hsplit, List.erase_append_right _ hu,
        List.erase_cons_tail (by simpa using hp rfl)]
  · exact h.congr (dequeue_of_ne _ _ (Ne.symm hready)) fun _ _ => rfl

theorem Behind.setReady (h : Behind s t n) (u : TaskId) : Behind (s.setReady u) t n := by
  unfold Sched.setReady
  split
  · exact h
  · exact (h.enqueue .ready u).setState u .ready

theorem Behind.setBlock (h : Behind s t n) (hu : t ≠ u) : Behind (s.setBlock u) t n := by
  unfold Sched.setBlock
  split
  · exact h
  · exact h.dequeue fun _ => hu

theorem Behind.dispatch (h : Behind s t n) : Behind s.dispatch t n := by
  unfold Sched.dispatch
  split
  · exact (h.setState s.nextRun .running).congr rfl fun _ _ => rfl
  · exact h

theorem Behind.blockAt (h : Behind s t n) (hne : t ≠ s.currTask) (p : Place) :
    Behind (s.blockAt p) t n := ((h.setBlock hne).enqueue p _).dispatch

theorem Behind.sleep (h : Behind s t n) (hne : t ≠ s.currTask) (ms : UInt32) :
    Behind (s.sleep ms) t n := by
  have hblock := h.setBlock hne
  unfold Sched.sleep Sched.setSleep
  split
  · exact hblock.dispatch
  · have hset : Behind { s.setBlock s.currTask with
        task := Function.update (s.setBlock s.currTask).task s.currTask
          { (s.setBlock s.currTask).task s.currTask with
            sleepTicks := (sleepTicksOf ms).toNat, state := .sleep } } t n :=
      hblock.setTask fun _ => rfl
    exact (hset.enqueue .sleep s.currTask).dispatch

theorem Behind.lock (h : Behind s t n) (hne : t ≠ s.currTask) (m : Nat) :
    Behind (s.lock m) t n := by
  unfold Sched.lock
  split
  · exact h
  · split
    · exact h
    · exact h.blockAt hne _

theorem Behind.unlock (h : Behind s t n) (m : Nat) : Behind (s.unlock m) t n := by
  unfold Sched.unlock
  split
  · dsimp only
    split
    · split
      · exact h
      · rename_i u l _
        have hwoken := (h.dequeue (p := .mutexWait m) (u := u) (by simp)).setReady u
        exact Behind.dispatch (hwoken.congr rfl fun _ _ => rfl)
    · exact h
  · exact h

theorem Behind.semWait (h : Behind s t n) (hne : t ≠ s.currTask) (i : Nat) :
    Behind (s.semWait i) t n := by
  unfold Sched.semWait
  split
  · exact h
  · exact h.blockAt hne _

theorem Behind.semNotify (h : Behind s t n) (i : Nat) : Behind (s.semNotify i) t n := by
  unfold Sched.semNotify
  split
  · exact h
  · exact ((h.dequeue (by simp)).setReady _).dispatch

theorem Behind.waitScan (h : Behind s t n) (hs : Inv s) : Behind s.waitScan t n := by
  unfold Sched.waitScan
  split
  · exact h
  · rename_i i hf
    have hz := (findSlot_eq_some hf).1
    simp only [isZombieChild, Bool.and_eq_true, decide_eq_true_eq] at hz
    have hdead : (s.task (.slot i)).state.isLive = false := by
      rw [hz.2]
      rfl
    exact h.setTask fun hc => absurd hc (hs.notMem hdead _)

theorem sliceTicks_reparent (s : Sched) (t u : TaskId) :
    (s.reparent t u).sliceTicks = (s.task u).sliceTicks := by
  unfold Sched.reparent
  split
  · split <;> rfl
  · rfl

theorem Behind.exitFinal (h : Behind s t n) (hne : t ≠ s.currTask) {moveChild : Bool}
    {status : Int} (he : s.exitFinal moveChild status = some s') : Behind s' t n := by
  unfold Sched.exitFinal at he
  split at he
  · exact absurd he (by simp)
  · rename_i parent _
    rw [Option.some.injEq] at he
    subst he
    have h₁ : Behind (s.exitWakeFirst moveChild) t n := by
      unfold Sched.exitWakeFirst
      split
      · exact h.setReady .first
      · exact h
    have h₂ : Behind (if ((s.exitWakeFirst moveChild).task parent).state = .waitting then
        (s.exitWakeFirst moveChild).setReady parent else s.exitWakeFirst moveChild) t n := by
      split
      · exact h₁.setReady parent
      · exact h₁
    refine Behind.dispatch (Behind.setBlock ?_ hne)
    exact h₂.setTask fun _ => rfl

/-! ## The clock tick -/

/-- The current task is the first in the queue, and loses a tick or its place. -/
theorem Behind.tickSlice (h : Behind s t n) (hs : Inv s) (hne : t ≠ s.currTask) :
    Behind s.tickSlice t (n - 1) := by
  obtain ⟨pre, post, hsplit, hpos, hsum⟩ := h
  have hcurr := hs.curr_eq
  unfold nextRun at hcurr
  rw [hsplit] at hcurr
  cases pre with
  | nil => exact absurd (by simpa using hcurr.symm) hne
  | cons c pre =>
    obtain rfl : s.currTask = c := by simpa using hcurr
    have hnodup := hs.placed.nodup .ready
    rw [hsplit, List.cons_append, List.nodup_cons] at hnodup
    have hout : s.currTask ∉ pre := fun hc => hnodup.1 (List.mem_append_left _ hc)
    have hfirst := hpos s.currTask (by simp)
    have hidle : s.currTask ≠ .idle := fun hc =>
      hs.no_idle .ready (by rw [hsplit, hc]; simp)
    have hother : ∀ u ∈ pre, u ≠ s.currTask := fun u hu hc => hout (hc ▸ hu)
    rw [ticksLeft_cons] at hsum
    unfold Sched.tickSlice
    dsimp only
    split
    · -- its slice is over: it goes to the end of the queue
      refine Behind.setReady ⟨pre, post, ?_, fun u hu => ?_, ?_⟩ _
      · rw [queue_setBlock _ hidle]
        simp [hsplit]
      · simpa [hother u hu] using hpos u (List.mem_cons_of_mem _ hu)
      · have hsame : ticksLeft (Sched.setBlock { s with
            task := Function.update s.task s.currTask { s.task s.currTask with
              sliceTicks := (s.task s.currTask).timeTicks } } s.currTask) pre = s.ticksLeft pre :=
          ticksLeft_congr fun u hu => by simp [hother u hu]
        rw [hsame]
        omega
    · refine ⟨s.currTask :: pre, post, hsplit, fun u hu => ?_, ?_⟩
      · by_cases huc : u = s.currTask
        · subst huc
          have hmore : 1 ≤ (s.task s.currTask).sliceTicks - 1 := by omega
          simpa using hmore
        · simpa [huc] using hpos u hu
      · rw [ticksLeft_cons, ticksLeft_setTask hout]
        simp only [Function.update_self]
        omega

theorem Behind.tickSleeper (h : Behind s t n) (u : TaskId) : Behind (s.tickSleeper u) t n := by
  have h₁ := h.setTask (u := u) (x := { s.task u with sleepTicks := (s.task u).sleepTicks - 1 })
    fun _ => rfl
  unfold Sched.tickSleeper
  dsimp only
  split
  · exact (h₁.dequeue (p := .sleep) (by simp)).setReady u
  · exact h₁

theorem Behind.tickSleepers (h : Behind s t n) (l : List TaskId) :
    Behind (l.foldl Sched.tickSleeper s) t n := by
  induction l generalizing s with
  | nil => exact h
  | cons u l ih => exact ih (h.tickSleeper u)

theorem Behind.tick (h : Behind s t n) (hs : Inv s) (hne : t ≠ s.currTask) :
    Behind s.tick t (n - 1) :=
  ((h.tickSlice hs hne).tickSleepers _).dispatch

/-! ## Steps and runs -/

theorem behind_step {e : Event} (h : Behind s t n) (hs : Inv s) (hne : t ≠ s.currTask)
    (he : schedStep s e = some s') (htick : e ≠ .tick) : Behind s' t n := by
  have hc := schedCall_of_step he
  cases e with
  | tick => exact absurd rfl htick
  | semNotify i =>
    rw [schedCall, Option.some.injEq] at hc
    exact hc ▸ h.semNotify i
  | yeild =>
    rw [schedCall, Option.some.injEq] at hc
    subst hc
    unfold Sched.yeild
    split
    · exact ((h.setBlock hne).setReady _).dispatch
    · exact h
  | sleep ms =>
    rw [schedCall, Option.some.injEq] at hc
    exact hc ▸ h.sleep hne ms
  | lock m =>
    rw [schedCall, Option.some.injEq] at hc
    exact hc ▸ h.lock hne m
  | unlock m =>
    rw [schedCall, Option.some.injEq] at hc
    exact hc ▸ h.unlock m
  | semWait i =>
    rw [schedCall, Option.some.injEq] at hc
    exact hc ▸ h.semWait hne i
  | fork i =>
    rw [schedCall] at hc
    split at hc
    · rename_i hi
      rw [Option.some.injEq] at hc
      have hdead : (s.task (.slot i)).state.isLive = false := by
        rw [hi.2]
        rfl
      exact hc ▸ (h.setTask fun hm => absurd hm (hs.notMem hdead _)).setReady _
    · exact absurd hc (by simp)
  | waitScan =>
    rw [schedCall, Option.some.injEq] at hc
    exact hc ▸ h.waitScan hs
  | waitBlock =>
    rw [schedCall, Option.some.injEq] at hc
    exact hc ▸ ((h.setBlock hne).setState _ _).dispatch
  | exitReparent =>
    rw [schedCall, Option.some.injEq] at hc
    exact hc ▸ h.congr rfl fun u _ => sliceTicks_reparent s s.currTask u
  | exitFinal moveChild status => exact h.exitFinal hne hc

/-- With nothing left before it, a ready task is the current one. -/
theorem Behind.curr (h : Behind s t n) (hs : Inv s) (hn : n ≤ 0) : s.currTask = t := by
  obtain ⟨pre, post, hsplit, hpos, hsum⟩ := h
  have hlen := length_le_ticksLeft hpos
  have hnone : pre = [] := List.length_eq_zero_iff.mp (by omega)
  rw [hs.curr_eq, nextRun, hsplit, hnone]
  rfl

/-- `n` ticks later at the latest it is its turn. -/
theorem behind_run {es : List Event} (h : Behind s t n) (hs : Inv s)
    (hrun : run schedStep s es = some s') (hn : n ≤ es.count .tick) :
    ∃ fs s₁, fs <+: es ∧ run schedStep s fs = some s₁ ∧ s₁.currTask = t := by
  induction es generalizing s n with
  | nil => exact ⟨[], s, List.prefix_rfl, rfl, h.curr hs (by simpa using hn)⟩
  | cons e es ih =>
    by_cases hcurr : s.currTask = t
    · exact ⟨[], s, by simp, rfl, hcurr⟩
    · obtain ⟨s₁, he, hrun⟩ := run_cons_eq_some.mp hrun
      have hne : t ≠ s.currTask := fun hc => hcurr hc.symm
      have hs₁ := inv_step s e s₁ hs he
      have hrest : ∃ m : Int, Behind s₁ t m ∧ m ≤ es.count .tick := by
        rw [List.count_cons] at hn
        by_cases htick : e = .tick
        · subst htick
          have hc := schedCall_of_step he
          rw [schedCall, Option.some.injEq] at hc
          refine ⟨n - 1, hc ▸ h.tick hs hne, ?_⟩
          simp only [beq_self_eq_true, if_true] at hn
          omega
        · refine ⟨n, behind_step h hs hne he htick, ?_⟩
          simpa [htick] using hn
      obtain ⟨m, hbehind, hm⟩ := hrest
      obtain ⟨fs, s₂, hfs, hrun₂, hcurr₂⟩ := ih hbehind hs₁ hrun hm
      exact ⟨e :: fs, s₂, by simpa using hfs, run_cons_eq_some.mpr ⟨s₁, he, hrun₂⟩, hcurr₂⟩

/-! ## The slices -/

/-- A task of the table, or `first_task`. -/
def InTable : TaskId → Prop
  | .slot i => i < taskNr
  | _ => True

/-- The slice of a task that has been initialised. -/
structure SliceOk (t : TaskId) (x : Task) : Prop where
  table : InTable t
  pos : 1 ≤ x.sliceTicks
  le : x.sliceTicks ≤ taskTimeSliceDefault
  full : x.timeTicks = taskTimeSliceDefault

/-- Every task but the idle task has its slice, once it is initialised, and
those that are queued are. -/
structure Sliced (s : Sched) : Prop where
  slice : ∀ t, t ≠ .idle → (s.task t).state ≠ .created → SliceOk t (s.task t)
  queued : ∀ p, ∀ t ∈ s.queue p, (s.task t).state ≠ .created

theorem Sliced.setTask (h : Sliced s) {x : Task}
    (hx : u ≠ .idle → x.state ≠ .created → SliceOk u x)
    (hq : x.state = .created → ∀ p, u ∉ s.queue p) :
    Sliced { s with task := Function.update s.task u x } := by
  refine ⟨fun v hidle => ?_, fun p v hv => ?_⟩
  · show (Function.update s.task u x v).state ≠ .created → SliceOk v (Function.update s.task u x v)
    by_cases hvu : v = u
    · subst hvu
      rw [Function.update_self]
      exact hx hidle
    · rw [Function.update_of_ne hvu]
      exact h.slice v hidle
  · show (Function.update s.task u x v).state ≠ .created
    by_cases hvu : v = u
    · subst hvu
      rw [Function.update_self]
      exact fun hc => hq hc p hv
    · rw [Function.update_of_ne hvu]
      exact h.queued p v hv

/-- A store to an initialised task that is not about slices. -/
theorem Sliced.edit (h : Sliced s) {x : Task} (hslice : x.sliceTicks = (s.task u).sliceTicks)
    (htime : x.timeTicks = (s.task u).timeTicks) (hx : x.state ≠ .created)
    (hu : u ≠ .idle → (s.task u).state ≠ .created) :
    Sliced { s with task := Function.update s.task u x } := by
  refine h.setTask (fun hidle _ => ?_) fun hc => absurd hc hx
  obtain ⟨htable, hpos, hle, hfull⟩ := h.slice u hidle (hu hidle)
  exact ⟨htable, hslice ▸ hpos, hslice ▸ hle, htime ▸ hfull⟩

/-- An initialised task is queued. -/
theorem Sliced.enqueue (h : Sliced s) (p : Place) (hu : (s.task u).state ≠ .created) :
    Sliced { s with queue := enqueue s.queue p u } := by
  refine ⟨h.slice, fun r v hv => ?_⟩
  rcases mem_enqueue.mp hv with hv | ⟨-, rfl⟩
  · exact h.queued r v hv
  · exact hu

theorem Sliced.dequeue (h : Sliced s) (p : Place) (u : TaskId) :
    Sliced { s with queue := dequeue s.queue p u } := by
  refine ⟨h.slice, fun r v hv => h.queued r v ?_⟩
  have hleft : v ∈ Lib.dequeue s.queue p u r := hv
  by_cases hr : r = p
  · subst hr
    rw [dequeue_self] at hleft
    exact List.mem_of_mem_erase hleft
  · rwa [dequeue_of_ne _ _ hr] at hleft

theorem Sliced.setReady (h : Sliced s) (hu : u ≠ .idle → (s.task u).state ≠ .created) :
    Sliced (s.setReady u) := by
  unfold Sched.setReady
  split
  · exact h
  · rename_i hidle
    exact (h.enqueue .ready (hu hidle)).edit rfl rfl (by simp) hu

theorem Sliced.setBlock (h : Sliced s) (u : TaskId) : Sliced (s.setBlock u) := by
  unfold Sched.setBlock
  split
  · exact h
  · exact h.dequeue .ready u

theorem Sliced.dispatch (h : Sliced s) : Sliced s.dispatch := by
  unfold Sched.dispatch
  split
  · have hset : Sliced (s.setState s.nextRun .running) :=
      h.edit rfl rfl (by simp) fun hidle => h.queued .ready _ (nextRun_mem hidle)
    exact ⟨hset.slice, hset.queued⟩
  · exact h

/-- A waiter that is woken. -/
theorem Sliced.wake (h : Sliced s) {p : Place} (hu : u ∈ s.queue p) :
    Sliced ({ s with queue := Lib.dequeue s.queue p u }.setReady u) :=
  (h.dequeue p u).setReady fun _ => h.queued p u hu

/-- The current task is initialised. -/
theorem Sliced.curr (h : Sliced s) (hs : Inv s) (hidle : s.currTask ≠ .idle) :
    (s.task s.currTask).state ≠ .created := h.queued _ _ (hs.curr_mem hidle)

theorem Sliced.blockAt (h : Sliced s) (hs : Inv s) (hidle : s.currTask ≠ .idle) (p : Place) :
    Sliced (s.blockAt p) := by
  refine ((h.setBlock s.currTask).enqueue p ?_).dispatch
  rw [task_setBlock]
  exact h.curr hs hidle

theorem Sliced.yeild (h : Sliced s) (hs : Inv s) : Sliced s.yeild := by
  unfold Sched.yeild
  split
  · refine ((h.setBlock _).setReady fun hidle => ?_).dispatch
    rw [task_setBlock]
    exact h.curr hs hidle
  · exact h

theorem Sliced.sleep (h : Sliced s) (hs : Inv s) (ms : UInt32) : Sliced (s.sleep ms) := by
  have hblock := h.setBlock s.currTask
  unfold Sched.sleep Sched.setSleep
  split
  · exact hblock.dispatch
  · have hset : Sliced { s.setBlock s.currTask with
        task := Function.update (s.setBlock s.currTask).task s.currTask
          { (s.setBlock s.currTask).task s.currTask with
            sleepTicks := (sleepTicksOf ms).toNat, state := .sleep } } := by
      refine hblock.edit rfl rfl (by simp) fun hidle => ?_
      rw [task_setBlock]
      exact h.curr hs hidle
    exact (hset.enqueue .sleep (by simp)).dispatch

theorem Sliced.lock (h : Sliced s) (hs : Inv s) (hidle : s.currTask ≠ .idle) (m : Nat) :
    Sliced (s.lock m) := by
  unfold Sched.lock
  split
  · exact ⟨h.slice, h.queued⟩
  · split
    · exact ⟨h.slice, h.queued⟩
    · exact h.blockAt hs hidle _

theorem Sliced.unlock (h : Sliced s) (m : Nat) : Sliced (s.unlock m) := by
  unfold Sched.unlock
  split
  · dsimp only
    split
    · split
      · exact ⟨h.slice, h.queued⟩
      · rename_i u l hq
        have hwoken := h.wake (p := .mutexWait m) (u := u) (by simp [hq])
        exact Sliced.dispatch ⟨hwoken.slice, hwoken.queued⟩
    · exact ⟨h.slice, h.queued⟩
  · exact h

theorem Sliced.semWait (h : Sliced s) (hs : Inv s) (hidle : s.currTask ≠ .idle) (i : Nat) :
    Sliced (s.semWait i) := by
  unfold Sched.semWait
  split
  · exact ⟨h.slice, h.queued⟩
  · exact h.blockAt hs hidle _

theorem Sliced.semNotify (h : Sliced s) (i : Nat) : Sliced (s.semNotify i) := by
  unfold Sched.semNotify
  split
  · exact ⟨h.slice, h.queued⟩
  · rename_i u l hq
    exact (h.wake (p := .semWait i) (u := u) (by simp [hq])).dispatch

/-- A slot that no task has gets one. -/
theorem Sliced.fork (h : Sliced s) (hs : Inv s) {i : Nat} (hi : i < taskNr)
    (hfree : (s.task (.slot i)).state = .created) : Sliced (s.fork (.slot i)) := by
  have hout : ∀ p, TaskId.slot i ∉ s.queue p := hs.notMem (by rw [hfree]; rfl)
  have hfresh : Sliced { s with
      task := Function.update s.task (.slot i) (freshTask s.currTask) } :=
    h.setTask (fun _ hc => absurd rfl hc) fun _ => hout
  have hset := hfresh.setTask (u := .slot i)
    (x := { freshTask s.currTask with state := .ready })
    (fun _ _ => ⟨hi, show (1 : Int) ≤ taskTimeSliceDefault by decide, le_rfl, rfl⟩) (by simp)
  have hready := hset.enqueue .ready (u := .slot i) (by simp)
  unfold Sched.fork Sched.setReady
  rw [if_neg (by simp)]
  refine ⟨?_, ?_⟩
  · simpa [setState] using hready.slice
  · simpa [setState] using hready.queued

theorem Sliced.waitScan (h : Sliced s) (hs : Inv s) : Sliced s.waitScan := by
  unfold Sched.waitScan
  split
  · exact h
  · rename_i i hf
    have hz := (findSlot_eq_some hf).1
    simp only [isZombieChild, Bool.and_eq_true, decide_eq_true_eq] at hz
    have hout : ∀ p, TaskId.slot i ∉ s.queue p := hs.notMem (by rw [hz.2]; rfl)
    exact h.setTask (fun _ hc => absurd rfl hc) fun _ => hout

theorem Sliced.waitBlock (h : Sliced s) (hs : Inv s) : Sliced s.waitBlock := by
  refine Sliced.dispatch ?_
  refine (h.setBlock s.currTask).edit rfl rfl (by simp) fun hidle => ?_
  rw [task_setBlock]
  exact h.curr hs hidle

theorem Sliced.exitReparent (h : Sliced s) : Sliced s.exitReparent := by
  have htime : ∀ t, (s.reparent s.currTask t).timeTicks = (s.task t).timeTicks := by
    intro t
    unfold Sched.reparent
    split
    · split <;> rfl
    · rfl
  refine ⟨fun t hidle hstate => ?_, fun p t ht => ?_⟩
  · rw [Sched.exitReparent, state_reparent] at hstate
    obtain ⟨htable, hpos, hle, hfull⟩ := h.slice t hidle hstate
    have hslice := sliceTicks_reparent s s.currTask t
    exact ⟨htable, hslice.symm ▸ hpos, hslice.symm ▸ hle, (htime t).trans hfull⟩
  · rw [Sched.exitReparent, state_reparent]
    exact h.queued p t ht

theorem Sliced.exitFinal (h : Sliced s) (hs : Inv s) {moveChild : Bool} {status : Int}
    (he : s.exitFinal moveChild status = some s') : Sliced s' := by
  unfold Sched.exitFinal at he
  split at he
  · exact absurd he (by simp)
  · rename_i parent _
    rw [Option.some.injEq] at he
    subst he
    have h₁ : Sliced (s.exitWakeFirst moveChild) := by
      unfold Sched.exitWakeFirst
      split
      · rename_i hc
        exact h.setReady fun _ => by simp [hc.2.2]
      · exact h
    have h₂ : Sliced (if ((s.exitWakeFirst moveChild).task parent).state = .waitting then
        (s.exitWakeFirst moveChild).setReady parent else s.exitWakeFirst moveChild) := by
      split
      · rename_i hc
        exact h₁.setReady fun _ => by simp [hc]
      · exact h₁
    refine Sliced.dispatch (Sliced.setBlock ?_ _)
    refine h₂.edit rfl rfl (by simp) fun hidle => ?_
    exact h₂.queued .ready _ (mem_exitWake (hs.curr_mem hidle) moveChild parent)

theorem Sliced.tickSlice (h : Sliced s) (hs : Inv s) : Sliced s.tickSlice := by
  have hcurr := h.curr hs
  have hnext : ∀ {x : Int}, (s.currTask ≠ .idle → 1 ≤ x ∧ x ≤ taskTimeSliceDefault) →
      Sliced { s with task :=
        Function.update s.task s.currTask { s.task s.currTask with sliceTicks := x } } := by
    intro x hx
    refine h.setTask (fun hidle hstate => ?_) fun hc p hp => ?_
    · obtain ⟨htable, -, -, hfull⟩ := h.slice _ hidle hstate
      exact ⟨htable, (hx hidle).1, (hx hidle).2, hfull⟩
    · have hidle : s.currTask ≠ .idle := fun hc => hs.no_idle p (hc ▸ hp)
      exact hcurr hidle hc
  unfold Sched.tickSlice
  dsimp only
  split
  · refine Sliced.setReady (Sliced.setBlock (hnext fun hidle => ?_) _) fun hidle => ?_
    · rw [(h.slice _ hidle (hcurr hidle)).full]
      exact ⟨by decide, le_rfl⟩
    · rw [task_setBlock]
      simpa using hcurr hidle
  · refine hnext fun hidle => ?_
    obtain ⟨-, hpos, hle, -⟩ := h.slice _ hidle (hcurr hidle)
    omega

theorem Sliced.tickSleeper (h : Sliced s) (hu : u ∈ s.queue .sleep) : Sliced (s.tickSleeper u) := by
  have hset : Sliced { s with
      task := Function.update s.task u
        { s.task u with sleepTicks := (s.task u).sleepTicks - 1 } } :=
    h.edit rfl rfl (h.queued _ _ hu) fun _ => h.queued _ _ hu
  unfold Sched.tickSleeper
  dsimp only
  split
  · exact hset.wake hu
  · exact hset

theorem Sliced.tickSleepers {l : List TaskId} (h : Sliced s) (hs : Sound s) (hl : l.Nodup)
    (hm : ∀ u ∈ l, u ∈ s.queue .sleep) : Sliced (l.foldl Sched.tickSleeper s) := by
  induction l generalizing s with
  | nil => exact h
  | cons u l ih =>
    obtain ⟨hu, hrest⟩ := List.nodup_cons.mp hl
    refine ih (h.tickSleeper (hm u (by simp))) (hs.tickSleeper (hm u (by simp))) hrest
      fun v hv => ?_
    exact hs.mem_sleep_tickSleeper (fun he => hu (he ▸ hv)) (hm v (by simp [hv]))

theorem Sliced.tick (h : Sliced s) (hs : Inv s) : Sliced s.tick :=
  ((h.tickSlice hs).tickSleepers hs.tickSlice (hs.tickSlice.placed.nodup _) fun _ hu =>
    hu).dispatch

theorem sliced_step {e : Event} (h : Sliced s) (hs : Inv s) (he : schedStep s e = some s') :
    Sliced s' := by
  have hc := schedCall_of_step he
  cases e with
  | tick =>
    rw [schedCall, Option.some.injEq] at hc
    exact hc ▸ h.tick hs
  | semNotify i =>
    rw [schedCall, Option.some.injEq] at hc
    exact hc ▸ h.semNotify i
  | yeild =>
    rw [schedCall, Option.some.injEq] at hc
    exact hc ▸ h.yeild hs
  | sleep ms =>
    rw [schedCall, Option.some.injEq] at hc
    exact hc ▸ h.sleep hs ms
  | lock m =>
    rw [schedCall, Option.some.injEq] at hc
    exact hc ▸ h.lock hs (currTask_ne_idle he rfl) m
  | unlock m =>
    rw [schedCall, Option.some.injEq] at hc
    exact hc ▸ h.unlock m
  | semWait i =>
    rw [schedCall, Option.some.injEq] at hc
    exact hc ▸ h.semWait hs (currTask_ne_idle he rfl) i
  | fork i =>
    rw [schedCall] at hc
    split at hc
    · rename_i hi
      rw [Option.some.injEq] at hc
      exact hc ▸ h.fork hs hi.1 hi.2
    · exact absurd hc (by simp)
  | waitScan =>
    rw [schedCall, Option.some.injEq] at hc
    exact hc ▸ h.waitScan hs
  | waitBlock =>
    rw [schedCall, Option.some.injEq] at hc
    exact hc ▸ h.waitBlock hs
  | exitReparent =>
    rw [schedCall, Option.some.injEq] at hc
    exact hc ▸ h.exitReparent
  | exitFinal moveChild status => exact h.exitFinal hs hc

theorem sliced_init (counts : Nat → Int) : Sliced (schedInit counts) := by
  refine ⟨fun t hidle hstate => ?_, fun p t ht => ?_⟩
  · cases t with
    | idle => exact absurd rfl hidle
    | first =>
      exact ⟨trivial, show (1 : Int) ≤ taskTimeSliceDefault by decide, le_rfl, rfl⟩
    | slot i => exact absurd rfl hstate
  · simp only [schedInit] at ht
    split at ht
    · obtain rfl := List.mem_singleton.mp ht
      exact TaskState.noConfusion
    · simp at ht

theorem sliced_run {es : List Event} (h : Sliced s) (hs : Inv s)
    (hrun : run schedStep s es = some s') : Sliced s' := by
  have hstep : ∀ s e s', Inv s ∧ Sliced s → schedStep s e = some s' → Inv s' ∧ Sliced s' :=
    fun s e s' hi he => ⟨inv_step s e s' hi.1 he, sliced_step hi.2 hi.1 he⟩
  exact (run_invariant hstep ⟨hs, h⟩ hrun).2

/-- A ready task is behind those before it in the queue by their whole slices. -/
theorem Sliced.behind (h : Sliced s) (hs : Inv s) {pre post : List TaskId}
    (hsplit : s.queue .ready = pre ++ t :: post) :
    Behind s t (taskTimeSliceDefault * pre.length) := by
  have hslice : ∀ u ∈ pre, SliceOk u (s.task u) := by
    intro u hu
    have hmem : u ∈ s.queue .ready := by
      rw [hsplit]
      exact List.mem_append_left _ hu
    exact h.slice u (fun hc => hs.no_idle _ (hc ▸ hmem)) (h.queued _ u hmem)
  refine ⟨pre, post, hsplit, fun u hu => (hslice u hu).pos, ?_⟩
  clear hsplit
  induction pre with
  | nil => simp [ticksLeft]
  | cons c pre ih =>
    have hfirst := (hslice c (by simp)).le
    have hrest := ih fun u hu => hslice u (List.mem_cons_of_mem _ hu)
    rw [ticksLeft_cons, List.length_cons]
    push_cast
    rw [mul_add]
    omega

/-- All the tasks that can be queued. -/
def allTasks : List TaskId := .first :: (List.range taskNr).map .slot

/-- No more tasks are ready than there are. -/
theorem Sliced.ready_length (h : Sliced s) (hs : Inv s) :
    (s.queue .ready).length ≤ taskNr + 1 := by
  have hsub : s.queue .ready ⊆ allTasks := by
    intro t ht
    have htable := (h.slice t (fun hc => hs.no_idle _ (hc ▸ ht)) (h.queued _ t ht)).table
    cases t with
    | idle => exact absurd ht (hs.no_idle _)
    | first => simp [allTasks]
    | slot i =>
      have hi : i < taskNr := htable
      simpa [allTasks] using hi
  have hle := (List.subperm_of_subset (hs.placed.nodup .ready) hsub).length_le
  simpa [allTasks] using hle

end Sched

/-! ## The kernel -/

/-- A reachable kernel state represents an abstract one with its slices. -/
theorem refines_sliced {counts : Nat → Int} {es : List Event} {k : Kernel}
    (h : run kernelStep (kernelInit counts) es = some k) :
    ∃ s, Refines k s ∧ Sched.Inv s ∧ Sched.Sliced s := by
  obtain ⟨s, hrun, hr, hs⟩ := refines_reachable h
  exact ⟨s, hr, hs, Sched.sliced_run (Sched.sliced_init counts) (Sched.inv_init counts) hrun⟩

/-- The run of the kernel up to where the abstract one has come to `t`. -/
theorem kernel_run_of_behind {k k' : Kernel} {s : Sched} {t : TaskId} {n : Int} {es : List Event}
    (hr : Refines k s) (hs : Sched.Inv s) (hbehind : Sched.Behind s t n)
    (hrun : run kernelStep k es = some k') (hn : n ≤ es.count .tick) :
    ∃ fs k₁, fs <+: es ∧ run kernelStep k fs = some k₁ ∧ k₁.currTask = t := by
  obtain ⟨s', hrun', -, -⟩ := refines_run hr hs hrun
  obtain ⟨fs, s₁, ⟨gs, rfl⟩, hfs, hcurr⟩ := Sched.behind_run hbehind hs hrun' hn
  obtain ⟨k₁, hk₁, -⟩ := run_append.mp hrun
  obtain ⟨s₂, hs₂, hr₁, -⟩ := refines_run hr hs hk₁
  obtain rfl := Option.some.inj (hfs.symm.trans hs₂)
  exact ⟨fs, k₁, List.prefix_append fs gs, hk₁, hr₁.curr_eq.trans hcurr⟩

/-- A task of the ready list runs as soon as ten ticks have come for each task
before it, whatever the tasks do in between. -/
theorem ready_task_runs (counts : Nat → Int) (es fs : List Event) (k k' : Kernel) (t : TaskId)
    (pre post : List TaskId) (hk : run kernelStep (kernelInit counts) es = some k)
    (hready : Rep k.node k.readyList ((pre ++ t :: post).map .runNode))
    (hrun : run kernelStep k fs = some k')
    (hticks : taskTimeSliceDefault * pre.length ≤ fs.count .tick) :
    ∃ gs k₁, gs <+: fs ∧ run kernelStep k gs = some k₁ ∧ k₁.currTask = t := by
  obtain ⟨s, hr, hs, hsliced⟩ := refines_sliced hk
  have hsame := (hr.reps .ready).unique hready
  have hsplit : s.queue .ready = pre ++ t :: post :=
    List.map_injective_iff.mpr (nodeOf_injective .ready) hsame
  exact kernel_run_of_behind hr hs (hsliced.behind hs hsplit) hrun hticks

/-- The clock ticks in every state. -/
theorem run_ticks (k : Kernel) (n : Nat) :
    ∃ k', run kernelStep k (List.replicate n .tick) = some k' := by
  induction n generalizing k with
  | zero => exact ⟨k, rfl⟩
  | succ n ih =>
    obtain ⟨k', hk'⟩ := ih (taskTimeTick k)
    exact ⟨k', run_cons_eq_some.mpr ⟨_, if_neg (by simp [isInterrupt]), hk'⟩⟩

theorem ready_task_runs_forked : ∃ k gs k₁,
    run kernelStep (kernelInit fun _ => 0) [.fork 0] = some k ∧ k.currTask = .first ∧
      gs <+: List.replicate 10 Event.tick ∧ run kernelStep k gs = some k₁ ∧
        k₁.currTask = .slot 0 := by
  obtain ⟨k, hk⟩ : ∃ k, run kernelStep (kernelInit fun _ => 0) [.fork 0] = some k := ⟨_, rfl⟩
  obtain ⟨k', hk'⟩ := run_ticks k 10
  have hval := Option.some.inj hk
  obtain ⟨gs, k₁, hall⟩ := ready_task_runs (fun _ => 0) [.fork 0] (List.replicate 10 .tick) k k'
    (.slot 0) [.first] [] hk (hval ▸ ⟨rfl, rfl, rfl, by decide, rfl, rfl, rfl, rfl, trivial⟩) hk'
    (by decide)
  exact ⟨k, gs, k₁, hk, hval ▸ rfl, hall⟩

/-- A list up to the occurrence of `a` that has `n` others before it. -/
theorem exists_split_count {α : Type} [DecidableEq α] {a : α} :
    ∀ {l : List α} {n : Nat}, n < l.count a → ∃ l₁ l₂, l = l₁ ++ a :: l₂ ∧ l₁.count a = n
  | [], n, h => absurd h (by simp)
  | b :: l, n, h => by
    by_cases hb : b = a
    · subst hb
      cases n with
      | zero => exact ⟨[], l, rfl, rfl⟩
      | succ n =>
        rw [List.count_cons_self] at h
        obtain ⟨l₁, l₂, rfl, hn⟩ := exists_split_count (Nat.lt_of_succ_lt_succ h)
        exact ⟨b :: l₁, l₂, rfl, by rw [List.count_cons_self, hn]⟩
    · rw [List.count_cons_of_ne hb] at h
      obtain ⟨l₁, l₂, rfl, hn⟩ := exists_split_count h
      exact ⟨b :: l₁, l₂, rfl, by rw [List.count_cons_of_ne hb, hn]⟩

namespace Sched

/-- The tick that a sleeper waits for puts it in the ready queue. -/
theorem Asleep.ready_tick {s : Sched} {t : TaskId} (h : Asleep s t 1) (hs : Inv s) :
    t ∈ s.tick.queue .ready := by
  have hself := h.tickSlice hs
  rw [Sched.ready_tick hs]
  refine List.mem_append_right _ (List.mem_filter.mpr ⟨hself.mem, ?_⟩)
  simp [hself.left]

end Sched

/-- A task that calls `sys_sleep` runs again, not before the tick that its
argument rounds to, and at most a slice of every other task after it. -/
theorem sleeper_runs_again (counts : Nat → Int) (es fs : List Event) (k k₁ k₂ : Kernel)
    (ms : UInt32) (hk : run kernelStep (kernelInit counts) es = some k)
    (hms : 1 ≤ ms.toNat ∧ ms.toNat ≤ 2 ^ 31 - 1)
    (hsleep : kernelStep k (.sleep ms) = some k₁) (hrun : run kernelStep k₁ fs = some k₂)
    (hticks : ms.toNat ⌈/⌉ osTicksMs.toNat + taskTimeSliceDefault * taskNr ≤ fs.count .tick) :
    (∀ gs k₃, gs <+: fs → run kernelStep k₁ gs = some k₃ →
      gs.count .tick < ms.toNat ⌈/⌉ osTicksMs.toNat → k₃.currTask ≠ k.currTask) ∧
    ∃ gs k₃, gs <+: fs ∧ run kernelStep k₁ gs = some k₃ ∧ k₃.currTask = k.currTask := by
  obtain ⟨s, hr, hs, hsliced⟩ := refines_sliced hk
  obtain ⟨s₁, hstep, hr₁⟩ := refines_step hr hs hsleep
  have hs₁ := Sched.inv_step s _ s₁ hs hstep
  have hsliced₁ := Sched.sliced_step hsliced hs hstep
  have hcall := Sched.schedCall_of_step hstep
  rw [schedCall, Option.some.injEq] at hcall
  have hall : sleepsAtAll ms := ⟨hms.1, by omega⟩
  have hasleep := Sched.asleep_sleep s hall
  rw [hcall, toNat_sleepTicksOf hms.2, ← hr.curr_eq] at hasleep
  generalize hn : ms.toNat ⌈/⌉ osTicksMs.toNat = n at hasleep hticks ⊢
  constructor
  · intro gs k₃ _ hrun₃ hbefore hcurr
    obtain ⟨s₃, hrun₃', hr₃, hs₃⟩ := refines_run hr₁ hs₁ hrun₃
    have h₃ := Sched.asleep_run hasleep hs₁ hrun₃' (by omega)
    exact h₃.ne_curr hs₃ (hcurr.symm.trans hr₃.curr_eq)
  · have hpos : 1 ≤ n := by
      rw [← hn, show osTicksMs.toNat = 10 from rfl, Nat.ceilDiv_eq_add_pred_div]
      omega
    have hslices : taskTimeSliceDefault * (taskNr : Int) = 1280 := rfl
    obtain ⟨l₁, l₂, rfl, hcount⟩ := exists_split_count (a := Event.tick) (n := n - 1) (l := fs)
      (by omega)
    -- up to the tick that wakes it
    obtain ⟨k₃, hk₃, hrest⟩ := run_append.mp hrun
    obtain ⟨k₄, hk₄, hrest⟩ := run_cons_eq_some.mp hrest
    obtain ⟨s₃, hrun₃, hr₃, hs₃⟩ := refines_run hr₁ hs₁ hk₃
    obtain ⟨s₄, hstep₄, hr₄⟩ := refines_step hr₃ hs₃ hk₄
    have hs₄ := Sched.inv_step s₃ _ s₄ hs₃ hstep₄
    have hsliced₄ := Sched.sliced_step (Sched.sliced_run hsliced₁ hs₁ hrun₃) hs₃ hstep₄
    have h₃ := Sched.asleep_run hasleep hs₁ hrun₃ (by omega)
    rw [hcount, show (n : Int) - ((n - 1 : Nat) : Int) = 1 by omega] at h₃
    have hcall₄ := Sched.schedCall_of_step hstep₄
    rw [schedCall, Option.some.injEq] at hcall₄
    obtain ⟨pre, post, hsplit⟩ := List.append_of_mem (hcall₄ ▸ h₃.ready_tick hs₃)
    -- from there on it is behind the others
    have hlen := hsliced₄.ready_length hs₄
    rw [hsplit, List.length_append, List.length_cons] at hlen
    have hmore : taskTimeSliceDefault * (pre.length : Int) ≤ l₂.count .tick := by
      have hnr : taskNr = 128 := rfl
      rw [List.count_append, List.count_cons_self, hcount] at hticks
      show (10 : Int) * pre.length ≤ _
      omega
    obtain ⟨gs, k₅, ⟨gs', rfl⟩, hk₅, hcurr⟩ :=
      kernel_run_of_behind hr₄ hs₄ (hsliced₄.behind hs₄ hsplit) hrest hmore
    refine ⟨l₁ ++ .tick :: gs, k₅, ⟨gs', by simp⟩, ?_, hcurr⟩
    exact run_append.mpr ⟨k₃, hk₃, run_cons_eq_some.mpr ⟨k₄, hk₄, hk₅⟩⟩

theorem sleeper_runs_again_twenty : ∃ k k₁ gs k₃,
    run kernelStep (kernelInit fun _ => 0) [.fork 0] = some k ∧
      kernelStep k (.sleep 20) = some k₁ ∧ run kernelStep k₁ gs = some k₃ ∧
        k₃.currTask = k.currTask := by
  obtain ⟨k, hk⟩ : ∃ k, run kernelStep (kernelInit fun _ => 0) [.fork 0] = some k := ⟨_, rfl⟩
  have hval := Option.some.inj hk
  obtain ⟨k₁, hk₁⟩ : ∃ k₁, kernelStep k (.sleep 20) = some k₁ := hval ▸ ⟨_, rfl⟩
  obtain ⟨k₂, hk₂⟩ := run_ticks k₁ 1282
  obtain ⟨-, gs, k₃, -, hk₃, hcurr⟩ := sleeper_runs_again (fun _ => 0) [.fork 0]
    (List.replicate 1282 .tick) k k₁ k₂ 20 hk (by decide) hk₁ hk₂
    (by rw [List.count_replicate_self]; decide)
  exact ⟨k, k₁, gs, k₃, hk, hk₁, hk₃, hcurr⟩

end Wjos
