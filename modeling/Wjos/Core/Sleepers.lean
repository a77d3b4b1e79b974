/-
Wjos.Core.Sleepers — a sleeper is woken by the tick that `sys_sleep` has
counted out for it.

`Asleep s t n` says that `t` stands in the sleep queue with `n` ticks to go.
Every event but a tick keeps it (`asleep_step`), and a tick takes one off: the
loop of `task_time_tick` treats each sleeper once, whatever it takes out of the
list on the way, and appends those that have none left to the ready queue in
the order of the sleep queue (`queue_tick`).
-/
import Mathlib.Algebra.Order.Floor.Div
import Wjos.Core.SchedTheorems

namespace Wjos

open Lib

namespace Sched

/-- `t` sleeps, with `n` ticks to go. -/
structure Asleep (s : Sched) (t : TaskId) (n : Int) : Prop where
  mem : t ∈ s.queue .sleep
  left : (s.task t).sleepTicks = n

variable {s : Sched} {t u : TaskId} {n : Int}

/-! ## The operations -/

theorem Asleep.setTask (h : Asleep s t n) {x : Task}
    (hx : u = t → x.sleepTicks = (s.task t).sleepTicks) :
    Asleep { s with task := Function.update s.task u x } t n where
  mem := h.mem
  left := by
    show (Function.update s.task u x t).sleepTicks = n
    by_cases hut : t = u
    · rw [hut, Function.update_self, hx hut.symm, h.left]
    · rw [Function.update_of_ne hut, h.left]

theorem Asleep.setState (h : Asleep s t n) (u : TaskId) (st : TaskState) :
    Asleep (s.setState u st) t n := h.setTask fun hut => by rw [hut]

theorem Asleep.enqueue (h : Asleep s t n) (p : Place) (u : TaskId) :
    Asleep { s with queue := enqueue s.queue p u } t n :=
  ⟨mem_enqueue.mpr (.inl h.mem), h.left⟩

theorem Asleep.dequeue (h : Asleep s t n) (hq : Placed s.queue) {p : Place}
    (hp : p = .sleep → t ≠ u) : Asleep { s with queue := dequeue s.queue p u } t n :=
  ⟨(mem_dequeue hq).mpr ⟨h.mem, fun hc => hp hc.1.symm hc.2⟩, h.left⟩

theorem Asleep.setReady (h : Asleep s t n) (u : TaskId) : Asleep (s.setReady u) t n := by
  unfold Sched.setReady
  split
  · exact h
  · exact (h.enqueue .ready u).setState u .ready

theorem Asleep.setBlock (h : Asleep s t n) (hq : Placed s.queue) (u : TaskId) :
    Asleep (s.setBlock u) t n := by
  unfold Sched.setBlock
  split
  · exact h
  · exact h.dequeue hq (by simp)

theorem Asleep.dispatch (h : Asleep s t n) : Asleep s.dispatch t n := by
  have hset := h.setState s.nextRun .running
  unfold Sched.dispatch
  split
  · exact ⟨hset.mem, hset.left⟩
  · exact h

theorem Asleep.blockAt (h : Asleep s t n) (hq : Placed s.queue) (p : Place) :
    Asleep (s.blockAt p) t n := ((h.setBlock hq s.currTask).enqueue p _).dispatch

/-- A task that sleeps is not the current one. -/
theorem Asleep.ne_curr (h : Asleep s t n) (hs : Inv s) : t ≠ s.currTask := by
  rintro rfl
  have hidle : s.currTask ≠ .idle := fun hidle => hs.no_idle _ (hidle ▸ h.mem)
  have hplace := hs.placed.apart _ _ _ h.mem (hs.curr_mem hidle)
  cases hplace

/-- Nor one whose structure is about to be reused. -/
theorem Asleep.ne_of_dead (h : Asleep s t n) (hs : Inv s)
    (hdead : (s.task u).state.isLive = false) : u ≠ t := by
  rintro rfl
  exact hs.notMem hdead _ h.mem

theorem Asleep.setSleep (h : Asleep s t n) (hu : u ≠ t) (ticks : UInt32) :
    Asleep (s.setSleep u ticks) t n := by
  unfold Sched.setSleep
  split
  · exact h
  · exact (h.setTask fun hut => absurd hut hu).enqueue .sleep u

theorem Asleep.lock (h : Asleep s t n) (hq : Placed s.queue) (m : Nat) : Asleep (s.lock m) t n := by
  unfold Sched.lock
  split
  · exact ⟨h.mem, h.left⟩
  · split
    · exact ⟨h.mem, h.left⟩
    · exact h.blockAt hq _

theorem Asleep.unlock (h : Asleep s t n) (hq : Placed s.queue) (m : Nat) :
    Asleep (s.unlock m) t n := by
  unfold Sched.unlock
  split
  · dsimp only
    split
    · split
      · exact ⟨h.mem, h.left⟩
      · rename_i u l _
        have hwoken := (h.dequeue hq (p := .mutexWait m) (u := u) (by simp)).setReady u
        exact Asleep.dispatch ⟨hwoken.mem, hwoken.left⟩
    · exact ⟨h.mem, h.left⟩
  · exact h

theorem Asleep.semWait (h : Asleep s t n) (hq : Placed s.queue) (i : Nat) :
    Asleep (s.semWait i) t n := by
  unfold Sched.semWait
  split
  · exact ⟨h.mem, h.left⟩
  · exact h.blockAt hq _

theorem Asleep.semNotify (h : Asleep s t n) (hq : Placed s.queue) (i : Nat) :
    Asleep (s.semNotify i) t n := by
  unfold Sched.semNotify
  split
  · exact ⟨h.mem, h.left⟩
  · exact ((h.dequeue hq (by simp)).setReady _).dispatch

theorem Asleep.waitScan (h : Asleep s t n) (hs : Inv s) : Asleep s.waitScan t n := by
  unfold Sched.waitScan
  split
  · exact h
  · rename_i i hf
    have hz := (findSlot_eq_some hf).1
    simp only [isZombieChild, Bool.and_eq_true, decide_eq_true_eq] at hz
    exact h.setTask fun hut => absurd hut (h.ne_of_dead hs (by rw [hz.2]; rfl))

theorem sleepTicks_reparent (s : Sched) (t u : TaskId) :
    (s.reparent t u).sleepTicks = (s.task u).sleepTicks := by
  unfold Sched.reparent
  split
  · split <;> rfl
  · rfl

theorem Asleep.exitFinal (h : Asleep s t n) (hs : Inv s) {moveChild : Bool} {status : Int}
    {s' : Sched} (he : s.exitFinal moveChild status = some s') : Asleep s' t n := by
  unfold Sched.exitFinal at he
  split at he
  · exact absurd he (by simp)
  · rename_i parent _
    rw [Option.some.injEq] at he
    subst he
    have h₁ : Asleep (s.exitWakeFirst moveChild) t n := by
      unfold Sched.exitWakeFirst
      split
      · exact h.setReady .first
      · exact h
    have hs₂ := (hs.toSound.exitWakeFirst moveChild).wakeParent parent
    have h₂ : Asleep (if ((s.exitWakeFirst moveChild).task parent).state = .waitting then
        (s.exitWakeFirst moveChild).setReady parent else s.exitWakeFirst moveChild) t n := by
      split
      · exact h₁.setReady parent
      · exact h₁
    have hne := h.ne_curr hs
    exact ((h₂.setTask fun hut => absurd hut.symm hne).setBlock hs₂.placed s.currTask).dispatch

/-! ## The clock tick -/

theorem Asleep.tickSlice (h : Asleep s t n) (hs : Inv s) : Asleep s.tickSlice t n := by
  have hne : s.currTask ≠ t := (h.ne_curr hs).symm
  unfold Sched.tickSlice
  dsimp only
  split
  · exact ((h.setTask fun hut => absurd hut hne).setBlock hs.placed s.currTask).setReady _
  · exact h.setTask fun hut => absurd hut hne

/-- Treating another sleeper. -/
theorem Asleep.tickSleeper (h : Asleep s t n) (hq : Placed s.queue) (hut : t ≠ u) :
    Asleep (s.tickSleeper u) t n := by
  have h₁ := h.setTask (x := { s.task u with sleepTicks := (s.task u).sleepTicks - 1 })
    fun hc => absurd hc.symm hut
  unfold Sched.tickSleeper
  dsimp only
  split
  · exact (h₁.dequeue hq fun _ => hut).setReady u
  · exact h₁

/-- A sleeper that has more than one tick to go loses one. -/
theorem Asleep.tickSelf (h : Asleep s t n) (hn : n ≠ 1) : Asleep (s.tickSleeper t) t (n - 1) := by
  unfold Sched.tickSleeper
  dsimp only
  rw [h.left, if_neg (by omega)]
  exact ⟨h.mem, by simp⟩

/-- The loop treats each sleeper once. -/
theorem Asleep.tickSleepers {l : List TaskId} (h : Asleep s t n) (hs : Sound s) (hl : l.Nodup)
    (hm : ∀ u ∈ l, u ∈ s.queue .sleep) (hn : t ∈ l → n ≠ 1) :
    Asleep (l.foldl Sched.tickSleeper s) t (if t ∈ l then n - 1 else n) := by
  induction l generalizing s n with
  | nil => simpa using h
  | cons u l ih =>
    obtain ⟨hu, hrest⟩ := List.nodup_cons.mp hl
    have hs₁ := hs.tickSleeper (hm u (by simp))
    have hm₁ : ∀ v ∈ l, v ∈ (s.tickSleeper u).queue .sleep := fun v hv =>
      hs.mem_sleep_tickSleeper (fun he => hu (he ▸ hv)) (hm v (by simp [hv]))
    rw [List.foldl_cons]
    by_cases htu : t = u
    · subst htu
      simpa [hu] using ih (h.tickSelf (hn (by simp))) hs₁ hrest hm₁ fun hc => absurd hc hu
    · simpa [htu] using ih (h.tickSleeper hs.placed htu) hs₁ hrest hm₁ fun hc => hn (by simp [hc])

/-- `n` ticks to go, and this is not the last of them. -/
theorem Asleep.tick (h : Asleep s t n) (hs : Inv s) (hn : n ≠ 1) : Asleep s.tick t (n - 1) := by
  have h₁ := h.tickSlice hs
  have h₂ := h₁.tickSleepers hs.tickSlice (hs.tickSlice.placed.nodup .sleep) (fun _ hu => hu)
    fun _ => hn
  rw [if_pos h₁.mem] at h₂
  exact h₂.dispatch

/-- The tasks that a tick wakes, in the order in which they sleep. -/
def due (s : Sched) (l : List TaskId) : List TaskId :=
  l.filter fun u => (s.task u).sleepTicks = 1

theorem task_tickSleeper (s : Sched) (hut : t ≠ u) : (s.tickSleeper u).task t = s.task t := by
  unfold Sched.tickSleeper Sched.setReady Sched.setState Sched.setWakeup
  dsimp only
  split
  · split <;> simp [hut]
  · simp [hut]

theorem ready_tickSleeper (s : Sched) (hidle : u ≠ .idle) :
    (s.tickSleeper u).queue .ready =
      s.queue .ready ++ if (s.task u).sleepTicks = 1 then [u] else [] := by
  unfold Sched.tickSleeper
  dsimp only
  by_cases hone : (s.task u).sleepTicks = 1
  · rw [if_pos (by omega), if_pos hone, queue_setReady _ hidle, enqueue_self]
    simp [Sched.setWakeup, dequeue_of_ne]
  · rw [if_neg (by omega), if_neg hone, List.append_nil]

theorem ready_tickSleepers {l : List TaskId} (hl : l.Nodup) (hidle : .idle ∉ l) :
    (l.foldl Sched.tickSleeper s).queue .ready = s.queue .ready ++ s.due l := by
  induction l generalizing s with
  | nil => simp [due]
  | cons u l ih =>
    obtain ⟨hu, hrest⟩ := List.nodup_cons.mp hl
    have hne : u ≠ .idle := fun he => hidle (by simp [he])
    have hdue : (s.tickSleeper u).due l = s.due l := List.filter_congr fun v hv => by
      have hvu : v ≠ u := fun he => hu (he ▸ hv)
      rw [task_tickSleeper s hvu]
    rw [List.foldl_cons, ih hrest fun hc => hidle (by simp [hc]), hdue, ready_tickSleeper s hne,
      List.append_assoc]
    by_cases hone : (s.task u).sleepTicks = 1 <;> simp [due, hone]

/-- A tick appends the sleepers that are due to the ready queue. -/
theorem ready_tick (hs : Inv s) : s.tick.queue .ready =
    s.tickSlice.queue .ready ++ s.tickSlice.due (s.tickSlice.queue .sleep) := by
  unfold Sched.tick
  rw [queue_dispatch]
  exact ready_tickSleepers (hs.tickSlice.placed.nodup _) (hs.tickSlice.no_idle _)

/-! ## Steps and runs -/

theorem asleep_step {e : Event} {s' : Sched} (h : Asleep s t n) (hs : Inv s)
    (he : schedStep s e = some s') (htick : e ≠ .tick) : Asleep s' t n := by
  have hc := schedCall_of_step he
  cases e with
  | tick => exact absurd rfl htick
  | semNotify i =>
    rw [schedCall, Option.some.injEq] at hc
    exact hc ▸ h.semNotify hs.placed i
  | yeild =>
    rw [schedCall, Option.some.injEq] at hc
    subst hc
    unfold Sched.yeild
    split
    · exact ((h.setBlock hs.placed _).setReady _).dispatch
    · exact h
  | sleep ms =>
    rw [schedCall, Option.some.injEq] at hc
    exact hc ▸ ((h.setBlock hs.placed _).setSleep (h.ne_curr hs).symm _).dispatch
  | lock m =>
    rw [schedCall, Option.some.injEq] at hc
    exact hc ▸ h.lock hs.placed m
  | unlock m =>
    rw [schedCall, Option.some.injEq] at hc
    exact hc ▸ h.unlock hs.placed m
  | semWait i =>
    rw [schedCall, Option.some.injEq] at hc
    exact hc ▸ h.semWait hs.placed i
  | fork i =>
    rw [schedCall] at hc
    split at hc
    · rename_i hi
      rw [Option.some.injEq] at hc
      have hne := h.ne_of_dead hs (u := .slot i) (by rw [hi.2]; rfl)
      exact hc ▸ (h.setTask fun hut => absurd hut hne).setReady _
    · exact absurd hc (by simp)
  | waitScan =>
    rw [schedCall, Option.some.injEq] at hc
    exact hc ▸ h.waitScan hs
  | waitBlock =>
    rw [schedCall, Option.some.injEq] at hc
    exact hc ▸ ((h.setBlock hs.placed _).setState _ _).dispatch
  | exitReparent =>
    rw [schedCall, Option.some.injEq] at hc
    exact hc ▸ ⟨h.mem, (sleepTicks_reparent ..).trans h.left⟩
  | exitFinal moveChild status => exact h.exitFinal hs hc

/-- A run in which the task does not wake takes its ticks off. -/
theorem asleep_run {es : List Event} {s' : Sched} (h : Asleep s t n) (hs : Inv s)
    (hrun : run schedStep s es = some s') (hn : (es.count .tick : Int) < n) :
    Asleep s' t (n - es.count .tick) := by
  induction es generalizing s n with
  | nil =>
    rw [run_nil, Option.some.injEq] at hrun
    subst hrun
    simpa using h
  | cons e es ih =>
    obtain ⟨s₁, he, hrun⟩ := run_cons_eq_some.mp hrun
    have hs₁ := inv_step s e s₁ hs he
    rw [List.count_cons] at hn ⊢
    by_cases htick : e = .tick
    · subst htick
      simp only [beq_self_eq_true, if_true] at hn ⊢
      have hc := schedCall_of_step he
      rw [schedCall, Option.some.injEq] at hc
      subst hc
      have hrest := ih (h.tick hs (by omega)) hs₁ hrun (by omega)
      rwa [show n - 1 - (es.count .tick : Int) = n - ((es.count .tick + 1 : Nat) : Int) by
        push_cast; omega] at hrest
    · simp only [beq_iff_eq, htick, if_false, Nat.add_zero] at hn ⊢
      exact ih (asleep_step h hs he htick) hs₁ hrun hn

/-- `sys_sleep` puts the current task to sleep for the ticks it rounds to. -/
theorem asleep_sleep (s : Sched) {ms : UInt32} (hms : sleepsAtAll ms) :
    Asleep (s.sleep ms) s.currTask (sleepTicksOf ms).toNat := by
  unfold Sched.sleep Sched.setSleep
  rw [if_neg ((sleepTicksOf_pos_iff ms).mpr hms)]
  refine Asleep.dispatch ⟨?_, by simp⟩
  show s.currTask ∈ Lib.enqueue (s.setBlock s.currTask).queue .sleep s.currTask .sleep
  simp

end Sched

/-- The rounding of `sys_sleep` is the ceiling where its sum does not wrap. -/
theorem toNat_sleepTicksOf {ms : UInt32} (hms : ms.toNat ≤ 2 ^ 31 - 1) :
    (sleepTicksOf ms).toNat = ms.toNat ⌈/⌉ osTicksMs.toNat := by
  have hten : osTicksMs.toNat = 10 := rfl
  have hsum : ms + osTicksMs - 1 = ms + 9 := by
    rw [UInt32.sub_eq_add_neg, UInt32.add_assoc]
    rfl
  have hnine : (ms + 9).toNat = ms.toNat + 9 := by
    rw [UInt32.toNat_add]
    exact Nat.mod_eq_of_lt (show ms.toNat + 9 < 2 ^ 32 by omega)
  rw [sleepTicksOf, hsum, UInt32.toNat_div, hnine, hten, Nat.ceilDiv_eq_add_pred_div]
  omega

/-- Between `k` and `k'` lies a tick that puts `t` at the tail of the ready
list: it appends the sleepers that are due to what the time slice has left. -/
def WokenAtTail (k k' : Kernel) (t : TaskId) : Prop :=
  ∃ ready sleep woken : List TaskId,
    Rep (tickSlice k).node (tickSlice k).readyList (ready.map .runNode) ∧
    Rep (tickSlice k).node (tickSlice k).sleepList (sleep.map .runNode) ∧
    Rep k'.node k'.readyList ((ready ++ woken).map .runNode) ∧
    woken = sleep.filter (fun u => ((tickSlice k).task u).sleepTicks = 1) ∧ t ∈ woken

/-- A task that calls `sys_sleep` stays out of the ready list up to the tick
that its argument rounds to, whatever else happens in between, and that tick
puts it at the tail. -/
theorem sleeper_wakes (counts : Nat → Int) (es fs : List Event) (k k₁ k₂ : Kernel) (ms : UInt32)
    (hk : run kernelStep (kernelInit counts) es = some k)
    (hms : 1 ≤ ms.toNat ∧ ms.toNat ≤ 2 ^ 31 - 1)
    (hsleep : kernelStep k (.sleep ms) = some k₁) (hrun : run kernelStep k₁ fs = some k₂) :
    (fs.count .tick < ms.toNat ⌈/⌉ osTicksMs.toNat →
      k₂.Queued .sleep k.currTask ∧ ¬k₂.Queued .ready k.currTask) ∧
    (fs.count .tick + 1 = ms.toNat ⌈/⌉ osTicksMs.toNat →
      ∃ k₃, kernelStep k₂ .tick = some k₃ ∧ WokenAtTail k₂ k₃ k.currTask) := by
  obtain ⟨s, -, hr, hs⟩ := refines_reachable hk
  obtain ⟨s₁, hstep, hr₁⟩ := refines_step hr hs hsleep
  have hs₁ := Sched.inv_step s _ s₁ hs hstep
  obtain ⟨s₂, hrun₂, hr₂, hs₂⟩ := refines_run hr₁ hs₁ hrun
  have hall : sleepsAtAll ms := ⟨hms.1, by omega⟩
  have hcall := Sched.schedCall_of_step hstep
  rw [schedCall, Option.some.injEq] at hcall
  have hasleep := Sched.asleep_sleep s hall
  rw [hcall, toNat_sleepTicksOf hms.2, ← hr.curr_eq] at hasleep
  constructor
  · intro hbefore
    have h₂ := Sched.asleep_run hasleep hs₁ hrun₂ (by omega)
    rw [hr₂.queued_iff, hr₂.queued_iff]
    refine ⟨h₂.mem, fun hready => ?_⟩
    have hplace := hs₂.placed.apart _ _ _ h₂.mem hready
    cases hplace
  · intro hlast
    have h₂ := Sched.asleep_run hasleep hs₁ hrun₂ (by omega)
    have hslice := hr₂.tickSlice hs₂
    have htick := hr₂.tick hs₂
    have hstep₃ : kernelStep k₂ .tick = some (taskTimeTick k₂) := if_neg (by simp [isInterrupt])
    have hself := h₂.tickSlice hs₂
    refine ⟨_, hstep₃, s₂.tickSlice.queue .ready, s₂.tickSlice.queue .sleep,
      s₂.tickSlice.due (s₂.tickSlice.queue .sleep), hslice.reps .ready, hslice.reps .sleep,
      ?_, ?_, ?_⟩
    · rw [← Sched.ready_tick hs₂]
      exact htick.reps .ready
    · rw [hslice.task_eq]
      rfl
    · refine List.mem_filter.mpr ⟨hself.mem, ?_⟩
      rw [hself.left]
      simp
      omega

theorem sleeper_wakes_twenty : ∃ k k₁ k₂,
    run kernelStep (kernelInit fun _ => 0) [.fork 0] = some k ∧
    kernelStep k (.sleep 20) = some k₁ ∧ run kernelStep k₁ [.sleep 30, .tick] = some k₂ ∧
    (k₂.Queued .sleep k.currTask ∧ ¬k₂.Queued .ready k.currTask) ∧
    ∃ k₃, kernelStep k₂ .tick = some k₃ ∧ WokenAtTail k₂ k₃ k.currTask := by
  have hall :=
    sleeper_wakes (fun _ => 0) [.fork 0] [.sleep 30, .tick] _ _ _ 20 rfl (by decide) rfl rfl
  exact ⟨_, _, _, rfl, rfl, rfl, hall.1 (by decide), hall.2 (by decide)⟩

end Wjos
