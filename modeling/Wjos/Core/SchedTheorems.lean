/-
Wjos.Core.SchedTheorems — what every run of the kernel's scheduler keeps.

`scheduler_queues_ok` — the ready list and the sleep list stay well-formed
doubly linked lists without common or repeated members, and the current
task is the head of the ready list.

`no_task_lost_iff` — a run loses no task exactly when none of its calls of
`sys_sleep` rounds its argument to zero ticks. `sys_sleep` takes the
current task out of the ready list first, and `task_set_sleep` returns at
once when it is given zero ticks.

Both are read off the abstract run of `refines_run`.
-/
import Mathlib.Algebra.Group.Int.Defs
import Mathlib.Algebra.Group.Nat.Defs
import Wjos.Core.SchedRefine

namespace Wjos

open Lib

/-- `t` is a member of the list at `p`. -/
def Kernel.Queued (k : Kernel) (p : Place) (t : TaskId) : Prop :=
  ∃ q : List TaskId, Rep k.node (k.header p) (q.map (nodeOf p)) ∧ t ∈ q

theorem nodeOf_injective (p : Place) : Function.Injective (nodeOf p) :=
  fun a b h => embeds_nodeOf p p a b h

/-- The lists of the kernel hold what the abstract queues hold. -/
theorem Refines.queued_iff {k : Kernel} {s : Sched} (hr : Refines k s) {p : Place} {t : TaskId} :
    k.Queued p t ↔ t ∈ s.queue p := by
  constructor
  · intro ⟨q, hq, ht⟩
    have he := hq.unique (hr.reps p)
    rw [(List.map_injective_iff.mpr (nodeOf_injective p)) he] at ht
    exact ht
  · intro ht
    exact ⟨s.queue p, hr.reps p, ht⟩

/-- A reachable kernel state represents an abstract state that satisfies
the invariant. -/
theorem refines_reachable {counts : Nat → Int} {es : List Event} {k : Kernel}
    (h : run kernelStep (kernelInit counts) es = some k) :
    ∃ s, run schedStep (schedInit counts) es = some s ∧ Refines k s ∧ Sched.Inv s :=
  refines_run (refines_init counts) (Sched.inv_init counts) h

/-! ## The queues -/

/-- In every reachable state the ready list and the sleep list are
well-formed, no task is queued twice, neither holds the idle task or a task
that waits for a child, and the current task is the head of the ready list
or, when that is empty, the idle task. -/
theorem scheduler_queues_ok (counts : Nat → Int) (es : List Event) (k : Kernel)
    (h : run kernelStep (kernelInit counts) es = some k) :
    ∃ ready sleep : List TaskId,
      Rep k.node k.readyList (ready.map .runNode) ∧
      Rep k.node k.sleepList (sleep.map .runNode) ∧
      (ready ++ sleep).Nodup ∧
      .idle ∉ ready ++ sleep ∧
      (∀ t, (k.task t).state = .waitting → t ∉ ready ++ sleep) ∧
      k.currTask = ready.head?.getD .idle := by
  obtain ⟨s, -, hr, hs⟩ := refines_reachable h
  refine ⟨s.queue .ready, s.queue .sleep, hr.reps .ready, hr.reps .sleep, ?_, ?_, ?_, ?_⟩
  · rw [List.nodup_append]
    refine ⟨hs.placed.nodup _, hs.placed.nodup _, ?_⟩
    intro a ha b hb hab
    rw [hab] at ha
    have hp := hs.placed.apart .ready .sleep b ha hb
    cases hp
  · intro hm
    rcases List.mem_append.mp hm with hm | hm
    · exact hs.no_idle _ hm
    · exact hs.no_idle _ hm
  · intro t ht hm
    have hl : (s.task t).state.isLive = false := by
      rw [← hr.task_eq, ht]
      rfl
    rcases List.mem_append.mp hm with hm | hm
    · exact hs.notMem hl _ hm
    · exact hs.notMem hl _ hm
  · rw [hr.curr_eq]
    exact hs.curr_eq

theorem scheduler_queues_ok_fork_sleep :
    ∃ k, run kernelStep (kernelInit fun _ => 0) [.fork 0, .sleep 20, .tick] = some k ∧
      ∃ ready sleep : List TaskId,
        Rep k.node k.readyList (ready.map .runNode) ∧
        Rep k.node k.sleepList (sleep.map .runNode) ∧
        (ready ++ sleep).Nodup ∧
        .idle ∉ ready ++ sleep ∧
        (∀ t, (k.task t).state = .waitting → t ∉ ready ++ sleep) ∧
        k.currTask = ready.head?.getD .idle :=
  ⟨_, rfl, scheduler_queues_ok (fun _ => 0) [.fork 0, .sleep 20, .tick] _ rfl⟩

/-! ## Lost tasks -/

/-- Every started task that is neither a zombie nor the idle task is a
member of exactly one list, or waits for a child and is in none. -/
def Kernel.NoTaskLost (k : Kernel) : Prop :=
  ∀ t, t ≠ .idle → (k.task t).state ≠ .created → (k.task t).state ≠ .zombie →
    ((k.task t).state ≠ .waitting ∧ ∃! p, k.Queued p t) ∨
    ((k.task t).state = .waitting ∧ ∀ p, ¬ k.Queued p t)

/-- The arguments that `sys_sleep` rounds to at least one tick. -/
def sleepsAtAll (ms : UInt32) : Prop := 1 ≤ ms.toNat ∧ ms.toNat ≤ 2 ^ 32 - 10

/-- The sum wraps for the nine largest arguments. -/
theorem sleepTicksOf_pos_iff (ms : UInt32) : ¬ sleepTicksOf ms ≤ 0 ↔ sleepsAtAll ms := by
  have hlt := ms.toNat_lt
  have hticks : (sleepTicksOf ms).toNat = (ms.toNat + 9) % 2 ^ 32 / 10 := by
    unfold sleepTicksOf osTicksMs
    have hsum : ms + 10 - 1 = ms + 9 := by
      rw [UInt32.sub_eq_add_neg, UInt32.add_assoc]
      rfl
    rw [hsum, UInt32.toNat_div, UInt32.toNat_add]
    rfl
  rw [UInt32.le_iff_toNat_le, hticks]
  unfold sleepsAtAll
  simp only [UInt32.toNat_zero]
  omega

namespace Sched

/-- Every live task but the idle task and `x` stands in some queue. -/
def KeptBut (s : Sched) (x : TaskId) : Prop :=
  ∀ t, t ≠ .idle → t ≠ x → (s.task t).state.isLive = true → ∃ p, t ∈ s.queue p

/-- Every live task but the idle task stands in some queue. -/
def Kept (s : Sched) : Prop := KeptBut s .idle

variable {s : Sched} {x y : TaskId}

theorem Kept.but (h : Kept s) (x : TaskId) : KeptBut s x :=
  fun t hidle _ hl => h t hidle hidle hl

theorem KeptBut.congr {s' : Sched} (h : KeptBut s x) (hq : s'.queue = s.queue)
    (ht : ∀ u, (s'.task u).state = (s.task u).state) : KeptBut s' x := by
  intro t hidle hx hl
  rw [ht] at hl
  rw [hq]
  exact h t hidle hx hl

theorem KeptBut.setTask (h : KeptBut s x) (v : Task) :
    KeptBut { s with task := Function.update s.task x v } x := by
  intro t hidle hx hl
  have hl' : (Function.update s.task x v t).state.isLive = true := hl
  rw [Function.update_of_ne hx] at hl'
  exact h t hidle hx hl'

/-- A task that is not live need not be queued. -/
theorem KeptBut.setTask_dead (h : KeptBut s x) {v : Task} (hv : v.state.isLive = false) :
    Kept { s with task := Function.update s.task x v } := by
  intro t hidle _ hl
  have hl' : (Function.update s.task x v t).state.isLive = true := hl
  by_cases hx : t = x
  · subst hx
    rw [Function.update_self, hv] at hl'
    exact absurd hl' (by simp)
  · rw [Function.update_of_ne hx] at hl'
    exact h t hidle hx hl'

theorem KeptBut.enqueue (h : KeptBut s x) (p : Place) :
    Kept { s with queue := enqueue s.queue p x } := by
  intro t hidle _ hl
  by_cases hx : t = x
  · exact ⟨p, mem_enqueue.mpr (Or.inr ⟨rfl, hx⟩)⟩
  · obtain ⟨r, hr⟩ := h t hidle hx hl
    exact ⟨r, mem_enqueue.mpr (Or.inl hr)⟩

theorem KeptBut.dequeue (h : KeptBut s x) (hq : Placed s.queue) (p : Place) :
    KeptBut { s with queue := dequeue s.queue p x } x := by
  intro t hidle hx hl
  obtain ⟨r, hr⟩ := h t hidle hx hl
  exact ⟨r, (mem_dequeue hq).mpr ⟨hr, fun hc => hx hc.2⟩⟩

theorem KeptBut.setReady (h : KeptBut s x) : Kept (s.setReady x) := by
  unfold Sched.setReady
  split
  · rename_i hidle
    rw [hidle] at h
    exact h
  · exact (h.setTask { s.task x with state := .ready }).enqueue .ready

theorem KeptBut.setBlock (h : KeptBut s x) (hq : Placed s.queue) : KeptBut (s.setBlock x) x := by
  unfold Sched.setBlock
  split
  · exact h
  · exact h.dequeue hq .ready

/-- The task that is dispatched stands in the ready queue. -/
theorem Kept.dispatch (h : Kept s) : Kept s.dispatch := by
  unfold Sched.dispatch
  split
  · intro t hidle _ hl
    by_cases ht : t = s.nextRun
    · rw [ht] at hidle ⊢
      exact ⟨.ready, nextRun_mem hidle⟩
    · have hl' : (Function.update s.task s.nextRun
          { s.task s.nextRun with state := .running } t).state.isLive = true := hl
      rw [Function.update_of_ne ht] at hl'
      exact h t hidle hidle hl'
  · exact h

theorem Kept.blockAt (h : Kept s) (hq : Placed s.queue) (p : Place) : Kept (s.blockAt p) :=
  (((h.but s.currTask).setBlock hq).enqueue p).dispatch

theorem Kept.tickSlice (h : Kept s) (hq : Placed s.queue) : Kept s.tickSlice := by
  unfold Sched.tickSlice
  dsimp only
  split
  · exact (((h.but s.currTask).setTask _).setBlock hq).setReady
  · exact KeptBut.congr h rfl fun u => by
      show (Function.update s.task s.currTask _ u).state = _
      by_cases hu : u = s.currTask
      · rw [hu, Function.update_self]
      · rw [Function.update_of_ne hu]

theorem Kept.tickSleeper (h : Kept s) (hq : Placed s.queue) (t : TaskId) :
    Kept (s.tickSleeper t) := by
  unfold Sched.tickSleeper
  dsimp only
  split
  · exact (((h.but t).setTask _).dequeue hq .sleep).setReady
  · exact KeptBut.congr h rfl fun u => by
      show (Function.update s.task t _ u).state = _
      by_cases hu : u = t
      · rw [hu, Function.update_self]
      · rw [Function.update_of_ne hu]

theorem Kept.tickSleepers {l : List TaskId} (h : Kept s) (hs : Sound s) (hl : l.Nodup)
    (hm : ∀ u ∈ l, u ∈ s.queue .sleep) : Kept (l.foldl Sched.tickSleeper s) := by
  induction l generalizing s with
  | nil => exact h
  | cons u l ih =>
    rw [List.foldl_cons]
    have hu : u ∉ l := (List.nodup_cons.mp hl).1
    refine ih (h.tickSleeper hs.placed u) (hs.tickSleeper (hm u (by simp))) hl.of_cons
      fun v hv => ?_
    exact hs.mem_sleep_tickSleeper (fun he => hu (he ▸ hv)) (hm v (by simp [hv]))

theorem Kept.tick (h : Kept s) (hs : Inv s) : Kept s.tick :=
  ((h.tickSlice hs.placed).tickSleepers hs.tickSlice (hs.tickSlice.placed.nodup _)
    fun _ hu => hu).dispatch

theorem Kept.yeild (h : Kept s) (hs : Inv s) : Kept s.yeild := by
  unfold Sched.yeild
  split
  · exact ((h.but s.currTask).setBlock hs.placed).setReady.dispatch
  · exact h

theorem Kept.sleep (h : Kept s) (hs : Inv s) {ms : UInt32} (hms : sleepsAtAll ms) :
    Kept (s.sleep ms) := by
  unfold Sched.sleep Sched.setSleep
  rw [if_neg ((sleepTicksOf_pos_iff ms).mpr hms)]
  exact ((((h.but s.currTask).setBlock hs.placed).setTask _).enqueue .sleep).dispatch

theorem Kept.unlock (h : Kept s) (hs : Inv s) (m : Nat) : Kept (s.unlock m) := by
  unfold Sched.unlock
  split
  · dsimp only
    split
    · split
      · exact h
      · rename_i t l _
        have h₁ := ((h.but t).dequeue hs.placed (.mutexWait m)).setReady
        exact Kept.dispatch fun u hidle hx hl => h₁ u hidle hx hl
    · exact h
  · exact h

theorem Kept.lock (h : Kept s) (hs : Inv s) (m : Nat) : Kept (s.lock m) := by
  unfold Sched.lock
  split
  · exact h
  · split
    · exact h
    · exact h.blockAt hs.placed _

theorem Kept.semWait (h : Kept s) (hs : Inv s) (n : Nat) : Kept (s.semWait n) := by
  unfold Sched.semWait
  split
  · exact h
  · exact h.blockAt hs.placed _

theorem Kept.semNotify (h : Kept s) (hs : Inv s) (n : Nat) : Kept (s.semNotify n) := by
  unfold Sched.semNotify
  split
  · exact h
  · rename_i t l _
    exact ((h.but t).dequeue hs.placed (.semWait n)).setReady.dispatch

theorem Kept.fork (h : Kept s) (t : TaskId) : Kept (s.fork t) :=
  ((h.but t).setTask (freshTask s.currTask)).setReady

theorem Kept.waitScan (h : Kept s) : Kept s.waitScan := by
  unfold Sched.waitScan
  split
  · exact h
  · rename_i i _
    exact (h.but (.slot i)).setTask_dead rfl

theorem Kept.waitBlock (h : Kept s) (hs : Inv s) : Kept s.waitBlock := by
  have h₁ := (h.but s.currTask).setBlock hs.placed
  exact (h₁.setTask_dead (v := { (s.setBlock s.currTask).task s.currTask with
    state := .waitting }) rfl).dispatch

theorem Kept.exitReparent (h : Kept s) : Kept s.exitReparent :=
  KeptBut.congr h rfl fun u => state_reparent s s.currTask u

theorem Kept.exitWakeFirst (h : Kept s) (moveChild : Bool) : Kept (s.exitWakeFirst moveChild) := by
  unfold Sched.exitWakeFirst
  split
  · exact (h.but .first).setReady
  · exact h

theorem Kept.wakeParent (h : Kept s) (t : TaskId) :
    Kept (if (s.task t).state = .waitting then s.setReady t else s) := by
  split
  · exact (h.but t).setReady
  · exact h

theorem Kept.exitFinal (h : Kept s) (hs : Inv s) {moveChild : Bool} {status : Int} {s' : Sched}
    (he : s.exitFinal moveChild status = some s') : Kept s' := by
  unfold Sched.exitFinal at he
  split at he
  · exact absurd he (by simp)
  · rename_i parent _
    rw [Option.some.injEq] at he
    subst he
    dsimp only
    have h₁ := (h.exitWakeFirst moveChild).wakeParent parent
    have hs₁ := (hs.toSound.exitWakeFirst moveChild).wakeParent parent
    set s₁ := s.exitWakeFirst moveChild
    set s₂ := (if (s₁.task parent).state = .waitting then s₁.setReady parent else s₁)
    have h₂ := ((h₁.but s.currTask).setTask_dead (v := { s₂.task s.currTask with
      state := .zombie, status := status }) rfl).but s.currTask
    have h₃ := h₂.setBlock hs₁.placed
    refine Kept.dispatch fun t hidle _ hl => ?_
    by_cases ht : t = s.currTask
    · subst ht
      rw [task_setBlock] at hl
      have hl' : (Function.update s₂.task s.currTask _ s.currTask).state.isLive = true := hl
      rw [Function.update_self] at hl'
      exact absurd hl' (by simp [TaskState.isLive])
    · exact h₃ t hidle ht hl

/-- Every event keeps all tasks, except a `sys_sleep` of zero ticks. -/
theorem kept_step {e : Event} {s' : Sched} (h : Kept s) (hs : Inv s)
    (hms : ∀ ms, e = .sleep ms → sleepsAtAll ms) (he : schedStep s e = some s') : Kept s' := by
  have hc := schedCall_of_step he
  cases e with
  | tick =>
    rw [schedCall, Option.some.injEq] at hc
    exact hc ▸ h.tick hs
  | semNotify n =>
    rw [schedCall, Option.some.injEq] at hc
    exact hc ▸ h.semNotify hs n
  | yeild =>
    rw [schedCall, Option.some.injEq] at hc
    exact hc ▸ h.yeild hs
  | sleep ms =>
    rw [schedCall, Option.some.injEq] at hc
    exact hc ▸ h.sleep hs (hms ms rfl)
  | lock m =>
    rw [schedCall, Option.some.injEq] at hc
    exact hc ▸ h.lock hs m
  | unlock m =>
    rw [schedCall, Option.some.injEq] at hc
    exact hc ▸ h.unlock hs m
  | semWait n =>
    rw [schedCall, Option.some.injEq] at hc
    exact hc ▸ h.semWait hs n
  | fork i =>
    rw [schedCall] at hc
    split at hc
    · rw [Option.some.injEq] at hc
      exact hc ▸ h.fork _
    · exact absurd hc (by simp)
  | waitScan =>
    rw [schedCall, Option.some.injEq] at hc
    exact hc ▸ h.waitScan
  | waitBlock =>
    rw [schedCall, Option.some.injEq] at hc
    exact hc ▸ h.waitBlock hs
  | exitReparent =>
    rw [schedCall, Option.some.injEq] at hc
    exact hc ▸ h.exitReparent
  | exitFinal moveChild status => exact h.exitFinal hs hc

theorem kept_init (counts : Nat → Int) : Kept (schedInit counts) := by
  intro t hidle _ hl
  by_cases ht : t = .first
  · exact ⟨.ready, by simp [schedInit, ht]⟩
  · have hdead : ((schedInit counts).task t).state = .created := by
      cases t with
      | idle => exact absurd rfl hidle
      | first => exact absurd rfl ht
      | slot i => rfl
    rw [hdead] at hl
    exact absurd hl (by simp [TaskState.isLive])

/-- A run whose calls of `sys_sleep` sleep for at least one tick. -/
theorem kept_run {counts : Nat → Int} {es : List Event}
    (h : run schedStep (schedInit counts) es = some s)
    (hms : ∀ ms, .sleep ms ∈ es → sleepsAtAll ms) : Kept s := by
  have hgen : ∀ (es : List Event) (s₁ : Sched), Inv s₁ → Kept s₁ →
      (∀ ms, .sleep ms ∈ es → sleepsAtAll ms) → run schedStep s₁ es = some s → Kept s := by
    intro es
    induction es with
    | nil =>
      intro s₁ _ hk _ hr
      rw [run_nil, Option.some.injEq] at hr
      exact hr ▸ hk
    | cons e es ih =>
      intro s₁ hi hk hm hr
      obtain ⟨s₂, he, hr⟩ := run_cons_eq_some.mp hr
      refine ih s₂ (inv_step s₁ e s₂ hi he) (kept_step hk hi (fun ms heq => ?_) he)
        (fun ms hmem => hm ms (by simp [hmem])) hr
      exact hm ms (by simp [heq])
  exact hgen es _ (inv_init counts) (kept_init counts) hms h

/-- A `sys_sleep` of zero ticks leaves the caller live and in no queue. -/
theorem sleep_zero (hs : Inv s) (hidle : s.currTask ≠ .idle) {ms : UInt32}
    (hms : ¬ sleepsAtAll ms) :
    ((s.sleep ms).task s.currTask).state.isLive = true ∧
      ∀ p, s.currTask ∉ (s.sleep ms).queue p := by
  have hz : sleepTicksOf ms ≤ 0 := by
    by_contra hpos
    exact hms ((sleepTicksOf_pos_iff ms).mp hpos)
  have hout := hs.notMem_setBlock hidle (hs.curr_mem hidle)
  have hne : s.currTask ≠ (s.setBlock s.currTask).nextRun := by
    intro he
    rw [he] at hidle
    have hm := nextRun_mem hidle
    rw [← he] at hm
    exact hout .ready hm
  unfold Sched.sleep Sched.setSleep
  rw [if_pos hz]
  constructor
  · unfold Sched.dispatch
    split
    · show (Function.update (s.setBlock s.currTask).task _ _ s.currTask).state.isLive = true
      rw [Function.update_of_ne hne, task_setBlock]
      exact hs.curr_live hidle
    · rw [task_setBlock]
      exact hs.curr_live hidle
  · intro p
    rw [queue_dispatch]
    exact hout p

end Sched

theorem isLive_iff (st : TaskState) :
    st.isLive = true ↔ st ≠ .created ∧ st ≠ .zombie ∧ st ≠ .waitting := by
  cases st <;> simp [TaskState.isLive]

/-- The kernel loses no task exactly when the abstract scheduler keeps all
of them. -/
theorem Refines.noTaskLost_iff {k : Kernel} {s : Sched} (hr : Refines k s) (hs : Sched.Inv s) :
    k.NoTaskLost ↔ s.Kept := by
  unfold Kernel.NoTaskLost
  simp only [hr.queued_iff, hr.task_eq]
  constructor
  · intro h t hidle _ hl
    obtain ⟨hc, hz, hw⟩ := (isLive_iff _).mp hl
    rcases h t hidle hc hz with ⟨-, p, hp, -⟩ | ⟨hw', -⟩
    · exact ⟨p, hp⟩
    · exact absurd hw' hw
  · intro h t hidle hc hz
    by_cases hw : (s.task t).state = .waitting
    · right
      exact ⟨hw, hs.notMem (by rw [hw]; rfl)⟩
    · left
      obtain ⟨p, hp⟩ := h t hidle hidle ((isLive_iff _).mpr ⟨hc, hz, hw⟩)
      exact ⟨hw, p, hp, fun r hr => hs.placed.apart r p t hr hp⟩

/-- The call that loses its caller. -/
theorem not_noTaskLost_of_sleep {k k' : Kernel} {s : Sched} (hr : Refines k s)
    (hs : Sched.Inv s) {ms : UInt32} (hms : ¬ sleepsAtAll ms)
    (hk : kernelStep k (.sleep ms) = some k') : ¬ k'.NoTaskLost := by
  obtain ⟨s', hs', hr'⟩ := refines_step hr hs hk
  have hidle := Sched.currTask_ne_idle hs' rfl
  have hc := Sched.schedCall_of_step hs'
  rw [schedCall, Option.some.injEq] at hc
  obtain ⟨hl, hout⟩ := Sched.sleep_zero hs hidle hms
  rw [hr'.noTaskLost_iff (Sched.inv_step _ _ _ hs hs'), ← hc]
  intro hkept
  obtain ⟨p, hp⟩ := hkept _ hidle hidle hl
  exact hout p hp

/-- A task that sleeps for zero ticks is lost at once. -/
theorem first_sleep_zero_lost :
    ∃ k, run kernelStep (kernelInit fun _ => 0) [.sleep 0] = some k ∧ ¬ k.NoTaskLost := by
  have hms : ¬ sleepsAtAll 0 := by simp [sleepsAtAll]
  exact ⟨_, rfl, not_noTaskLost_of_sleep (refines_init fun _ => 0) (Sched.inv_init _) hms rfl⟩

/-- No state a run passes through has lost a task exactly when every
argument of `sys_sleep` in it lies between 1 and 2^32 - 10. -/
theorem no_task_lost_iff (counts : Nat → Int) (es : List Event) (k : Kernel)
    (h : run kernelStep (kernelInit counts) es = some k) :
    (∀ fs k', fs <+: es → run kernelStep (kernelInit counts) fs = some k' → k'.NoTaskLost) ↔
      ∀ ms, .sleep ms ∈ es → sleepsAtAll ms := by
  constructor
  · intro hall ms hmem
    by_contra hms
    -- the state right after the offending call is a counterexample
    obtain ⟨fs, gs, rfl⟩ := List.append_of_mem hmem
    rw [show fs ++ .sleep ms :: gs = fs ++ [.sleep ms] ++ gs by simp] at h hall
    obtain ⟨k₂, h₂, -⟩ := run_append.mp h
    obtain ⟨k₁, h₁, hstep⟩ := run_concat.mp h₂
    obtain ⟨s, -, hr, hs⟩ := refines_reachable h₁
    exact not_noTaskLost_of_sleep hr hs hms hstep (hall _ k₂ (List.prefix_append _ _) h₂)
  · intro hms fs k' hpre hk'
    obtain ⟨s, hrun, hr, hs⟩ := refines_reachable hk'
    rw [hr.noTaskLost_iff hs]
    exact Sched.kept_run hrun fun ms hmem => hms ms (hpre.subset hmem)

theorem no_task_lost_iff_sleep_twenty :
    ∃ k, run kernelStep (kernelInit fun _ => 0) [.sleep 20] = some k ∧
      ((∀ fs k', fs <+: [.sleep 20] → run kernelStep (kernelInit fun _ => 0) fs = some k' →
          k'.NoTaskLost) ↔
        ∀ ms, .sleep ms ∈ [Event.sleep 20] → sleepsAtAll ms) :=
  ⟨_, rfl, no_task_lost_iff (fun _ => 0) [.sleep 20] _ rfl⟩

end Wjos
