/-
Wjos.Core.SchedRefine — the kernel's scheduler refines the abstract one.

`Refines k s` says that the headers and links of `k` represent the queues
of `s`, one list per `Place`, and that the two agree on the task
structures, the current task, the lock counts and owners and the
semaphore counts. Every operation of `Wjos.Core.Task`, `Wjos.Ipc.Mutex`
and `Wjos.Ipc.Sem` has one lemma here; `refines_step` says that each
kernel event is matched by the abstract event, and `refines_run` follows
it along a run.

The intrusive links are dealt with once, by the family lemmas `Reps.*` of
`Wjos.Tools.List`.
-/
import Wjos.Core.SchedInv

namespace Wjos

open Lib

/-- The node through which a list at `p` queues a task. -/
def nodeOf : Place → TaskId → NodeId
  | .ready, t => .runNode t
  | .sleep, t => .runNode t
  | .mutexWait _, t => .waitNode t
  | .semWait _, t => .waitNode t

theorem embeds_nodeOf : Embeds nodeOf := by
  intro p r a b h
  cases p <;> cases r <;> first
    | exact NodeId.runNode.inj h
    | exact NodeId.waitNode.inj h
    | exact absurd h (by simp [nodeOf])

/-- The header of the list at `p`. -/
def Kernel.header (k : Kernel) : Place → ListT NodeId
  | .ready => k.readyList
  | .sleep => k.sleepList
  | .mutexWait m => (k.mutex m).waitList
  | .semWait n => (k.sem n).waitList

/-- The kernel state `k` represents the abstract state `s`. -/
structure Refines (k : Kernel) (s : Sched) : Prop where
  task_eq : k.task = s.task
  curr_eq : k.currTask = s.currTask
  locked_eq : ∀ m, (k.mutex m).lockedCount = s.lockedCount m
  owner_eq : ∀ m, (k.mutex m).owner = s.owner m
  count_eq : ∀ n, (k.sem n).count = s.semCount n
  reps : Reps nodeOf k.node k.header s.queue

namespace Refines

variable {k : Kernel} {s : Sched} {t : TaskId}

/-! ## Headers -/

theorem header_ready (k : Kernel) (h : NodeId → Links NodeId) (l : ListT NodeId) :
    Kernel.header { k with node := h, readyList := l } = Function.update k.header .ready l := by
  funext p
  cases p <;> rfl

theorem header_sleep (k : Kernel) (h : NodeId → Links NodeId) (l : ListT NodeId) :
    Kernel.header { k with node := h, sleepList := l } = Function.update k.header .sleep l := by
  funext p
  cases p <;> rfl

theorem header_setMutex (k : Kernel) (m : Nat) (x : Mutex) :
    (k.setMutex m x).header = Function.update k.header (.mutexWait m) x.waitList := by
  funext p
  cases p with
  | mutexWait n =>
    by_cases hn : n = m
    · subst hn
      simp [Kernel.header, Kernel.setMutex]
    · have hp : Place.mutexWait n ≠ Place.mutexWait m := by simpa using hn
      simp [Kernel.header, Kernel.setMutex, hn, hp]
  | _ => rfl

theorem header_setSem (k : Kernel) (n : Nat) (x : Sem) :
    (k.setSem n x).header = Function.update k.header (.semWait n) x.waitList := by
  funext p
  cases p with
  | semWait m =>
    by_cases hm : m = n
    · subst hm
      simp [Kernel.header, Kernel.setSem]
    · have hp : Place.semWait m ≠ Place.semWait n := by simpa using hm
      simp [Kernel.header, Kernel.setSem, hm, hp]
  | _ => rfl

/-- The list at `p` is empty exactly when its count is 0. -/
theorem count_eq_zero (hr : Refines k s) (p : Place) :
    (k.header p).count = 0 ↔ s.queue p = [] := by
  rw [(hr.reps p).count_eq_zero, List.map_eq_nil_iff]

theorem count_eq_length (hr : Refines k s) (p : Place) :
    (k.header p).count = (s.queue p).length := by
  rw [(hr.reps p).count_eq, List.length_map]

/-! ## The operations -/

/-- Changing task structures on both sides. -/
theorem setTask (hr : Refines k s) (x : TaskId → Task) :
    Refines { k with task := x } { s with task := x } :=
  ⟨rfl, hr.curr_eq, hr.locked_eq, hr.owner_eq, hr.count_eq, hr.reps⟩

theorem setState (hr : Refines k s) (st : TaskState) :
    Refines (Kernel.setState k t st) (s.setState t st) := by
  have h₁ := hr.setTask (Function.update k.task t { k.task t with state := st })
  unfold Kernel.setState Sched.setState
  rw [← hr.task_eq]
  exact h₁

theorem setReady (hr : Refines k s) (hq : Placed s.queue) (ht : ∀ p, t ∉ s.queue p) :
    Refines (taskSetReady k t) (s.setReady t) := by
  unfold taskSetReady Sched.setReady
  split
  · exact hr
  · have h₁ := hr.reps.insertLast embeds_nodeOf hq (p := .ready) ht
    have h₂ : Refines
        { k with
          node := (listInsertLast k.node k.readyList (.runNode t)).1
          readyList := (listInsertLast k.node k.readyList (.runNode t)).2 }
        { s with queue := Lib.enqueue s.queue .ready t } := by
      refine ⟨hr.task_eq, hr.curr_eq, hr.locked_eq, hr.owner_eq, hr.count_eq, ?_⟩
      rw [header_ready]
      exact h₁
    exact h₂.setState .ready

theorem setBlock (hr : Refines k s) (hq : Placed s.queue) (ht : t ≠ .idle → t ∈ s.queue .ready) :
    Refines (taskSetBlock k t) (s.setBlock t) := by
  unfold taskSetBlock Sched.setBlock
  split
  · exact hr
  · rename_i hidle
    refine ⟨hr.task_eq, hr.curr_eq, hr.locked_eq, hr.owner_eq, hr.count_eq, ?_⟩
    have h₁ := hr.reps.remove embeds_nodeOf hq (p := .ready) (ht hidle)
    dsimp only
    rw [header_ready]
    exact h₁

theorem setSleep (hr : Refines k s) (hq : Placed s.queue) (ht : ∀ p, t ∉ s.queue p)
    (ticks : UInt32) : Refines (taskSetSleep k t ticks) (s.setSleep t ticks) := by
  unfold taskSetSleep Sched.setSleep
  split
  · exact hr
  · dsimp only
    have h₁ := hr.reps.insertLast embeds_nodeOf hq (p := .sleep) ht
    have h₂ : Refines
        { k with
          node := (listInsertLast k.node k.sleepList (.runNode t)).1
          sleepList := (listInsertLast k.node k.sleepList (.runNode t)).2 }
        { s with queue := Lib.enqueue s.queue .sleep t } := by
      refine ⟨hr.task_eq, hr.curr_eq, hr.locked_eq, hr.owner_eq, hr.count_eq, ?_⟩
      rw [header_sleep]
      exact h₁
    have h₃ := h₂.setTask (Function.update s.task t
      { s.task t with sleepTicks := ticks.toNat, state := .sleep })
    rw [hr.task_eq]
    exact h₃

theorem setWakeup (hr : Refines k s) (hq : Placed s.queue) (ht : t ∈ s.queue .sleep) :
    Refines (taskSetWakeup k t) (s.setWakeup t) := by
  unfold taskSetWakeup Sched.setWakeup
  refine ⟨hr.task_eq, hr.curr_eq, hr.locked_eq, hr.owner_eq, hr.count_eq, ?_⟩
  have h₁ := hr.reps.remove embeds_nodeOf hq (p := .sleep) ht
  dsimp only
  rw [header_sleep]
  exact h₁

theorem nextRun_eq (hr : Refines k s) : taskNextRun k = s.nextRun := by
  have hc : k.readyList.count = 0 ↔ s.queue .ready = [] := hr.count_eq_zero .ready
  have hf := (hr.reps .ready).first_eq
  unfold taskNextRun Sched.nextRun
  cases hq : s.queue .ready with
  | nil =>
    rw [if_pos (hc.mpr hq)]
    rfl
  | cons u l =>
    have hne : ¬ k.readyList.count = 0 := fun h0 => by
      have := hc.mp h0
      simp [hq] at this
    rw [hq] at hf
    have hf' : k.readyList.first = some (.runNode u) := hf
    rw [if_neg hne, hf']
    rfl

theorem dispatch (hr : Refines k s) : Refines (taskDispatch k) s.dispatch := by
  unfold taskDispatch Sched.dispatch
  rw [hr.nextRun_eq, hr.curr_eq]
  dsimp only
  split
  · exact setState
      (k := { k with currTask := s.nextRun }) (s := { s with currTask := s.nextRun })
      ⟨hr.task_eq, rfl, hr.locked_eq, hr.owner_eq, hr.count_eq, hr.reps⟩ _
  · exact hr

theorem yeild (hr : Refines k s) (h : Sched.Inv s) (hidle : s.currTask ≠ .idle) :
    Refines (sysYeild k) s.yeild := by
  have hc : k.readyList.count > 1 ↔ (s.queue .ready).length > 1 := by
    have := hr.count_eq_length .ready
    have hh : (k.header .ready).count = k.readyList.count := rfl
    omega
  unfold sysYeild Sched.yeild
  rw [hr.curr_eq]
  by_cases hl : (s.queue .ready).length > 1
  · rw [if_pos hl, if_pos (hc.mpr hl)]
    have hm := h.curr_mem hidle
    exact ((hr.setBlock h.placed fun _ => hm).setReady (h.setBlock s.currTask).placed
      (h.notMem_setBlock hidle hm)).dispatch
  · rw [if_neg hl, if_neg fun hk => hl (hc.mp hk)]
    exact hr

/-! ## The clock tick -/

theorem tickSlice (hr : Refines k s) (h : Sched.Inv s) : Refines (tickSlice k) s.tickSlice := by
  have hdef : Wjos.tickSlice k =
      if (s.task s.currTask).sliceTicks - 1 = 0 then
        taskSetReady (taskSetBlock
          { k with
            task := Function.update s.task s.currTask
              { s.task s.currTask with sliceTicks := (s.task s.currTask).timeTicks } }
          s.currTask) s.currTask
      else
        { k with
          task := Function.update s.task s.currTask
            { s.task s.currTask with sliceTicks := (s.task s.currTask).sliceTicks - 1 } } := by
    rw [← hr.task_eq, ← hr.curr_eq]
    rfl
  rw [hdef]
  unfold Sched.tickSlice
  dsimp only
  split
  · have h₁ := h.setTask_of_state (t := s.currTask)
      { s.task s.currTask with sliceTicks := (s.task s.currTask).timeTicks } rfl
    have hr₁ := hr.setTask (Function.update s.task s.currTask
      { s.task s.currTask with sliceTicks := (s.task s.currTask).timeTicks })
    by_cases hidle : s.currTask = .idle
    · unfold taskSetReady taskSetBlock Sched.setReady Sched.setBlock
      rw [if_pos hidle, if_pos hidle, if_pos hidle, if_pos hidle]
      exact hr₁
    · have hm := h.curr_mem hidle
      exact (hr₁.setBlock h₁.placed fun _ => hm).setReady (h₁.setBlock s.currTask).placed
        (h₁.notMem_setBlock hidle hm)
  · exact hr.setTask _

theorem tickSleeper (hr : Refines k s) (h : Sched.Sound s) (ht : t ∈ s.queue .sleep) :
    Refines (tickSleeper k t) (s.tickSleeper t) := by
  unfold Wjos.tickSleeper Sched.tickSleeper
  dsimp only
  rw [hr.task_eq]
  have h₁ := h.setTask_of_state (t := t)
    { s.task t with sleepTicks := (s.task t).sleepTicks - 1 } rfl
  have hr₁ := hr.setTask (Function.update s.task t
    { s.task t with sleepTicks := (s.task t).sleepTicks - 1 })
  split
  · exact (hr₁.setWakeup h₁.placed ht).setReady (h₁.dequeue .sleep t).placed
      (notMem_dequeue h₁.placed ht)
  · exact hr₁

/-- The walk over the links visits exactly the tasks of the sleep queue,
in order: when it stands at the first of the tasks `l` that make up the
rest of the queue, it treats all of `l` and stops. -/
theorem tickSleepers (fuel : Nat) (l front : List TaskId) (hr : Refines k s)
    (h : Sched.Sound s) (hl : s.queue .sleep = front ++ l) (hf : l.length ≤ fuel) :
    Refines (tickSleepers fuel (l.head?.map .runNode) k) (l.foldl Sched.tickSleeper s) := by
  induction l generalizing fuel k s front with
  | nil =>
    cases fuel with
    | zero => exact hr
    | succ fuel => exact hr
  | cons u l ih =>
    cases fuel with
    | zero => simp at hf
    | succ fuel =>
      have hmem : u ∈ s.queue .sleep := by rw [hl]; simp
      have hnext : (k.node (.runNode u)).next = l.head?.map .runNode := by
        have hseg := (hr.reps .sleep).seg
        rw [hl, List.map_append, List.map_cons] at hseg
        have hne := hseg.next_eq
        rw [Option.or_none, List.head?_map] at hne
        exact hne
      rw [List.head?_cons, Option.map_some, Wjos.tickSleepers, hnext, List.foldl_cons]
      -- after the body `u` is still asleep, or it has left the queue
      have hrest : ∃ front', (s.tickSleeper u).queue .sleep = front' ++ l := by
        unfold Sched.tickSleeper
        dsimp only
        split
        · refine ⟨front, ?_⟩
          have hd : Lib.dequeue s.queue .sleep u .sleep = front ++ l := by
            rw [dequeue_self, h.placed.erase_split hl]
          by_cases hidle : u = .idle
          · unfold Sched.setReady
            rw [if_pos hidle]
            exact hd
          · rw [Sched.queue_setReady _ hidle, enqueue_of_ne _ _ (by simp)]
            exact hd
        · exact ⟨front ++ [u], by simpa using hl⟩
      obtain ⟨front', hfront⟩ := hrest
      exact ih fuel front' (hr.tickSleeper h hmem) (h.tickSleeper hmem) hfront
        (by simpa using hf)

theorem tick (hr : Refines k s) (h : Sched.Inv s) : Refines (taskTimeTick k) s.tick := by
  have hr₁ := hr.tickSlice h
  have h₁ := h.tickSlice
  have hfirst : (Wjos.tickSlice k).sleepList.first
      = (s.tickSlice.queue .sleep).head?.map .runNode := by
    have hf := (hr₁.reps .sleep).first_eq
    rw [List.head?_map] at hf
    exact hf
  have hcount : (s.tickSlice.queue .sleep).length
      ≤ (Wjos.tickSlice k).sleepList.count.toNat := by
    have hc := hr₁.count_eq_length .sleep
    have hh : ((Wjos.tickSlice k).header .sleep).count
      = (Wjos.tickSlice k).sleepList.count := rfl
    omega
  unfold taskTimeTick Sched.tick
  dsimp only
  rw [hfirst]
  exact (hr₁.tickSleepers _ _ [] h₁ rfl hcount).dispatch

/-! ## Blocking, waking and the system calls -/

theorem sleep (hr : Refines k s) (h : Sched.Inv s) (hidle : s.currTask ≠ .idle) (ms : UInt32) :
    Refines (sysSleep k ms) (s.sleep ms) := by
  have hm := h.curr_mem hidle
  unfold sysSleep Sched.sleep
  rw [hr.curr_eq]
  exact ((hr.setBlock h.placed fun _ => hm).setSleep (h.setBlock s.currTask).placed
    (h.notMem_setBlock hidle hm) _).dispatch

/-- The current task leaves the ready list and its node is appended to
the wait list of a mutex. -/
theorem blockAtMutex (hr : Refines k s) (h : Sched.Inv s) (hidle : s.currTask ≠ .idle) (m : Nat) :
    Refines
      (taskDispatch (Kernel.setMutex
        { taskSetBlock k s.currTask with
          node := (listInsertLast (taskSetBlock k s.currTask).node (k.mutex m).waitList
            (.waitNode s.currTask)).1 } m
        { k.mutex m with
          waitList := (listInsertLast (taskSetBlock k s.currTask).node (k.mutex m).waitList
            (.waitNode s.currTask)).2 }))
      (s.blockAt (.mutexWait m)) := by
  have hm := h.curr_mem hidle
  have hr₁ := hr.setBlock h.placed (t := s.currTask) fun _ => hm
  have h₁ := h.setBlock s.currTask
  have hmx : (taskSetBlock k s.currTask).mutex = k.mutex := by
    unfold taskSetBlock
    split <;> rfl
  have hins := hr₁.reps.insertLast embeds_nodeOf h₁.placed (p := .mutexWait m)
    (h.notMem_setBlock hidle hm)
  have hh : (taskSetBlock k s.currTask).header (.mutexWait m) = (k.mutex m).waitList := by
    unfold Kernel.header
    dsimp only
    rw [hmx]
  rw [hh] at hins
  refine dispatch ⟨hr₁.task_eq, hr₁.curr_eq, fun n => ?_, fun n => ?_, hr₁.count_eq, ?_⟩
  · by_cases hn : n = m
    · subst hn
      simpa [Kernel.setMutex, hmx] using hr₁.locked_eq n
    · simpa [Kernel.setMutex, hn] using hr₁.locked_eq n
  · by_cases hn : n = m
    · subst hn
      simpa [Kernel.setMutex, hmx] using hr₁.owner_eq n
    · simpa [Kernel.setMutex, hn] using hr₁.owner_eq n
  · rw [header_setMutex]
    exact hins

/-- The current task leaves the ready list and its node is appended to
the wait list of a semaphore. -/
theorem blockAtSem (hr : Refines k s) (h : Sched.Inv s) (hidle : s.currTask ≠ .idle) (n : Nat) :
    Refines
      (taskDispatch (Kernel.setSem
        { taskSetBlock k s.currTask with
          node := (listInsertLast (taskSetBlock k s.currTask).node (k.sem n).waitList
            (.waitNode s.currTask)).1 } n
        { k.sem n with
          waitList := (listInsertLast (taskSetBlock k s.currTask).node (k.sem n).waitList
            (.waitNode s.currTask)).2 }))
      (s.blockAt (.semWait n)) := by
  have hm := h.curr_mem hidle
  have hr₁ := hr.setBlock h.placed (t := s.currTask) fun _ => hm
  have h₁ := h.setBlock s.currTask
  have hsm : (taskSetBlock k s.currTask).sem = k.sem := by
    unfold taskSetBlock
    split <;> rfl
  have hins := hr₁.reps.insertLast embeds_nodeOf h₁.placed (p := .semWait n)
    (h.notMem_setBlock hidle hm)
  have hh : (taskSetBlock k s.currTask).header (.semWait n) = (k.sem n).waitList := by
    unfold Kernel.header
    dsimp only
    rw [hsm]
  rw [hh] at hins
  refine dispatch ⟨hr₁.task_eq, hr₁.curr_eq, hr₁.locked_eq, hr₁.owner_eq, fun r => ?_, ?_⟩
  · by_cases hr' : r = n
    · subst hr'
      simpa [Kernel.setSem, hsm] using hr₁.count_eq r
    · simpa [Kernel.setSem, hr'] using hr₁.count_eq r
  · rw [header_setSem]
    exact hins

/-- Storing the count and owner of a mutex on both sides. -/
theorem storeMutex (hr : Refines k s) (m : Nat) (c : Int) (o : Option TaskId) :
    Refines (k.setMutex m ⟨c, o, (k.mutex m).waitList⟩)
      { s with
        lockedCount := Function.update s.lockedCount m c
        owner := Function.update s.owner m o } := by
  refine ⟨hr.task_eq, hr.curr_eq, fun n => ?_, fun n => ?_, hr.count_eq, ?_⟩
  · by_cases hn : n = m
    · subst hn
      simp [Kernel.setMutex]
    · simpa [Kernel.setMutex, hn] using hr.locked_eq n
  · by_cases hn : n = m
    · subst hn
      simp [Kernel.setMutex]
    · simpa [Kernel.setMutex, hn] using hr.owner_eq n
  · have hh : (k.setMutex m ⟨c, o, (k.mutex m).waitList⟩).header = k.header := by
      rw [header_setMutex]
      exact Function.update_eq_self (Place.mutexWait m) k.header
    rw [hh]
    exact hr.reps

theorem lock (hr : Refines k s) (h : Sched.Inv s) (hidle : s.currTask ≠ .idle) (m : Nat) :
    Refines (mutexLock k m) (s.lock m) := by
  have hb := hr.blockAtMutex h hidle m
  have hs := hr.storeMutex m
  have ho := hr.owner_eq m
  obtain ⟨task, curr, queue, lockedCount, owner, semCount⟩ := s
  obtain rfl : k.currTask = curr := hr.curr_eq
  unfold mutexLock Sched.lock
  rw [← hr.locked_eq m, ← ho]
  dsimp only at hb hs ho ⊢
  split
  · exact hs _ _
  · split
    · have h₁ := hs (cInt ((k.mutex m).lockedCount + 1)) (k.mutex m).owner
      rw [ho, Function.update_eq_self] at h₁
      rw [ho]
      exact h₁
    · exact hb

/-- The first waiter of the list at `p`. -/
theorem removeFirst (hr : Refines k s) (hq : Placed s.queue) {p : Place} {l : List TaskId}
    (hl : s.queue p = t :: l) :
    (listRemoveFirst k.node (k.header p)).2.2 = some (nodeOf p t) ∧
      Reps nodeOf (listRemoveFirst k.node (k.header p)).1
        (Function.update k.header p (listRemoveFirst k.node (k.header p)).2.1)
        (Lib.dequeue s.queue p t) :=
  hr.reps.removeFirst embeds_nodeOf hq hl

/-- Setting a task ready does not look at the mutexes. -/
theorem taskSetReady_setMutex (k : Kernel) (t : TaskId) (m : Nat) (x : Mutex) :
    taskSetReady (k.setMutex m x) t = (taskSetReady k t).setMutex m x := by
  unfold taskSetReady
  split <;> rfl

/-- Passing the ownership of a mutex to its first waiter. -/
theorem handOver (hr : Refines k s) (h : Sched.Inv s) (m : Nat) {l : List TaskId}
    (hq : s.queue (.mutexWait m) = t :: l) :
    Refines
      (taskDispatch (Kernel.setMutex
        (taskSetReady { k with node := (listRemoveFirst k.node (k.mutex m).waitList).1 } t) m
        ⟨1, some t, (listRemoveFirst k.node (k.mutex m).waitList).2.1⟩))
      (Sched.dispatch
        { Sched.setReady { s with queue := Lib.dequeue s.queue (.mutexWait m) t } t with
          lockedCount := Function.update s.lockedCount m 1
          owner := Function.update s.owner m (some t) }) := by
  obtain ⟨-, hreps⟩ := hr.removeFirst h.placed hq
  have hd := h.dequeue (.mutexWait m) t
  have hout := notMem_dequeue h.placed (p := .mutexWait m) (a := t) (by rw [hq]; simp)
  have hr₁ : Refines
      (Kernel.setMutex { k with node := (listRemoveFirst k.node (k.mutex m).waitList).1 } m
        ⟨1, some t, (listRemoveFirst k.node (k.mutex m).waitList).2.1⟩)
      { s with
        queue := Lib.dequeue s.queue (.mutexWait m) t
        lockedCount := Function.update s.lockedCount m 1
        owner := Function.update s.owner m (some t) } := by
    refine ⟨hr.task_eq, hr.curr_eq, fun n => ?_, fun n => ?_, hr.count_eq, ?_⟩
    · by_cases hn : n = m
      · subst hn
        simp [Kernel.setMutex]
      · simpa [Kernel.setMutex, hn] using hr.locked_eq n
    · by_cases hn : n = m
      · subst hn
        simp [Kernel.setMutex]
      · simpa [Kernel.setMutex, hn] using hr.owner_eq n
    · rw [header_setMutex]
      exact hreps
  have hr₂ := (hr₁.setReady hd.placed hout).dispatch
  have hs := Sched.setReady_storeMutex { s with queue := Lib.dequeue s.queue (.mutexWait m) t } t
    (Function.update s.lockedCount m 1) (Function.update s.owner m (some t))
  dsimp only at hs
  rw [taskSetReady_setMutex, hs] at hr₂
  exact hr₂

theorem unlock (hr : Refines k s) (h : Sched.Inv s) (m : Nat) :
    Refines (mutexUnlock k m) (s.unlock m) := by
  have hs := hr.storeMutex m
  have ho := hr.owner_eq m
  have hc : (k.mutex m).waitList.count = (s.queue (.mutexWait m)).length :=
    hr.count_eq_length (.mutexWait m)
  obtain ⟨task, curr, queue, lockedCount, owner, semCount⟩ := s
  obtain rfl : k.currTask = curr := hr.curr_eq
  unfold mutexUnlock Sched.unlock
  rw [← hr.locked_eq m, ← ho]
  dsimp only at hs ho hc ⊢
  split
  · split
    · cases hq : queue (.mutexWait m) with
      | nil =>
        have h0 : ¬ (k.mutex m).waitList.count > 0 := by rw [hc, hq]; simp
        rw [if_neg h0]
        exact hs _ none
      | cons t l =>
        have h0 : (k.mutex m).waitList.count > 0 := by rw [hc, hq]; simp
        have hres : (listRemoveFirst k.node (k.mutex m).waitList).2.2 = some (.waitNode t) :=
          (hr.removeFirst (p := .mutexWait m) h.placed hq).1
        have ht : waitNodeParent (listRemoveFirst k.node (k.mutex m).waitList).2.2 = t := by
          rw [hres]
          rfl
        rw [if_pos h0, ht]
        exact hr.handOver h m hq
    · have h₁ := hs (cInt ((k.mutex m).lockedCount - 1)) (k.mutex m).owner
      rw [ho, Function.update_eq_self] at h₁
      rw [ho]
      exact h₁
  · exact hr

/-- Storing the count of a semaphore on both sides. -/
theorem storeSem (hr : Refines k s) (n : Nat) (c : Int) :
    Refines (k.setSem n ⟨c, (k.sem n).waitList⟩)
      { s with semCount := Function.update s.semCount n c } := by
  refine ⟨hr.task_eq, hr.curr_eq, hr.locked_eq, hr.owner_eq, fun r => ?_, ?_⟩
  · by_cases hrn : r = n
    · subst hrn
      simp [Kernel.setSem]
    · simpa [Kernel.setSem, hrn] using hr.count_eq r
  · have hh : (k.setSem n ⟨c, (k.sem n).waitList⟩).header = k.header := by
      rw [header_setSem]
      exact Function.update_eq_self (Place.semWait n) k.header
    rw [hh]
    exact hr.reps

theorem semWait (hr : Refines k s) (h : Sched.Inv s) (hidle : s.currTask ≠ .idle) (n : Nat) :
    Refines (semWait k n) (s.semWait n) := by
  have hb := hr.blockAtSem h hidle n
  rw [← hr.curr_eq] at hb
  unfold Wjos.semWait Sched.semWait
  rw [← hr.count_eq n]
  dsimp only
  split
  · exact hr.storeSem n _
  · exact hb

theorem semNotify (hr : Refines k s) (h : Sched.Inv s) (n : Nat) :
    Refines (semNotify k n) (s.semNotify n) := by
  unfold Wjos.semNotify Sched.semNotify
  rw [← hr.count_eq n]
  dsimp only
  have hc : (k.sem n).waitList.count = (s.queue (.semWait n)).length :=
    hr.count_eq_length (.semWait n)
  cases hq : s.queue (.semWait n) with
  | nil =>
    have h0 : ¬ (k.sem n).waitList.count > 0 := by rw [hc, hq]; simp
    rw [if_neg h0]
    exact hr.storeSem n _
  | cons t l =>
    have h0 : (k.sem n).waitList.count > 0 := by rw [hc, hq]; simp
    obtain ⟨hres, hreps⟩ := hr.removeFirst h.placed hq
    have ht : waitNodeParent (listRemoveFirst k.node (k.sem n).waitList).2.2 = t := by
      rw [show (listRemoveFirst k.node (k.sem n).waitList).2.2 = _ from hres]
      rfl
    rw [if_pos h0, ht]
    have hd := h.dequeue (.semWait n) t
    have hout := notMem_dequeue h.placed (p := .semWait n) (a := t) (by rw [hq]; simp)
    have hr₁ : Refines
        (Kernel.setSem { k with node := (listRemoveFirst k.node (k.sem n).waitList).1 } n
          { k.sem n with waitList := (listRemoveFirst k.node (k.sem n).waitList).2.1 })
        { s with queue := Lib.dequeue s.queue (.semWait n) t } := by
      refine ⟨hr.task_eq, hr.curr_eq, hr.locked_eq, hr.owner_eq, fun r => ?_, ?_⟩
      · by_cases hrn : r = n
        · subst hrn
          simpa [Kernel.setSem] using hr.count_eq r
        · simpa [Kernel.setSem, hrn] using hr.count_eq r
      · rw [header_setSem]
        exact hreps
    exact (hr₁.setReady hd.placed hout).dispatch

/-- Clearing the links of a task that stands in no queue. -/
theorem clearNodes (hr : Refines k s) (ht : ∀ p, t ∉ s.queue p) :
    Refines
      { k with
        node := Function.update (Function.update k.node (.runNode t) nodeInit)
          (.waitNode t) nodeInit } s := by
  refine ⟨hr.task_eq, hr.curr_eq, hr.locked_eq, hr.owner_eq, hr.count_eq, fun p => ?_⟩
  refine (hr.reps p).congr fun a ha => ?_
  have h₁ : a ≠ .runNode t := by
    rintro rfl
    obtain ⟨b, hb, he⟩ := List.mem_map.mp ha
    cases p <;> simp [nodeOf] at he
    · exact ht _ (he ▸ hb)
    · exact ht _ (he ▸ hb)
  have h₂ : a ≠ .waitNode t := by
    rintro rfl
    obtain ⟨b, hb, he⟩ := List.mem_map.mp ha
    cases p <;> simp [nodeOf] at he
    · exact ht _ (he ▸ hb)
    · exact ht _ (he ▸ hb)
  show Function.update (Function.update k.node (.runNode t) nodeInit) (.waitNode t) nodeInit a
    = k.node a
  rw [Function.update_of_ne h₂, Function.update_of_ne h₁]

theorem fork (hr : Refines k s) (h : Sched.Inv s) (ht : (s.task t).state = .created) :
    Refines (sysForkStart k t) (s.fork t) := by
  have hout : ∀ p, t ∉ s.queue p := h.notMem (by rw [ht]; rfl)
  have h₁ := h.setTask (t := t) (Sched.freshTask s.currTask) fun p hp => absurd hp (hout p)
  have hr₁ := ((hr.clearNodes hout).setTask
    (Function.update s.task t (Sched.freshTask s.currTask))).setReady h₁.placed hout
  have htask : Function.update (taskInit k t).task t
      { (taskInit k t).task t with parent := some k.currTask }
      = Function.update s.task t (Sched.freshTask s.currTask) := by
    rw [← hr.task_eq, ← hr.curr_eq]
    unfold taskInit Sched.freshTask
    simp
  unfold sysForkStart taskStart Sched.fork
  dsimp only
  rw [htask]
  exact hr₁

theorem isZombieChild_eq (hr : Refines k s) : isZombieChild k = s.isZombieChild := by
  funext t i
  unfold isZombieChild Sched.isZombieChild
  rw [hr.task_eq]

theorem waitScan (hr : Refines k s) (h : Sched.Inv s) :
    Refines (sysWaitScan k).1 s.waitScan := by
  unfold sysWaitScan Sched.waitScan
  rw [hr.isZombieChild_eq, ← hr.curr_eq]
  cases hf : findSlot (s.isZombieChild k.currTask) taskNr 0 with
  | none => exact hr
  | some i =>
    have hz := (findSlot_eq_some hf).1
    simp only [Sched.isZombieChild, Bool.and_eq_true, decide_eq_true_eq] at hz
    have hout := h.notMem (t := .slot i) (by rw [hz.2]; rfl)
    have hr₁ := (hr.clearNodes hout).setTask (Function.update s.task (.slot i) Task.zero)
    dsimp only
    rw [hr.task_eq]
    rw [← hr.curr_eq] at hr₁
    exact hr₁

theorem waitBlock (hr : Refines k s) (h : Sched.Inv s) (hidle : s.currTask ≠ .idle) :
    Refines (sysWaitBlock k) s.waitBlock := by
  unfold sysWaitBlock Sched.waitBlock
  rw [hr.curr_eq]
  exact ((hr.setBlock h.placed fun _ => h.curr_mem hidle).setState _).dispatch

theorem reparent_eq (hr : Refines k s) (t : TaskId) : reparent k t = s.reparent t := by
  funext u
  have htask := hr.task_eq
  cases u <;> simp only [reparent, Sched.reparent, htask]

theorem exitReparent (hr : Refines k s) : Refines (sysExitReparent k).1 s.exitReparent := by
  unfold sysExitReparent Sched.exitReparent
  dsimp only
  rw [hr.reparent_eq, ← hr.curr_eq]
  have hr₁ := hr.setTask (s.reparent k.currTask)
  rw [← hr.curr_eq] at hr₁
  exact hr₁

theorem exitWakeFirst (hr : Refines k s) (h : Sched.Sound s) (moveChild : Bool) :
    Refines (exitWakeFirst k moveChild) (s.exitWakeFirst moveChild) := by
  unfold Wjos.exitWakeFirst Sched.exitWakeFirst
  rw [hr.task_eq, hr.curr_eq]
  split
  · rename_i hc
    exact hr.setReady h.placed (h.notMem (by rw [hc.2.2]; rfl))
  · exact hr

theorem wakeParent (hr : Refines k s) (h : Sched.Sound s) (t : TaskId) :
    Refines (if (k.task t).state = .waitting then taskSetReady k t else k)
      (if (s.task t).state = .waitting then s.setReady t else s) := by
  rw [hr.task_eq]
  split
  · rename_i hw
    exact hr.setReady h.placed (h.notMem (by rw [hw]; rfl))
  · exact hr

/-- A ready task becomes a zombie and leaves the ready list. -/
theorem becomeZombie (hr : Refines k s) (h : Sched.Sound s) (ht : t ∈ s.queue .ready)
    (status : Int) :
    Refines
      (taskDispatch (taskSetBlock
        { k with
          task := Function.update k.task t { k.task t with state := .zombie, status := status } }
        t))
      (Sched.dispatch (Sched.setBlock
        { s with
          task := Function.update s.task t { s.task t with state := .zombie, status := status } }
        t)) := by
  have hr₁ := hr.setTask
    (Function.update s.task t { s.task t with state := .zombie, status := status })
  have hr₂ := (hr₁.setBlock h.placed fun _ => ht).dispatch
  rw [hr.task_eq]
  exact hr₂

theorem exitFinal (hr : Refines k s) (h : Sched.Inv s) (hidle : s.currTask ≠ .idle)
    {moveChild : Bool} {status : Int} {k' : Kernel}
    (hk : sysExitFinal k moveChild status = some k') :
    ∃ s', s.exitFinal moveChild status = some s' ∧ Refines k' s' := by
  have hparent : (k.task k.currTask).parent = (s.task s.currTask).parent := by
    rw [hr.task_eq, hr.curr_eq]
  unfold sysExitFinal at hk
  unfold Sched.exitFinal
  rw [hparent] at hk
  cases hp : (s.task s.currTask).parent with
  | none =>
    rw [hp] at hk
    exact absurd hk (by simp)
  | some parent =>
    rw [hp] at hk
    dsimp only at hk ⊢
    rw [Option.some.injEq, hr.curr_eq] at hk
    subst hk
    have hr₁ := hr.exitWakeFirst h.toSound moveChild
    have h₁ := h.toSound.exitWakeFirst moveChild
    exact ⟨_, rfl, (hr₁.wakeParent h₁ parent).becomeZombie (h₁.wakeParent parent)
      (Sched.mem_exitWake (h.curr_mem hidle) moveChild parent) status⟩

end Refines

/-! ## Events and runs -/

/-- Each kernel event is matched by the abstract event. -/
theorem refines_step {k k' : Kernel} {s : Sched} {e : Event} (hr : Refines k s)
    (h : Sched.Inv s) (hk : kernelStep k e = some k') :
    ∃ s', schedStep s e = some s' ∧ Refines k' s' := by
  unfold kernelStep at hk
  unfold schedStep
  rw [hr.curr_eq] at hk
  split at hk
  · exact absurd hk (by simp)
  · rename_i hguard
    rw [if_neg hguard]
    have hidle : isInterrupt e = false → s.currTask ≠ .idle :=
      fun he hc => hguard ⟨hc, he⟩
    cases e with
    | tick =>
      rw [taskCall, Option.some.injEq] at hk
      exact ⟨_, rfl, hk ▸ hr.tick h⟩
    | yeild =>
      rw [taskCall, Option.some.injEq] at hk
      exact ⟨_, rfl, hk ▸ hr.yeild h (hidle rfl)⟩
    | sleep ms =>
      rw [taskCall, Option.some.injEq] at hk
      exact ⟨_, rfl, hk ▸ hr.sleep h (hidle rfl) ms⟩
    | lock m =>
      rw [taskCall, Option.some.injEq] at hk
      exact ⟨_, rfl, hk ▸ hr.lock h (hidle rfl) m⟩
    | unlock m =>
      rw [taskCall, Option.some.injEq] at hk
      exact ⟨_, rfl, hk ▸ hr.unlock h m⟩
    | semWait n =>
      rw [taskCall, Option.some.injEq] at hk
      exact ⟨_, rfl, hk ▸ hr.semWait h (hidle rfl) n⟩
    | semNotify n =>
      rw [taskCall, Option.some.injEq] at hk
      exact ⟨_, rfl, hk ▸ hr.semNotify h n⟩
    | fork i =>
      rw [taskCall, hr.task_eq] at hk
      rw [schedCall]
      split at hk
      · rename_i hi
        rw [Option.some.injEq] at hk
        rw [if_pos hi]
        exact ⟨_, rfl, hk ▸ hr.fork h hi.2⟩
      · exact absurd hk (by simp)
    | waitScan =>
      rw [taskCall, Option.some.injEq] at hk
      exact ⟨_, rfl, hk ▸ hr.waitScan h⟩
    | waitBlock =>
      rw [taskCall, Option.some.injEq] at hk
      exact ⟨_, rfl, hk ▸ hr.waitBlock h (hidle rfl)⟩
    | exitReparent =>
      rw [taskCall, Option.some.injEq] at hk
      exact ⟨_, rfl, hk ▸ hr.exitReparent⟩
    | exitFinal moveChild status => exact hr.exitFinal h (hidle rfl) hk

theorem refines_init (counts : Nat → Int) : Refines (kernelInit counts) (schedInit counts) := by
  refine ⟨rfl, rfl, fun _ => rfl, fun _ => rfl, fun _ => rfl, fun p => ?_⟩
  cases p with
  | ready => exact ⟨rfl, rfl, rfl, by simp [schedInit], rfl, rfl, trivial⟩
  | _ => exact rep_listInit _

/-- A run of the kernel is matched by a run of the abstract scheduler,
which keeps its invariant. -/
theorem refines_run {k k' : Kernel} {s : Sched} {es : List Event} (hr : Refines k s)
    (h : Sched.Inv s) (hk : run kernelStep k es = some k') :
    ∃ s', run schedStep s es = some s' ∧ Refines k' s' ∧ Sched.Inv s' := by
  induction es generalizing k s with
  | nil =>
    rw [run_nil, Option.some.injEq] at hk
    exact ⟨s, rfl, hk ▸ hr, h⟩
  | cons e es ih =>
    obtain ⟨k₁, hk₁, hrun⟩ := run_cons_eq_some.mp hk
    obtain ⟨s₁, hs₁, hr₁⟩ := refines_step hr h hk₁
    obtain ⟨s', hs', hr', h'⟩ := ih hr₁ (Sched.inv_step s e s₁ h hs₁) hrun
    exact ⟨s', run_cons_eq_some.mpr ⟨s₁, hs₁, hs'⟩, hr', h'⟩

end Wjos
