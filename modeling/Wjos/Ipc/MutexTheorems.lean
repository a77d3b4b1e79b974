/-
Wjos.Ipc.MutexTheorems — the protocol of the recursive mutex.

`MutexHist` is a history of one mutex: it is kept beside the kernel, sees
only who runs before and after an event and who the recorded owner is, and
notes

* how many lock calls of each task have returned without being undone;
* whose lock call has not returned yet;
* the tasks whose calls blocked, and the tasks that ownership was passed
  to, each in order.

A lock call returns at once when its task is still the current one after
the event; otherwise it returns when its task is next dispatched.

`MutexInv` ties the history to the abstract scheduler; `mutex_protocol_ok`
is what it says about the kernel. The count is a C `int`, so the nesting
depth has to stay below 2^31; `nested_locks_overflow` is a run that does
not.
-/
import Wjos.Core.SchedFrame
import Wjos.Core.SchedTheorems

namespace Wjos

open Lib

/-- What has happened at one mutex. -/
structure MutexHist where
  depth : TaskId → Nat
  pending : TaskId → Bool
  blocked : List TaskId
  passed : List TaskId

namespace MutexHist

/-- Nobody has called yet. -/
def init : MutexHist := ⟨fun _ => 0, fun _ => false, [], []⟩

/-- A lock call of `t` returns. -/
def acquire (g : MutexHist) (t : TaskId) : MutexHist :=
  { g with
    depth := Function.update g.depth t (g.depth t + 1)
    pending := Function.update g.pending t false }

/-- `t` is dispatched: a blocked lock call of `t` returns. -/
def resume (g : MutexHist) (t : TaskId) : MutexHist := if g.pending t then g.acquire t else g

/-- The calls on mutex `m`. -/
def call (g : MutexHist) (m : Nat) (curr curr' : TaskId) (owner owner' : Option TaskId) :
    Event → MutexHist
  | .lock n =>
    if n = m then
      if curr' = curr then g.acquire curr
      else
        { g with
          pending := Function.update g.pending curr true
          blocked := g.blocked ++ [curr] }
    else g
  | .unlock n =>
    if n = m then
      { g with
        depth := Function.update g.depth curr (g.depth curr - 1)
        passed := if owner' = owner then g.passed else g.passed ++ owner'.toList }
    else g
  | _ => g

theorem call_lock (g : MutexHist) (m : Nat) (curr curr' : TaskId) (owner owner' : Option TaskId) :
    g.call m curr curr' owner owner' (.lock m) =
      if curr' = curr then g.acquire curr
      else
        { g with
          pending := Function.update g.pending curr true
          blocked := g.blocked ++ [curr] } := if_pos rfl

theorem call_unlock (g : MutexHist) (m : Nat) (curr curr' : TaskId)
    (owner owner' : Option TaskId) :
    g.call m curr curr' owner owner' (.unlock m) =
      { g with
        depth := Function.update g.depth curr (g.depth curr - 1)
        passed := if owner' = owner then g.passed else g.passed ++ owner'.toList } := if_pos rfl

/-- A call on another mutex, and any other event, is not noted. -/
theorem call_of_place_ne (g : MutexHist) {m : Nat} {e : Event} (he : e.place ≠ some (.mutexWait m))
    (curr curr' : TaskId) (owner owner' : Option TaskId) :
    g.call m curr curr' owner owner' e = g := by
  cases e with
  | lock n =>
    have hne : n ≠ m := fun hn => he (by rw [hn]; rfl)
    exact if_neg hne
  | unlock n =>
    have hne : n ≠ m := fun hn => he (by rw [hn]; rfl)
    exact if_neg hne
  | _ => rfl

/-- One event of the kernel, seen from outside. -/
def note (m : Nat) (g : MutexHist) (k : Kernel) (e : Event) (k' : Kernel) : MutexHist :=
  (g.call m k.currTask k'.currTask (k.mutex m).owner (k'.mutex m).owner e).resume k'.currTask

end MutexHist

/-- The kernel with the history of mutex `m` at its side. -/
def mutexStep (m : Nat) : Kernel × MutexHist → Event → Option (Kernel × MutexHist) :=
  observed kernelStep (MutexHist.note m)

/-! ## The invariant -/

/-- What the history says about mutex `m`, but for the current task. -/
structure MutexBase (m : Nat) (s : Sched) (g : MutexHist) : Prop where
  count_none : s.owner m = none → s.lockedCount m = 0
  count_some : ∀ t, s.owner m = some t →
    s.lockedCount m = g.depth t + (if g.pending t then 1 else 0) ∧ 0 < s.lockedCount m
  depth_zero : ∀ t, s.owner m ≠ some t → g.depth t = 0
  depth_le : ∀ t, g.depth t ≤ 2 ^ 31 - 1
  granted : ∀ t, g.pending t = true → g.depth t = 0
  pending_of_mem : ∀ t, t ∈ s.queue (.mutexWait m) → g.pending t = true
  pending_cases : ∀ t, g.pending t = true → t ∈ s.queue (.mutexWait m) ∨ s.owner m = some t
  owner_notMem : ∀ t, s.owner m = some t → t ∉ s.queue (.mutexWait m)
  order : g.blocked = g.passed ++ s.queue (.mutexWait m)

/-- What the history says about mutex `m` between two events. -/
structure MutexInv (m : Nat) (s : Sched) (g : MutexHist) : Prop extends MutexBase m s g where
  curr_returned : g.pending s.currTask = false

section

variable {m : Nat} {s s' : Sched} {g : MutexHist}

theorem mutexInv_init (counts : Nat → Int) (m : Nat) :
    MutexInv m (schedInit counts) MutexHist.init where
  count_none := fun _ => rfl
  count_some := fun t h => absurd h (by simp [schedInit])
  depth_zero := fun _ _ => rfl
  depth_le := fun _ => Nat.zero_le _
  granted := fun _ _ => rfl
  pending_of_mem := fun t h => absurd h (by simp [schedInit])
  pending_cases := fun t h => absurd h (by simp [MutexHist.init])
  owner_notMem := fun t h => absurd h (by simp [schedInit])
  order := by simp [MutexHist.init, schedInit]
  curr_returned := rfl

/-- A mutex that no event touched keeps its history. -/
theorem MutexBase.congr (h : MutexBase m s g) (hs : Sched.SameAt (.mutexWait m) s s') :
    MutexBase m s' g := by
  have hq := hs.queue_eq
  have hl := hs.locked_eq m rfl
  have ho := hs.owner_eq m rfl
  constructor
  · rw [ho, hl]; exact h.count_none
  · rw [ho, hl]; exact h.count_some
  · rw [ho]; exact h.depth_zero
  · exact h.depth_le
  · exact h.granted
  · rw [hq]; exact h.pending_of_mem
  · rw [hq, ho]; exact h.pending_cases
  · rw [hq, ho]; exact h.owner_notMem
  · rw [hq]; exact h.order

/-- The task that is dispatched returns from its lock call; it can only be
the owner that an unlock recorded. -/
theorem MutexBase.resume (h : MutexBase m s g) (hs : Sched.Inv s) :
    MutexInv m s (g.resume s.currTask) := by
  unfold MutexHist.resume
  split
  · rename_i hp
    have hout := hs.curr_notMem_wait (p := .mutexWait m) rfl
    have ho : s.owner m = some s.currTask := (h.pending_cases _ hp).resolve_left hout
    have hd : g.depth s.currTask = 0 := h.granted _ hp
    refine ⟨⟨h.count_none, ?_, ?_, ?_, ?_, ?_, ?_, h.owner_notMem, h.order⟩, ?_⟩
    · intro t ht
      obtain rfl : s.currTask = t := Option.some.inj (ho.symm.trans ht)
      have hc := h.count_some _ ht
      rw [hp, hd] at hc
      simp only [MutexHist.acquire, Function.update_self, hd]
      exact ⟨by simpa using hc.1, hc.2⟩
    · intro t ht
      have hne : t ≠ s.currTask := fun he => ht (he ▸ ho)
      simp only [MutexHist.acquire, Function.update_of_ne hne]
      exact h.depth_zero t ht
    · intro t
      by_cases ht : t = s.currTask
      · subst ht
        simp only [MutexHist.acquire, Function.update_self, hd]
        omega
      · simp only [MutexHist.acquire, Function.update_of_ne ht]
        exact h.depth_le t
    · intro t ht
      by_cases hne : t = s.currTask
      · subst hne
        simp [MutexHist.acquire] at ht
      · simp only [MutexHist.acquire, Function.update_of_ne hne] at ht ⊢
        exact h.granted t ht
    · intro t ht
      have hne : t ≠ s.currTask := fun he => hout (he ▸ ht)
      simp only [MutexHist.acquire, Function.update_of_ne hne]
      exact h.pending_of_mem t ht
    · intro t ht
      by_cases hne : t = s.currTask
      · subst hne
        simp [MutexHist.acquire] at ht
      · simp only [MutexHist.acquire, Function.update_of_ne hne] at ht
        exact h.pending_cases t ht
    · simp [MutexHist.acquire]
  · rename_i hp
    exact ⟨h, by simpa using hp⟩

/-- The owner is recorded exactly while the count is not 0. -/
theorem MutexBase.count_eq_zero (h : MutexBase m s g) :
    s.lockedCount m = 0 ↔ s.owner m = none := by
  constructor
  · intro h0
    cases ho : s.owner m with
    | none => rfl
    | some t =>
      have hc := (h.count_some t ho).2
      omega
  · exact h.count_none

/-- A lock call that returns at once: `curr` is the owner afterwards. -/
theorem MutexInv.acquire (h : MutexInv m s g)
    (hown : s.owner m = none ∨ s.owner m = some s.currTask)
    (hdeep : g.depth s.currTask < 2 ^ 31 - 1) (hout : s.currTask ∉ s.queue (.mutexWait m))
    {s' : Sched}
    (hq : s'.queue = s.queue) (ho : s'.owner m = some s.currTask)
    (hc : s'.lockedCount m = cInt (s.lockedCount m + 1)) :
    MutexBase m s' (g.acquire s.currTask) := by
  have hcount : s.lockedCount m = g.depth s.currTask := by
    rcases hown with hn | hs
    · rw [h.count_none hn, h.depth_zero _ (by rw [hn]; simp)]
      rfl
    · rw [(h.count_some _ hs).1, h.curr_returned]
      simp
  have hsucc : s'.lockedCount m = g.depth s.currTask + 1 := by
    rw [hc, hcount, cInt_eq]
    · omega
    · unfold intMax
      omega
  have hother : ∀ t, t ≠ s.currTask → s.owner m ≠ some t := by
    intro t ht he
    rcases hown with hn | hs
    · simp [hn] at he
    · exact ht (Option.some.inj (he.symm.trans hs))
  constructor
  · intro hn
    simp [ho] at hn
  · intro t ht
    obtain rfl : s.currTask = t := Option.some.inj (ho.symm.trans ht)
    rw [hsucc]
    simp only [MutexHist.acquire, Function.update_self]
    refine ⟨by simp, by omega⟩
  · intro t ht
    have hne : t ≠ s.currTask := fun he => ht (he ▸ ho)
    simp only [MutexHist.acquire, Function.update_of_ne hne]
    exact h.depth_zero t (hother t hne)
  · intro t
    by_cases ht : t = s.currTask
    · subst ht
      simp only [MutexHist.acquire, Function.update_self]
      omega
    · simp only [MutexHist.acquire, Function.update_of_ne ht]
      exact h.depth_le t
  · intro t ht
    by_cases hne : t = s.currTask
    · subst hne
      simp [MutexHist.acquire] at ht
    · simp only [MutexHist.acquire, Function.update_of_ne hne] at ht ⊢
      exact h.granted t ht
  · intro t ht
    rw [hq] at ht
    have hne : t ≠ s.currTask := fun he => hout (he ▸ ht)
    simp only [MutexHist.acquire, Function.update_of_ne hne]
    exact h.pending_of_mem t ht
  · intro t ht
    by_cases hne : t = s.currTask
    · subst hne
      simp [MutexHist.acquire] at ht
    · simp only [MutexHist.acquire, Function.update_of_ne hne] at ht
      rcases h.pending_cases t ht with hm | he
      · exact Or.inl (hq ▸ hm)
      · exact absurd he (hother t hne)
  · intro t ht
    obtain rfl : s.currTask = t := Option.some.inj (ho.symm.trans ht)
    rw [hq]
    exact hout
  · rw [hq]
    exact h.order

/-- A lock call that finds another owner blocks its caller. -/
theorem MutexInv.block (h : MutexInv m s g) (hidle : s.currTask ≠ .idle)
    (hown : s.owner m ≠ some s.currTask) :
    MutexBase m (s.blockAt (.mutexWait m))
      { g with
        pending := Function.update g.pending s.currTask true
        blocked := g.blocked ++ [s.currTask] } := by
  have hq := Sched.queue_blockAt (p := .mutexWait m) s hidle rfl
  obtain ⟨hl, ho, -⟩ := Sched.blockAt_same s (.mutexWait m)
  have hne : ∀ t, s.owner m = some t → t ≠ s.currTask := fun t ht he => hown (he ▸ ht)
  constructor
  · rw [ho, hl]
    exact h.count_none
  · intro t ht
    rw [ho] at ht
    have hp : Function.update g.pending s.currTask true t = g.pending t :=
      Function.update_of_ne (hne t ht) _ _
    simp only [hl, hp]
    exact h.count_some t ht
  · rw [ho]
    exact h.depth_zero
  · exact h.depth_le
  · intro t ht
    dsimp only at ht ⊢
    by_cases hc : t = s.currTask
    · exact h.depth_zero t (hc ▸ hown)
    · rw [Function.update_of_ne hc] at ht
      exact h.granted t ht
  · intro t ht
    dsimp only
    by_cases hc : t = s.currTask
    · rw [hc, Function.update_self]
    · rw [Function.update_of_ne hc]
      rw [hq, List.mem_append, List.mem_singleton] at ht
      exact h.pending_of_mem t (ht.resolve_right hc)
  · intro t ht
    dsimp only at ht
    rw [hq, ho, List.mem_append, List.mem_singleton]
    by_cases hc : t = s.currTask
    · exact Or.inl (Or.inr hc)
    · rw [Function.update_of_ne hc] at ht
      rcases h.pending_cases t ht with hm | he
      · exact Or.inl (Or.inl hm)
      · exact Or.inr he
  · intro t ht hm
    rw [ho] at ht
    rw [hq, List.mem_append, List.mem_singleton] at hm
    rcases hm with hm | hc
    · exact h.owner_notMem t ht hm
    · exact hne t ht hc
  · rw [hq, h.order, List.append_assoc]

theorem MutexInv.lock (h : MutexInv m s g) (hs : Sched.Inv s) (hidle : s.currTask ≠ .idle)
    (hdeep : g.depth s.currTask < 2 ^ 31 - 1) :
    MutexBase m (s.lock m)
      (g.call m s.currTask (s.lock m).currTask (s.owner m) ((s.lock m).owner m) (.lock m)) := by
  have hout := hs.curr_notMem_wait (p := .mutexWait m) rfl
  rw [MutexHist.call_lock]
  unfold Sched.lock
  by_cases h0 : s.lockedCount m = 0
  · rw [if_pos h0, if_pos rfl]
    refine h.acquire (Or.inl (h.count_eq_zero.mp h0)) hdeep hout rfl ?_ ?_
    · exact Function.update_self ..
    · exact Function.update_self ..
  · rw [if_neg h0]
    by_cases ho : s.owner m = some s.currTask
    · rw [if_pos ho, if_pos rfl]
      exact h.acquire (Or.inr ho) hdeep hout rfl ho (Function.update_self ..)
    · rw [if_neg ho, if_neg (Sched.currTask_blockAt hs hidle rfl)]
      exact h.block hidle ho

/-- The owner gives up its last lock and nobody waits. -/
theorem MutexInv.release (h : MutexInv m s g) (ho : s.owner m = some s.currTask)
    (hq : s.queue (.mutexWait m) = []) {s' : Sched}
    (hq' : s'.queue = s.queue) (ho' : s'.owner m = none) (hl' : s'.lockedCount m = 0) :
    MutexBase m s' { g with depth := Function.update g.depth s.currTask 0 } := by
  have hnone : ∀ t, g.pending t ≠ true := by
    intro t ht
    rcases h.pending_cases t ht with hm | he
    · simp [hq] at hm
    · obtain rfl : s.currTask = t := Option.some.inj (ho.symm.trans he)
      simp [h.curr_returned] at ht
  have hdepth : ∀ t, Function.update g.depth s.currTask 0 t = 0 := by
    intro t
    by_cases hc : t = s.currTask
    · rw [hc, Function.update_self]
    · rw [Function.update_of_ne hc]
      exact h.depth_zero t fun he => hc (Option.some.inj (he.symm.trans ho))
  constructor
  · exact fun _ => hl'
  · intro t ht
    simp [ho'] at ht
  · exact fun t _ => hdepth t
  · intro t
    dsimp only
    rw [hdepth t]
    omega
  · exact fun t _ => hdepth t
  · intro t ht
    simp [hq', hq] at ht
  · intro t ht
    exact absurd ht (hnone t)
  · intro t ht
    simp [ho'] at ht
  · rw [hq']
    exact h.order

/-- The owner gives up its last lock to the first waiter. -/
theorem MutexInv.handOver (h : MutexInv m s g) (ho : s.owner m = some s.currTask)
    {t : TaskId} {l : List TaskId} (hnd : (s.queue (.mutexWait m)).Nodup)
    (hq : s.queue (.mutexWait m) = t :: l) {s' : Sched} (hq' : s'.queue (.mutexWait m) = l)
    (ho' : s'.owner m = some t) (hl' : s'.lockedCount m = 1) :
    MutexBase m s'
      { g with
        depth := Function.update g.depth s.currTask 0
        passed := g.passed ++ [t] } := by
  have hmem : t ∈ s.queue (.mutexWait m) := by rw [hq]; simp
  have hpend : g.pending t = true := h.pending_of_mem t hmem
  have htl : t ∉ l := (List.nodup_cons.mp (hq ▸ hnd)).1
  have hdepth : ∀ u, Function.update g.depth s.currTask 0 u = 0 := by
    intro u
    by_cases hc : u = s.currTask
    · rw [hc, Function.update_self]
    · rw [Function.update_of_ne hc]
      exact h.depth_zero u fun he => hc (Option.some.inj (he.symm.trans ho))
  constructor
  · intro hn
    simp [ho'] at hn
  · intro u hu
    obtain rfl : t = u := Option.some.inj (ho'.symm.trans hu)
    dsimp only
    rw [hdepth, hpend, hl']
    simp
  · exact fun u _ => hdepth u
  · intro u
    dsimp only
    rw [hdepth u]
    omega
  · exact fun u _ => hdepth u
  · intro u hu
    rw [hq'] at hu
    exact h.pending_of_mem u (by rw [hq]; simp [hu])
  · intro u hu
    rw [hq', ho']
    rcases h.pending_cases u hu with hm | he
    · rw [hq, List.mem_cons] at hm
      rcases hm with rfl | hm
      · exact Or.inr rfl
      · exact Or.inl hm
    · obtain rfl : s.currTask = u := Option.some.inj (ho.symm.trans he)
      rw [h.curr_returned] at hu
      exact absurd hu (by simp)
  · intro u hu
    obtain rfl : t = u := Option.some.inj (ho'.symm.trans hu)
    rw [hq']
    exact htl
  · rw [hq', List.append_assoc, List.singleton_append, ← hq]
    exact h.order

/-- The owner undoes one of several locks. -/
theorem MutexInv.lower (h : MutexInv m s g) (ho : s.owner m = some s.currTask) {d : Nat}
    (hd : g.depth s.currTask = d + 2) {s' : Sched} (hq' : s'.queue = s.queue)
    (ho' : s'.owner m = some s.currTask) (hl' : s'.lockedCount m = d + 1) :
    MutexBase m s' { g with depth := Function.update g.depth s.currTask (d + 1) } := by
  have hother : ∀ t, t ≠ s.currTask → s.owner m ≠ some t :=
    fun t ht he => ht (Option.some.inj (he.symm.trans ho))
  constructor
  · intro hn
    simp [ho'] at hn
  · intro t ht
    obtain rfl : s.currTask = t := Option.some.inj (ho'.symm.trans ht)
    dsimp only
    rw [Function.update_self, h.curr_returned, hl']
    refine ⟨by simp, by omega⟩
  · intro t ht
    have hne : t ≠ s.currTask := fun he => ht (he ▸ ho')
    dsimp only
    rw [Function.update_of_ne hne]
    exact h.depth_zero t (hother t hne)
  · intro t
    dsimp only
    by_cases hc : t = s.currTask
    · have hle := h.depth_le s.currTask
      rw [hc, Function.update_self]
      omega
    · rw [Function.update_of_ne hc]
      exact h.depth_le t
  · intro t ht
    have hne : t ≠ s.currTask := fun he => by
      rw [he, h.curr_returned] at ht
      exact absurd ht (by simp)
    dsimp only
    rw [Function.update_of_ne hne]
    exact h.granted t ht
  · rw [hq']
    exact h.pending_of_mem
  · rw [hq', ho', ← ho]
    exact h.pending_cases
  · rw [hq', ho', ← ho]
    exact h.owner_notMem
  · rw [hq']
    exact h.order

theorem MutexInv.unlock (h : MutexInv m s g) (hs : Sched.Inv s) :
    MutexBase m (s.unlock m)
      (g.call m s.currTask (s.unlock m).currTask (s.owner m) ((s.unlock m).owner m)
        (.unlock m)) := by
  rw [MutexHist.call_unlock]
  rcases Sched.unlock_cases hs m with ⟨ho, he⟩ | ⟨ho, hcase⟩
  · have hsame : Function.update g.depth s.currTask (g.depth s.currTask - 1) = g.depth := by
      rw [h.depth_zero _ ho, Nat.zero_sub, ← h.depth_zero _ ho, Function.update_eq_self]
    rw [he, if_pos rfl, hsame]
    exact h.toMutexBase
  · obtain ⟨hc, hpos⟩ := h.count_some _ ho
    rw [h.curr_returned] at hc
    simp only [Bool.false_eq_true, if_false, Int.add_zero] at hc
    have hle := h.depth_le s.currTask
    have hleft : cInt (s.lockedCount m - 1) = g.depth s.currTask - 1 := by
      rw [hc, cInt_eq]
      · omega
      · unfold intMax
        omega
    rw [hleft] at hcase
    rcases hcase with ⟨h1, hq, ho', hl⟩ | ⟨h1, hq, hq', ho', hl⟩ | ⟨t, l, h1, hq, hq', ho', hl⟩
    · obtain ⟨d, hd⟩ : ∃ d, g.depth s.currTask = d + 2 :=
        ⟨g.depth s.currTask - 2, by omega⟩
      rw [ho', if_pos rfl, hd]
      exact h.lower ho hd hq (ho'.trans ho) (by rw [hl, hd]; omega)
    · have hd : g.depth s.currTask = 1 := by omega
      rw [ho', ho, if_neg (by simp), hd, Option.toList_none, List.append_nil]
      exact h.release ho hq hq' ho' hl
    · have hd : g.depth s.currTask = 1 := by omega
      have hne : t ≠ s.currTask := fun he => h.owner_notMem _ ho (by rw [hq, he]; simp)
      rw [ho', ho, if_neg (by simpa using hne), hd, Option.toList_some]
      exact h.handOver ho (hs.placed.nodup _) hq hq' ho' hl

/-- Every event keeps the history true, as long as no task nests its locks
2^31 deep. -/
theorem mutexInv_step {e : Event} (h : MutexInv m s g) (hs : Sched.Inv s)
    (hdeep : e = .lock m → g.depth s.currTask < 2 ^ 31 - 1) (he : schedStep s e = some s') :
    MutexInv m s'
      ((g.call m s.currTask s'.currTask (s.owner m) (s'.owner m) e).resume s'.currTask) := by
  have hs' := Sched.inv_step s e s' hs he
  refine MutexBase.resume ?_ hs'
  by_cases hp : e.place = some (.mutexWait m)
  · have hc := Sched.schedCall_of_step he
    cases e with
    | lock n =>
      obtain rfl : n = m := by simpa [Event.place] using hp
      rw [schedCall, Option.some.injEq] at hc
      exact hc ▸ h.lock hs (Sched.currTask_ne_idle he rfl) (hdeep rfl)
    | unlock n =>
      obtain rfl : n = m := by simpa [Event.place] using hp
      rw [schedCall, Option.some.injEq] at hc
      exact hc ▸ h.unlock hs
    | _ => simp [Event.place] at hp
  · have hb := h.congr (Sched.sameAt_step (p := .mutexWait m) rfl hp he)
    rw [MutexHist.call_of_place_ne g hp]
    exact hb

end

/-! ## The kernel -/

/-- The kernel state and the history of mutex `m` agree. -/
def MutexOk (m : Nat) (x : Kernel × MutexHist) : Prop :=
  ∃ s, Refines x.1 s ∧ Sched.Inv s ∧ MutexInv m s x.2

/-- The nesting depth of a task that locks `m` is below 2^31 - 1. -/
def notTooDeep (m : Nat) (x : Kernel × MutexHist) (e : Event) : Prop :=
  e = .lock m → x.2.depth x.1.currTask < 2 ^ 31 - 1

instance (m : Nat) (x : Kernel × MutexHist) (e : Event) : Decidable (notTooDeep m x e) :=
  inferInstanceAs (Decidable (_ → _))

theorem mutexOk_init (counts : Nat → Int) (m : Nat) :
    MutexOk m (kernelInit counts, MutexHist.init) :=
  ⟨_, refines_init counts, Sched.inv_init counts, mutexInv_init counts m⟩

theorem mutexOk_step {m : Nat} (x : Kernel × MutexHist) (e : Event) (y : Kernel × MutexHist)
    (h : MutexOk m x) (hd : notTooDeep m x e) (hy : mutexStep m x e = some y) : MutexOk m y := by
  obtain ⟨s, hr, hs, hm⟩ := h
  obtain ⟨hk, hg⟩ := observed_eq_some.mp hy
  obtain ⟨s', hs', hr'⟩ := refines_step hr hs hk
  refine ⟨s', hr', Sched.inv_step s e s' hs hs', ?_⟩
  unfold notTooDeep at hd
  rw [hr.curr_eq] at hd
  rw [hg]
  unfold MutexHist.note
  rw [hr.curr_eq, hr'.curr_eq, hr.owner_eq, hr'.owner_eq]
  exact mutexInv_step hm hs hd hs'

/-- The protocol of one mutex, in every run whose tasks nest their locks
less than 2^31 deep. -/
theorem mutex_protocol_ok (counts : Nat → Int) (m : Nat) (es : List Event) (k : Kernel)
    (g : MutexHist)
    (hdeep : Along (mutexStep m) (notTooDeep m) (kernelInit counts, MutexHist.init) es)
    (h : run (mutexStep m) (kernelInit counts, MutexHist.init) es = some (k, g)) :
    (∀ t u, 0 < g.depth t → 0 < g.depth u → t = u) ∧
    ((k.mutex m).lockedCount = 0 ↔ (k.mutex m).owner = none) ∧
    (∀ t, (k.mutex m).owner = some t →
      (k.mutex m).lockedCount = g.depth t + if g.pending t then 1 else 0) ∧
    (∃ w : List TaskId,
      Rep k.node (k.mutex m).waitList (w.map .waitNode) ∧
      (∀ t, (k.mutex m).owner = some t → t ∉ w) ∧
      (∀ t, g.pending t = true → w.count t = 1 ∨ (k.mutex m).owner = some t) ∧
      g.blocked = g.passed ++ w) ∧
    ((k.mutex m).owner ≠ some k.currTask → mutexUnlock k m = k) := by
  obtain ⟨s, hr, hs, hm⟩ := run_invariant_along mutexOk_step (mutexOk_init counts m) hdeep h
  dsimp only at hr hm
  rw [hr.owner_eq, hr.locked_eq, hr.curr_eq]
  refine ⟨?_, hm.count_eq_zero, fun t ht => (hm.count_some t ht).1, ?_, ?_⟩
  · intro t u ht hu
    have howner : ∀ v, 0 < g.depth v → s.owner m = some v := by
      intro v hv
      by_contra hne
      rw [hm.depth_zero v hne] at hv
      exact absurd hv (Nat.lt_irrefl 0)
    exact Option.some.inj ((howner t ht).symm.trans (howner u hu))
  · refine ⟨s.queue (.mutexWait m), hr.reps (.mutexWait m), hm.owner_notMem, ?_, hm.order⟩
    intro t ht
    rcases hm.pending_cases t ht with hmem | he
    · exact Or.inl (List.count_eq_one_of_mem (hs.placed.nodup _) hmem)
    · exact Or.inr he
  · intro hne
    rw [← hr.owner_eq, ← hr.curr_eq] at hne
    unfold mutexUnlock
    exact if_neg hne

/-- The first task locks twice, two others block, and its second unlock hands
the mutex to the first of them. -/
def handOverRun : List Event :=
  [.lock 0, .lock 0, .fork 0, .fork 1, .yeild, .lock 0, .lock 0, .unlock 0, .unlock 0, .yeild]

theorem handOverRun_end :
    (run (mutexStep 0) (kernelInit fun _ => 0, MutexHist.init) handOverRun).map (fun x =>
        ((x.1.mutex 0).owner, x.2.depth (.slot 0), x.2.pending (.slot 0), x.2.blocked, x.2.passed))
      = some (some (.slot 0), 1, false, [.slot 0, .slot 1], [.slot 0]) := by
  decide +kernel

/-- The protocol at this run: one of the two has the mutex, the other waits. -/
theorem mutex_protocol_ok_lock_unlock :
    ∃ k g, run (mutexStep 0) (kernelInit fun _ => 0, MutexHist.init) handOverRun = some (k, g) ∧
      (k.mutex 0).owner = some (.slot 0) ∧ (k.mutex 0).lockedCount = 1 ∧
      (∀ t, 0 < g.depth t → t = .slot 0) ∧
      Rep k.node (k.mutex 0).waitList [.waitNode (.slot 1)] := by
  obtain ⟨⟨k, g⟩, hrun, hend⟩ := Option.map_eq_some_iff.mp handOverRun_end
  simp only [Prod.mk.injEq] at hend
  obtain ⟨howner, hdepth, hpending, hblocked, hpassed⟩ := hend
  have hdeep : Along (mutexStep 0) (notTooDeep 0) (kernelInit fun _ => 0, MutexHist.init)
      handOverRun := by
    decide +kernel
  obtain ⟨hone, -, hcount, ⟨w, hrep, -, -, horder⟩, -⟩ :=
    mutex_protocol_ok (fun _ => 0) 0 handOverRun k g hdeep hrun
  refine ⟨k, g, hrun, howner, ?_, fun t ht => hone t _ ht (by omega), ?_⟩
  · rw [hcount _ howner, hdepth, hpending]
    rfl
  · -- who waits is who has blocked and was not passed the mutex
    rw [hblocked, hpassed] at horder
    obtain rfl : [.slot 1] = w := (List.cons.inj horder).2
    exact hrep

/-- The kernel and the history of mutex 0 after `n` nested locks of the
first task. -/
def Nested (n : Nat) (x : Kernel × MutexHist) : Prop :=
  x.1.currTask = .first ∧ (x.1.mutex 0).lockedCount = n ∧
    (n = 0 ∨ (x.1.mutex 0).owner = some .first) ∧
    x.2.depth .first = n ∧ x.2.pending .first = false

/-- One more lock of a mutex the first task may lock: the depth grows, and
the count is what an `int` makes of it. -/
theorem lock_of_nested {n : Nat} {x : Kernel × MutexHist} (h : Nested n x) :
    ∃ y, mutexStep 0 x (.lock 0) = some y ∧ y.1.currTask = .first ∧
      (y.1.mutex 0).lockedCount = cInt (n + 1) ∧ (y.1.mutex 0).owner = some .first ∧
      y.2.depth .first = n + 1 ∧ y.2.pending .first = false := by
  obtain ⟨hcurr, hcount, hown, hdepth, hpend⟩ := h
  have hk : ∃ w, mutexLock x.1 0 = x.1.setMutex 0 ⟨cInt (n + 1), some .first, w⟩ := by
    unfold mutexLock
    dsimp only
    rw [hcount, hcurr]
    by_cases h0 : (n : Int) = 0
    · rw [if_pos h0]
      exact ⟨_, rfl⟩
    · have ho : (x.1.mutex 0).owner = some .first := hown.resolve_left (by omega)
      rw [if_neg h0, if_pos ho, ho]
      exact ⟨_, rfl⟩
  obtain ⟨w, hw⟩ := hk
  have hstep : kernelStep x.1 (.lock 0) = some (mutexLock x.1 0) := by
    unfold kernelStep
    rw [if_neg (by simp [hcurr])]
    rfl
  refine ⟨(mutexLock x.1 0, MutexHist.note 0 x.2 x.1 (.lock 0) (mutexLock x.1 0)),
    observed_eq_some.mpr ⟨hstep, rfl⟩, ?_, ?_, ?_, ?_, ?_⟩
  · rw [hw]
    exact hcurr
  · rw [hw]
    simp [Kernel.setMutex]
  · rw [hw]
    simp [Kernel.setMutex]
  all_goals
    have hc : (mutexLock x.1 0).currTask = .first := by rw [hw]; exact hcurr
    unfold MutexHist.note
    rw [hc, hcurr, MutexHist.call_lock, if_pos rfl]
    simp [MutexHist.resume, MutexHist.acquire, hdepth]

/-- Below the bound the count is the depth. -/
theorem run_nested_locks (n : Nat) (hn : n ≤ 2 ^ 31 - 1) :
    ∃ x, run (mutexStep 0) (kernelInit fun _ => 0, MutexHist.init) (List.replicate n (.lock 0))
      = some x ∧ Nested n x := by
  induction n with
  | zero => exact ⟨_, rfl, rfl, rfl, Or.inl rfl, rfl, rfl⟩
  | succ n ih =>
    obtain ⟨x, hrun, hx⟩ := ih (by omega)
    obtain ⟨y, hy, hcurr, hcount, hown, hdepth, hpend⟩ := lock_of_nested hx
    refine ⟨y, ?_, hcurr, ?_, Or.inr hown, hdepth, hpend⟩
    · rw [List.replicate_succ', run_concat]
      exact ⟨x, hrun, hy⟩
    · rw [hcount, cInt_eq]
      · omega
      · omega
      · unfold intMax
        omega

/-- 2^31 nested locks: the count wraps to a negative number, which is not
the nesting depth. -/
theorem nested_locks_overflow :
    ∃ k g, run (mutexStep 0) (kernelInit fun _ => 0, MutexHist.init)
        (List.replicate (2 ^ 31) (.lock 0)) = some (k, g) ∧
      (k.mutex 0).owner = some .first ∧ g.pending .first = false ∧
      g.depth .first = 2 ^ 31 ∧ (k.mutex 0).lockedCount = -2 ^ 31 := by
  obtain ⟨x, hrun, hx⟩ := run_nested_locks (2 ^ 31 - 1) (Nat.le_refl _)
  obtain ⟨y, hy, -, hcount, hown, hdepth, hpend⟩ := lock_of_nested hx
  refine ⟨y.1, y.2, ?_, hown, hpend, hdepth, ?_⟩
  · have hsucc : (2 : Nat) ^ 31 = (2 ^ 31 - 1) + 1 := rfl
    rw [hsucc, List.replicate_succ', run_concat]
    exact ⟨x, hrun, hy⟩
  · rw [hcount]
    rfl

end Wjos
