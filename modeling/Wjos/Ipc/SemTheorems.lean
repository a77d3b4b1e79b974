/-
Wjos.Ipc.SemTheorems — the permits of a counting semaphore are conserved.

`SemHist` is a history of one semaphore. A `sem_wait` that leaves its task
running was granted at once; one that does not has blocked. A `sem_notify`
grants the call of the task it puts at the end of the ready list, if it
puts one there. Interrupt handlers notify too, so the history does not
look at who the current task is.

`SemInv` ties the history to the abstract scheduler and `semConserved` is
what it says about the kernel. The count is a C `int`: a notify at
`INT_MAX` makes it negative (`notify_at_intMax`).
-/
import Wjos.Core.SchedFrame
import Wjos.Core.SchedTheorems

namespace Wjos

open Lib

/-- What has happened at one semaphore. -/
structure SemHist where
  notifies : Nat
  granted : Nat
  blocked : List TaskId
  woken : List TaskId

/-- The task that an event put at the end of the ready list. -/
def madeReady (k k' : Kernel) : Option TaskId :=
  if k'.readyList.count > k.readyList.count then
    k'.readyList.last.map fun node => runNodeParent (some node)
  else none

namespace SemHist

/-- Nobody has called yet. -/
def init : SemHist := ⟨0, 0, [], []⟩

/-- The calls on semaphore `n`. -/
def call (g : SemHist) (n : Nat) (curr curr' : TaskId) (made : Option TaskId) : Event → SemHist
  | .semWait r =>
    if r = n then
      if curr' = curr then { g with granted := g.granted + 1 }
      else { g with blocked := g.blocked ++ [curr] }
    else g
  | .semNotify r =>
    if r = n then
      { g with
        notifies := g.notifies + 1
        granted := g.granted + made.toList.length
        woken := g.woken ++ made.toList }
    else g
  | _ => g

theorem call_semWait (g : SemHist) (n : Nat) (curr curr' : TaskId) (made : Option TaskId) :
    g.call n curr curr' made (.semWait n) =
      if curr' = curr then { g with granted := g.granted + 1 }
      else { g with blocked := g.blocked ++ [curr] } := if_pos rfl

theorem call_semNotify (g : SemHist) (n : Nat) (curr curr' : TaskId) (made : Option TaskId) :
    g.call n curr curr' made (.semNotify n) =
      { g with
        notifies := g.notifies + 1
        granted := g.granted + made.toList.length
        woken := g.woken ++ made.toList } := if_pos rfl

/-- A call on another semaphore, and any other event, is not noted. -/
theorem call_of_place_ne (g : SemHist) {n : Nat} {e : Event} (he : e.place ≠ some (.semWait n))
    (curr curr' : TaskId) (made : Option TaskId) : g.call n curr curr' made e = g := by
  cases e with
  | semWait r =>
    have hne : r ≠ n := fun hr => he (by rw [hr]; rfl)
    exact if_neg hne
  | semNotify r =>
    have hne : r ≠ n := fun hr => he (by rw [hr]; rfl)
    exact if_neg hne
  | _ => rfl

/-- One event of the kernel, seen from outside. -/
def note (n : Nat) (g : SemHist) (k : Kernel) (e : Event) (k' : Kernel) : SemHist :=
  g.call n k.currTask k'.currTask (madeReady k k') e

end SemHist

/-- The kernel with the history of semaphore `n` at its side. -/
def semStep (n : Nat) : Kernel × SemHist → Event → Option (Kernel × SemHist) :=
  observed kernelStep (SemHist.note n)

/-! ## The invariant -/

/-- What the history says about semaphore `n`, initialised with `c`. -/
structure SemInv (n : Nat) (c : Int) (s : Sched) (g : SemHist) : Prop where
  nonneg : 0 ≤ s.semCount n
  le_max : s.semCount n ≤ intMax
  waiters : s.queue (.semWait n) ≠ [] → s.semCount n = 0
  balance : c + g.notifies = s.semCount n + g.granted
  order : g.blocked = g.woken ++ s.queue (.semWait n)

/-- The abstract counterpart of `madeReady`. -/
def Sched.madeReady (s s' : Sched) : Option TaskId :=
  if (s'.queue .ready).length > (s.queue .ready).length then (s'.queue .ready).getLast? else none

theorem Refines.madeReady_eq {k k' : Kernel} {s s' : Sched} (hr : Refines k s)
    (hr' : Refines k' s') : madeReady k k' = s.madeReady s' := by
  have hc : k.readyList.count = (s.queue .ready).length := hr.count_eq_length .ready
  have hc' : k'.readyList.count = (s'.queue .ready).length := hr'.count_eq_length .ready
  have hl : k'.readyList.last = ((s'.queue .ready).map NodeId.runNode).getLast? :=
    (hr'.reps .ready).last_eq
  have hlast : (k'.readyList.last.map fun node => runNodeParent (some node))
      = (s'.queue .ready).getLast? := by
    rw [hl, List.getLast?_map]
    cases (s'.queue .ready).getLast? <;> rfl
  unfold madeReady Sched.madeReady
  rw [hlast, hc, hc']
  simp only [gt_iff_lt, Int.ofNat_lt]

section

variable {n : Nat} {c : Int} {s s' : Sched} {g : SemHist}

theorem semInv_init {counts : Nat → Int} (h0 : 0 ≤ counts n) (hmax : counts n ≤ intMax) :
    SemInv n (counts n) (schedInit counts) SemHist.init where
  nonneg := h0
  le_max := hmax
  waiters := fun h => absurd rfl h
  balance := rfl
  order := by simp [SemHist.init, schedInit]

/-- A semaphore that no event touched keeps its history. -/
theorem SemInv.congr (h : SemInv n c s g) (hs : Sched.SameAt (.semWait n) s s') :
    SemInv n c s' g := by
  have hq := hs.queue_eq
  have hc := hs.count_eq n rfl
  exact ⟨hc ▸ h.nonneg, hc ▸ h.le_max, by rw [hq, hc]; exact h.waiters,
    by rw [hc]; exact h.balance, by rw [hq]; exact h.order⟩

theorem SemInv.semWait (h : SemInv n c s g) (hs : Sched.Inv s) (hidle : s.currTask ≠ .idle)
    (made : Option TaskId) :
    SemInv n c (s.semWait n) (g.call n s.currTask (s.semWait n).currTask made (.semWait n)) := by
  have hmax := h.le_max
  have hbal := h.balance
  rw [SemHist.call_semWait]
  unfold Sched.semWait
  by_cases hpos : s.semCount n > 0
  · -- a permit is there, and nobody waits
    have hcount : cInt (s.semCount n - 1) = s.semCount n - 1 := cInt_eq (by omega) (by omega)
    have hq : s.queue (.semWait n) = [] := by
      by_contra hne
      have := h.waiters hne
      omega
    rw [if_pos hpos, if_pos rfl, hcount]
    refine ⟨?_, ?_, fun hne => absurd hq hne, ?_, h.order⟩
    · show 0 ≤ Function.update s.semCount n (s.semCount n - 1) n
      rw [Function.update_self]
      omega
    · show Function.update s.semCount n (s.semCount n - 1) n ≤ intMax
      rw [Function.update_self]
      omega
    · show c + g.notifies =
        Function.update s.semCount n (s.semCount n - 1) n + (g.granted + 1 : Nat)
      rw [Function.update_self, hbal]
      omega
  · have h0 : s.semCount n = 0 := by
      have hnn := h.nonneg
      omega
    obtain ⟨-, -, hc⟩ := Sched.blockAt_same s (.semWait n)
    have hq := Sched.queue_blockAt (p := .semWait n) s hidle rfl
    rw [if_neg hpos, if_neg (Sched.currTask_blockAt hs hidle rfl)]
    refine ⟨?_, ?_, fun _ => ?_, ?_, ?_⟩
    · rw [hc]
      exact h.nonneg
    · rw [hc]
      exact hmax
    · rw [hc]
      exact h0
    · rw [hc]
      exact hbal
    · rw [hq, h.order, List.append_assoc]

theorem SemInv.semNotify (h : SemInv n c s g) (hs : Sched.Inv s)
    (hroom : s.semCount n < intMax) :
    SemInv n c (s.semNotify n)
      (g.call n s.currTask (s.semNotify n).currTask (s.madeReady (s.semNotify n))
        (.semNotify n)) := by
  have hnn := h.nonneg
  have hbal := h.balance
  rw [SemHist.call_semNotify]
  cases hq : s.queue (.semWait n) with
  | nil =>
    -- nobody waits: the permit is kept in the count
    have he : s.semNotify n
        = { s with semCount := Function.update s.semCount n (cInt (s.semCount n + 1)) } := by
      unfold Sched.semNotify
      rw [hq]
    have hcount : cInt (s.semCount n + 1) = s.semCount n + 1 := cInt_eq (by omega) (by omega)
    have hmade : s.madeReady (s.semNotify n) = none := by
      rw [he]
      exact if_neg (Nat.lt_irrefl _)
    rw [hmade, he, hcount, Option.toList_none, List.append_nil]
    refine ⟨?_, ?_, fun hne => absurd hq hne, ?_, h.order⟩
    · show 0 ≤ Function.update s.semCount n (s.semCount n + 1) n
      rw [Function.update_self]
      omega
    · show Function.update s.semCount n (s.semCount n + 1) n ≤ intMax
      rw [Function.update_self]
      omega
    · show c + (g.notifies + 1 : Nat)
        = Function.update s.semCount n (s.semCount n + 1) n + (g.granted + 0 : Nat)
      rw [Function.update_self]
      omega
  | cons t l =>
    -- the permit goes to the first waiter and the count stays 0
    have he : s.semNotify n
        = (Sched.setReady { s with queue := Lib.dequeue s.queue (.semWait n) t } t).dispatch := by
      unfold Sched.semNotify
      rw [hq]
    obtain ⟨hql, hready⟩ := Sched.queue_wake hs (p := .semWait n) rfl hq
    have hmade : s.madeReady (s.semNotify n) = some t := by
      unfold Sched.madeReady
      rw [he, Sched.queue_dispatch, hready, List.length_append, List.getLast?_concat]
      exact if_pos (by simp)
    have hc : (s.semNotify n).semCount = s.semCount := by
      rw [he, Sched.semCount_dispatch, Sched.semCount_setReady]
    have h0 : s.semCount n = 0 := h.waiters (by rw [hq]; simp)
    have hq' : (s.semNotify n).queue (.semWait n) = l := by
      rw [he, Sched.queue_dispatch]
      exact hql
    rw [hmade, Option.toList_some]
    refine ⟨?_, ?_, fun _ => ?_, ?_, ?_⟩
    · rw [hc]
      exact hnn
    · rw [hc]
      exact h.le_max
    · rw [hc]
      exact h0
    · rw [hc]
      simp only [List.length_singleton]
      omega
    · rw [hq', h.order, hq, List.append_assoc, List.singleton_append]

/-- Every event keeps the history true, as long as no notify finds the
count at `INT_MAX`. -/
theorem semInv_step {e : Event} (h : SemInv n c s g) (hs : Sched.Inv s)
    (hroom : e = .semNotify n → s.semCount n < intMax) (he : schedStep s e = some s') :
    SemInv n c s' (g.call n s.currTask s'.currTask (s.madeReady s') e) := by
  by_cases hp : e.place = some (.semWait n)
  · have hc := Sched.schedCall_of_step he
    cases e with
    | semWait r =>
      obtain rfl : r = n := by simpa [Event.place] using hp
      rw [schedCall, Option.some.injEq] at hc
      exact hc ▸ h.semWait hs (Sched.currTask_ne_idle he rfl) _
    | semNotify r =>
      obtain rfl : r = n := by simpa [Event.place] using hp
      rw [schedCall, Option.some.injEq] at hc
      exact hc ▸ h.semNotify hs (hroom rfl)
    | _ => simp [Event.place] at hp
  · rw [g.call_of_place_ne hp]
    exact h.congr (Sched.sameAt_step (p := .semWait n) rfl hp he)

end

/-! ## The kernel -/

/-- The kernel state and the history of semaphore `n` agree. -/
def SemOk (n : Nat) (c : Int) (x : Kernel × SemHist) : Prop :=
  ∃ s, Refines x.1 s ∧ Sched.Inv s ∧ SemInv n c s x.2

/-- A notify finds room in the count. -/
def roomToNotify (n : Nat) (x : Kernel × SemHist) (e : Event) : Prop :=
  e = .semNotify n → (x.1.sem n).count < intMax

theorem semOk_step {n : Nat} {c : Int} (x : Kernel × SemHist) (e : Event) (y : Kernel × SemHist)
    (h : SemOk n c x) (hd : roomToNotify n x e) (hy : semStep n x e = some y) : SemOk n c y := by
  obtain ⟨s, hr, hs, hm⟩ := h
  obtain ⟨hk, hg⟩ := observed_eq_some.mp hy
  obtain ⟨s', hs', hr'⟩ := refines_step hr hs hk
  refine ⟨s', hr', Sched.inv_step s e s' hs hs', ?_⟩
  unfold roomToNotify at hd
  rw [hr.count_eq] at hd
  rw [hg]
  unfold SemHist.note
  rw [hr.curr_eq, hr'.curr_eq, hr.madeReady_eq hr']
  exact semInv_step hm hs hd hs'

/-- The permits of one semaphore, in every run whose notifies find room in
the count. -/
theorem sem_permits_conserved (counts : Nat → Int) (n : Nat) (es : List Event) (k : Kernel)
    (g : SemHist) (h0 : 0 ≤ counts n) (hmax : counts n ≤ intMax)
    (hroom : Along (semStep n) (roomToNotify n) (kernelInit counts, SemHist.init) es)
    (h : run (semStep n) (kernelInit counts, SemHist.init) es = some (k, g)) :
    0 ≤ (k.sem n).count ∧
    counts n + g.notifies = (k.sem n).count + g.granted ∧
    ∃ w : List TaskId,
      Rep k.node (k.sem n).waitList (w.map .waitNode) ∧
      (w ≠ [] → (k.sem n).count = 0) ∧
      g.blocked = g.woken ++ w := by
  have hinit : SemOk n (counts n) (kernelInit counts, SemHist.init) :=
    ⟨_, refines_init counts, Sched.inv_init counts, semInv_init h0 hmax⟩
  obtain ⟨s, hr, hs, hm⟩ := run_invariant_along semOk_step hinit hroom h
  dsimp only at hr hm
  rw [hr.count_eq]
  exact ⟨hm.nonneg, hm.balance, s.queue (.semWait n), hr.reps (.semWait n), hm.waiters, hm.order⟩

theorem sem_permits_conserved_wait_wait :
    ∃ k g, run (semStep 0) (kernelInit fun _ => 1, SemHist.init)
        [.semWait 0, .semWait 0, .semNotify 0] = some (k, g) ∧
      (0 ≤ (k.sem 0).count ∧
      1 + g.notifies = (k.sem 0).count + g.granted ∧
      ∃ w : List TaskId,
        Rep k.node (k.sem 0).waitList (w.map .waitNode) ∧
        (w ≠ [] → (k.sem 0).count = 0) ∧
        g.blocked = g.woken ++ w) := by
  refine ⟨_, _, rfl, sem_permits_conserved (fun _ => 1) 0 [.semWait 0, .semWait 0, .semNotify 0]
    _ _ (by decide) (by decide) ?_ rfl⟩
  refine ⟨fun hc => absurd hc (by simp), fun x hx => ⟨fun hc => absurd hc (by simp),
    fun y hy => ⟨fun _ => ?_, fun _ _ => trivial⟩⟩⟩
  obtain rfl := Option.some.inj hx
  obtain rfl := Option.some.inj hy
  decide

/-- A notify at `INT_MAX` makes the count negative. -/
theorem notify_at_intMax :
    ∃ k g, run (semStep 0) (kernelInit fun _ => intMax, SemHist.init) [.semNotify 0]
        = some (k, g) ∧
      (k.sem 0).count = -2147483648 ∧ ¬ 0 ≤ (k.sem 0).count :=
  ⟨_, _, rfl, rfl, by decide⟩

end Wjos
