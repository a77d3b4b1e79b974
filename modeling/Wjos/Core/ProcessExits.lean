/-
Wjos.Core.ProcessExits — every exit is reaped once, by the right parent.

A task is known to the kernel by the address of its slot, and slots are used
again. `History` gives each task a serial number when its fork makes it a
child, and notes beside the run who exited with which status and what each
`sys_wait` returned. `ExitsInv` ties the table to the history: a slot in use
belongs to the task with its serial number, which has exited exactly when the
slot is a zombie and has not been reaped, and a parent pointer leads to the
parent itself, which has not begun to give its children away, or to
`first_task`. `exits_reaped_once` reads the promises of the two calls off it.
-/
import Wjos.Core.ProcessSlots

namespace Wjos

open Lib

/-- A return of `sys_wait`: the task that was reaped, by its number, the
caller, what was returned, and the parent field of the slot at that time. -/
structure Reap where
  task : Nat
  caller : TaskId
  callerNr : Nat
  pid : Option TaskId
  status : Int
  parent : Option TaskId

/-- What has happened: `made` tasks so far, the number of the task in a slot,
the slot and the parent of a task, and the exits and reaps. -/
structure History where
  made : Nat
  serial : TaskId → Nat
  place : Nat → TaskId
  father : Nat → Nat
  exited : List (Nat × Int)
  reaped : List Reap

/-- The fork of `t` makes the task in slot `child`. -/
def History.make (h : History) (t : TaskId) (child : Nat) : History :=
  { h with
    made := h.made + 1
    serial := Function.update h.serial (.slot child) h.made
    place := Function.update h.place h.made (.slot child)
    father := Function.update h.father h.made (h.serial t) }

/-- `t` exits. -/
def History.exit (h : History) (t : TaskId) (status : Int) : History :=
  { h with exited := h.exited ++ [(h.serial t, status)] }

/-- `sys_wait` of `t` returns `pid` and `status` for slot `i`. -/
def History.reap (h : History) (s : ProcTable) (t : TaskId) (i : Nat) (pid : Option TaskId)
    (status : Int) : History :=
  { h with
    reaped := h.reaped ++ [{
      task := h.serial (.slot i)
      caller := t
      callerNr := h.serial t
      pid := pid
      status := status
      parent := (s.task (.slot i)).parent }] }

/-- What a step adds to the history. -/
def History.note (h : History) (s : ProcTable) (e : ProcEvent) (_ : ProcTable) : History :=
  match e with
  | .forkParent t =>
    match s.pc t with
    | .forkParent child => h.make t child
    | _ => h
  | .exitFinal t status => h.exit t status
  | .waitScan t =>
    match findSlot (zombieChild s t) taskNr 0, (waitScan s t).2 with
    | some i, some (pid, status) => h.reap s t i pid status
    | _, _ => h
  | _ => h

/-- `first_task` is number 0. -/
def historyInit : History where
  made := 1
  serial := fun _ => 0
  place := fun _ => .first
  father := fun _ => 0
  exited := []
  reaped := []

/-- A task in the table: started, or made a child by a fork in progress. -/
def InUse (s : ProcTable) (t : TaskId) : Prop :=
  (s.task t).state ≠ .created ∨ ∃ u i, s.pc u = .forkStart i ∧ t = .slot i

/-- What `sys_exit` and `sys_wait` promise. -/
structure ExitsReaped (s : ProcTable) (h : History) : Prop where
  /-- A task exits once. -/
  exits_once : (h.exited.map Prod.fst).Nodup
  /-- No task is returned by two calls of `sys_wait`. -/
  reaped_once : (h.reaped.map Reap.task).Nodup
  /-- A call returns the identifier and the status of a task that exited and
  whose parent was the caller. -/
  reaped_right : ∀ r ∈ h.reaped, (r.task, r.status) ∈ h.exited ∧
    r.pid = some (h.place r.task) ∧ r.parent = some r.caller ∧
    (r.caller = .first ∨ h.father r.task = r.callerNr)
  /-- The children of a task that exited belong to `first_task`. -/
  orphans : ∀ i, InUse s (.slot i) → h.father (h.serial (.slot i)) ∈ h.exited.map Prod.fst →
    (s.task (.slot i)).parent = some .first

/-! ## The invariant -/

/-- The task in `t` is the one the history has there. -/
structure Known (s : ProcTable) (h : History) (t : TaskId) : Prop where
  lt : h.serial t < h.made
  place : h.place (h.serial t) = t
  tid : (s.task t).tid = some t
  zombie : (s.task t).state = .zombie → (h.serial t, (s.task t).status) ∈ h.exited
  alive : (s.task t).state ≠ .zombie → h.serial t ∉ h.exited.map Prod.fst
  not_reaped : h.serial t ∉ h.reaped.map Reap.task
  small : ∀ i, t = .slot i → i < taskNr

/-- `p` is in the table and has not begun to give its children away. -/
def Keeps (s : ProcTable) (p : TaskId) : Prop :=
  (s.task p).state ≠ .created ∧ (s.task p).state ≠ .zombie ∧ ∀ m, s.pc p ≠ .exitFinal m

structure ExitsInv (s : ProcTable) (h : History) : Prop extends SlotsInv s where
  known : ∀ t, InUse s t → Known s h t
  named : ∀ t i, s.pc t = .forkParent i → (s.task (.slot i)).tid = some (.slot i)
  parent : ∀ i p, (s.task (.slot i)).parent = some p → InUse s (.slot i) ∧
    (p = .first ∨ (Keeps s p ∧ h.father (h.serial (.slot i)) = h.serial p))
  child : ∀ i, InUse s (.slot i) → (s.task (.slot i)).parent ≠ none
  first : (s.task .first).state ≠ .created ∧ (s.task .first).state ≠ .zombie ∧
    (s.task .first).parent = none
  exited_lt : ∀ n ∈ h.exited.map Prod.fst, n < h.made
  exits_once : (h.exited.map Prod.fst).Nodup
  reaped_once : (h.reaped.map Reap.task).Nodup
  reaped_right : ∀ r ∈ h.reaped, (r.task, r.status) ∈ h.exited ∧
    r.pid = some (h.place r.task) ∧ r.parent = some r.caller ∧
    (r.caller = .first ∨ h.father r.task = r.callerNr)

theorem exitsInv_initial : ExitsInv procInitial historyInit where
  toSlotsInv := slotsInv_initial
  known := by
    intro t ht
    have hfirst : t = .first := by
      cases t with
      | first => rfl
      | _ => simp [InUse, procInitial, Proc.zero] at ht
    subst hfirst
    exact ⟨by decide, rfl, rfl, by simp [procInitial], by simp [historyInit], by simp [historyInit],
      by simp⟩
  named := fun t i h => by simp [procInitial] at h
  parent := fun i p h => by simp [procInitial, Proc.zero] at h
  child := fun i h => by simp [InUse, procInitial, Proc.zero] at h
  first := ⟨by decide, by decide, rfl⟩
  exited_lt := fun n hn => by simp [historyInit] at hn
  exits_once := by simp [historyInit]
  reaped_once := by simp [historyInit]
  reaped_right := fun r hr => by simp [historyInit] at hr

/-- The promises follow. -/
theorem ExitsInv.exitsReaped {s : ProcTable} {h : History} (hi : ExitsInv s h) :
    ExitsReaped s h where
  exits_once := hi.exits_once
  reaped_once := hi.reaped_once
  reaped_right := hi.reaped_right
  orphans := by
    intro i hu hf
    obtain ⟨p, hp⟩ := Option.ne_none_iff_exists'.mp (hi.child i hu)
    rcases (hi.parent i p hp).2 with rfl | ⟨⟨hcr, hz, -⟩, hfather⟩
    · exact hp
    · exact absurd (hfather ▸ hf) ((hi.known p (.inl hcr)).alive hz)

/-! ## Steps that neither make, end nor reap a task -/

section Quiet

variable {s s' : ProcTable} {h : History} {t : TaskId}

theorem inUse_first : InUse s .first ↔ (s.task .first).state ≠ .created := by
  simp [InUse]

/-- A task that runs is in the table. -/
theorem inUse_of_runs (hrun : (s.task t).state.runs = true) : InUse s t :=
  .inl (runs_not hrun).1

/-- A slot that no fork is about to start, and that holds no task. -/
theorem SlotsInv.not_inUse (hi : SlotsInv s) {i : Nat} (hst : (s.task (.slot i)).state = .created)
    (hb : (s.pc t).builds = some i) (hpc : s.pc t ≠ .forkStart i) : ¬InUse s (.slot i) := by
  rintro (hcr | ⟨u, j, hu, hj⟩)
  · exact hcr hst
  · obtain rfl : i = j := TaskId.slot.inj hj
    obtain rfl := hi.sole t u i hb (by rw [hu]; rfl)
    exact hpc hu

/-- What a quiet step leaves as it is. -/
structure Quiet (s s' : ProcTable) : Prop where
  use : ∀ u, InUse s' u ↔ InUse s u
  tid : ∀ u, InUse s u → (s'.task u).tid = (s.task u).tid
  zombie : ∀ u, (s'.task u).state = .zombie ↔ (s.task u).state = .zombie
  status : ∀ u, InUse s u → (s'.task u).status = (s.task u).status
  parent : ∀ u, (s'.task u).parent = (s.task u).parent
  keeps : ∀ p, Keeps s p → Keeps s' p

theorem ExitsInv.quiet (hi : ExitsInv s h) (hq : Quiet s s') (hslots : SlotsInv s')
    (hnamed : ∀ t i, s'.pc t = .forkParent i → (s'.task (.slot i)).tid = some (.slot i)) :
    ExitsInv s' h where
  toSlotsInv := hslots
  known := by
    intro u hu
    rw [hq.use] at hu
    have hk := hi.known u hu
    constructor
    · exact hk.lt
    · exact hk.place
    · rw [hq.tid u hu]
      exact hk.tid
    · rw [hq.zombie, hq.status u hu]
      exact hk.zombie
    · rw [ne_eq, hq.zombie]
      exact hk.alive
    · exact hk.not_reaped
    · exact hk.small
  named := hnamed
  parent := by
    intro i p hp
    rw [hq.parent] at hp
    obtain ⟨hu, hfirst | ⟨hkeep, hf⟩⟩ := hi.parent i p hp
    · exact ⟨(hq.use _).mpr hu, .inl hfirst⟩
    · exact ⟨(hq.use _).mpr hu, .inr ⟨hq.keeps p hkeep, hf⟩⟩
  child := by
    intro i hu
    rw [hq.parent]
    exact hi.child i ((hq.use _).mp hu)
  first := by
    obtain ⟨hcr, hz, hp⟩ := hi.first
    refine ⟨inUse_first.mp ((hq.use _).mpr (inUse_first.mpr hcr)), ?_, ?_⟩
    · rwa [ne_eq, hq.zombie]
    · rwa [hq.parent]
  exited_lt := hi.exited_lt
  exits_once := hi.exits_once
  reaped_once := hi.reaped_once
  reaped_right := hi.reaped_right

theorem Quiet.trans {s'' : ProcTable} (h : Quiet s s') (h' : Quiet s' s'') : Quiet s s'' where
  use := fun u => (h'.use u).trans (h.use u)
  tid := fun u hu => (h'.tid u ((h.use u).mpr hu)).trans (h.tid u hu)
  zombie := fun u => (h'.zombie u).trans (h.zombie u)
  status := fun u hu => (h'.status u ((h.use u).mpr hu)).trans (h.status u hu)
  parent := fun u => (h'.parent u).trans (h.parent u)
  keeps := fun p hp => h'.keeps p (h.keeps p hp)

/-- A store into the structure of a live task that keeps it alive. -/
theorem Quiet.setTask {p : Proc} (hrun : (s.task t).state.runs = true)
    (hp : p.state ≠ .created ∧ p.state ≠ .zombie) (htid : p.tid = (s.task t).tid)
    (hstatus : p.status = (s.task t).status) (hparent : p.parent = (s.task t).parent) :
    Quiet s (s.setTask t p) := by
  obtain ⟨hcr, hz, -⟩ := runs_not hrun
  constructor
  · intro u
    simp [InUse]
    grind
  · intro u _
    simp
    grind
  · intro u
    simp
    grind
  · intro u _
    simp
    grind
  · intro u
    simp
    grind
  · intro q hq
    have hk := hq
    simp [Keeps] at hk ⊢
    grind

/-- A task that runs goes on to a place that starts no fork and is not the
end of `sys_exit`. -/
theorem Quiet.setPc {pc : Pc} (hpc : ∀ i, s.pc t ≠ .forkStart i) (hne : ∀ i, pc ≠ .forkStart i)
    (hexit : ∀ m, pc ≠ .exitFinal m) : Quiet s (s.setPc t pc) where
  use := by
    intro u
    simp only [InUse, ProcTable.setPc_task, ProcTable.setPc_pc]
    grind
  tid := fun _ _ => rfl
  zombie := fun _ => Iff.rfl
  status := fun _ _ => rfl
  parent := fun _ => rfl
  keeps := by
    intro p hp
    refine ⟨hp.1, hp.2.1, fun m => ?_⟩
    rw [ProcTable.setPc_pc]
    split
    · exact hexit m
    · exact hp.2.2 m

end Quiet

/-! ## Steps that make, end or reap a task -/

section Life

variable {s s₁ : ProcTable} {h : History} {t : TaskId}

/-- Two tasks in the table have different numbers. -/
theorem ExitsInv.serial_inj (hi : ExitsInv s h) {u v : TaskId} (hu : InUse s u) (hv : InUse s v)
    (he : h.serial u = h.serial v) : u = v := by
  rw [← (hi.known u hu).place, he, (hi.known v hv).place]

/-- What was reaped has exited. -/
theorem ExitsInv.reaped_lt (hi : ExitsInv s h) {n : Nat} (hn : n ∈ h.reaped.map Reap.task) :
    n < h.made := by
  obtain ⟨r, hr, rfl⟩ := List.mem_map.mp hn
  exact hi.exited_lt r.task (List.mem_map.mpr ⟨_, (hi.reaped_right r hr).1, rfl⟩)

/-- `sys_fork` stores the parent: the child gets the next number. -/
theorem ExitsInv.make (hi : ExitsInv s h) {child : Nat} (hrun : (s.task t).state.runs = true)
    (hpc : s.pc t = .forkParent child)
    (hslots : SlotsInv ((s.setTask (.slot child)
      { s.task (.slot child) with parent := some t }).setPc t (.forkStart child))) :
    ExitsInv ((s.setTask (.slot child)
      { s.task (.slot child) with parent := some t }).setPc t (.forkStart child))
      (h.make t child) := by
  have hb : (s.pc t).builds = some child := by rw [hpc]; rfl
  obtain ⟨hlt, hst⟩ := hi.built t child hb
  have hnot := hi.not_inUse hst hb (by simp [hpc])
  obtain ⟨hcr, hz, hw⟩ := runs_not hrun
  have htc : t ≠ .slot child := fun he => hcr (he ▸ hst)
  set s' := (s.setTask (.slot child)
    { s.task (.slot child) with parent := some t }).setPc t (.forkStart child) with hs'
  have huse : ∀ u, InUse s' u → u = .slot child ∨ (u ≠ .slot child ∧ InUse s u) := by
    intro u hu
    simp [hs', InUse] at hu ⊢
    grind
  have huse' : ∀ u, InUse s u → InUse s' u := by
    intro u hu
    simp [hs', InUse] at hu ⊢
    grind
  have hself : InUse s' (.slot child) := .inr ⟨t, child, by simp [hs'], rfl⟩
  have hother : ∀ u, u ≠ .slot child → s'.task u = s.task u ∧
      (h.make t child).serial u = h.serial u := by
    intro u hu
    simp [hs', History.make, hu]
  have hplace : ∀ n, n < h.made → (h.make t child).place n = h.place n ∧
      (h.make t child).father n = h.father n := by
    intro n hn
    simp [History.make, Nat.ne_of_lt hn]
  have hkeeps : ∀ p, Keeps s p → Keeps s' p := by
    intro p hp
    have hne : p ≠ .slot child := fun he => hp.1 (he ▸ hst)
    refine ⟨(hother p hne).1 ▸ hp.1, (hother p hne).1 ▸ hp.2.1, fun m => ?_⟩
    have := hp.2.2 m
    simp [hs']
    grind
  refine ⟨hslots, fun u hu => ?_, fun u i hu => ?_, fun i p hp => ?_, fun i hu => ?_, ?_,
    fun n hn => ?_, hi.exits_once, hi.reaped_once, fun r hr => ?_⟩
  · rcases huse u hu with rfl | ⟨hne, hold⟩
    · -- the new number is in neither list
      have hserial : (h.make t child).serial (.slot child) = h.made := Function.update_self ..
      constructor
      · rw [hserial]
        exact Nat.lt_succ_self _
      · rw [hserial]
        exact Function.update_self ..
      · simpa [hs'] using hi.named t child hpc
      · simp [hs', hst]
      · rw [hserial]
        exact fun _ hm => Nat.lt_irrefl _ (hi.exited_lt _ hm)
      · rw [hserial]
        exact fun hm => Nat.lt_irrefl _ (hi.reaped_lt hm)
      · exact fun i he => TaskId.slot.inj he ▸ hlt
    · have hk := hi.known u hold
      obtain ⟨htask, hserial⟩ := hother u hne
      constructor
      · rw [hserial]
        exact Nat.lt_succ_of_lt hk.lt
      · rw [hserial, (hplace _ hk.lt).1]
        exact hk.place
      · rw [htask]
        exact hk.tid
      · rw [htask, hserial]
        exact hk.zombie
      · rw [htask, hserial]
        exact hk.alive
      · rw [hserial]
        exact hk.not_reaped
      · exact hk.small
  · have hname := hi.named
    have hsole := hi.sole
    simp [hs'] at hu ⊢
    grind
  · by_cases hc : i = child
    · subst hc
      have hpt : p = t := by simpa [hs', eq_comm] using hp
      subst hpt
      refine ⟨hself, .inr ⟨⟨?_, ?_, fun m => ?_⟩, ?_⟩⟩
      · rw [(hother p htc).1]
        exact hcr
      · rw [(hother p htc).1]
        exact hz
      · simp [hs']
      · rw [(hother p htc).2]
        simp [History.make]
    · have hne : TaskId.slot i ≠ .slot child := fun he => hc (TaskId.slot.inj he)
      rw [(hother _ hne).1] at hp
      obtain ⟨hu, hfirst | ⟨hkeep, hf⟩⟩ := hi.parent i p hp
      · exact ⟨huse' _ hu, .inl hfirst⟩
      · have hpc' : p ≠ .slot child := fun he => hkeep.1 (he ▸ hst)
        refine ⟨huse' _ hu, .inr ⟨hkeeps p hkeep, ?_⟩⟩
        rw [(hother _ hne).2, (hother p hpc').2, (hplace _ (hi.known _ hu).lt).2]
        exact hf
  · rcases huse _ hu with hc | ⟨hne, hold⟩
    · obtain rfl := TaskId.slot.inj hc
      simp [hs']
    · rw [(hother _ hne).1]
      exact hi.child i hold
  · rw [(hother .first (by simp)).1]
    exact hi.first
  · exact Nat.lt_succ_of_lt (hi.exited_lt n hn)
  · obtain ⟨hex, hpid, hpar, hright⟩ := hi.reaped_right r hr
    have hlt' := hi.reaped_lt (List.mem_map_of_mem hr)
    rw [(hplace _ hlt').1, (hplace _ hlt').2]
    exact ⟨hex, hpid, hpar, hright⟩

/-- `sys_wait` returns: the slot is zeroed. -/
theorem ExitsInv.reap (hi : ExitsInv s h) {i : Nat} (hrun : (s.task t).state.runs = true)
    (hpc : s.pc t = .user ∨ s.pc t = .waitScan)
    (hf : findSlot (zombieChild s t) taskNr 0 = some i)
    (hslots : SlotsInv ((s.setTask (.slot i) Proc.zero).setPc t .user)) :
    ExitsInv ((s.setTask (.slot i) Proc.zero).setPc t .user)
      (h.reap s t i (s.task (.slot i)).tid (s.task (.slot i)).status) := by
  obtain ⟨hlt, hpar, hzi⟩ := zombieChild_found hf
  obtain ⟨hcr, hz, hw⟩ := runs_not hrun
  have hold : InUse s (.slot i) := .inl (by simp [hzi])
  have hki := hi.known _ hold
  set s' := (s.setTask (.slot i) Proc.zero).setPc t .user with hs'
  have huse : ∀ u, InUse s' u → u ≠ .slot i ∧ InUse s u := by
    intro u hu
    have hb := hi.built
    simp [hs', InUse] at hu ⊢
    grind [Pc.builds, Proc.zero]
  have huse' : ∀ u, u ≠ .slot i → InUse s u → InUse s' u := by
    intro u hne hu
    simp [hs', InUse] at hu ⊢
    grind
  have hother : ∀ u, u ≠ .slot i → s'.task u = s.task u := fun u hu => by simp [hs', hu]
  refine ⟨hslots, fun u hu => ?_, fun u j hu => ?_, fun j p hp => ?_, fun j hu => ?_, ?_,
    hi.exited_lt, hi.exits_once, ?_, fun r hr => ?_⟩
  · obtain ⟨hne, hu⟩ := huse u hu
    have hk := hi.known u hu
    refine ⟨hk.lt, hk.place, ?_, ?_, ?_, ?_, hk.small⟩
    · rw [hother u hne]
      exact hk.tid
    · rw [hother u hne]
      exact hk.zombie
    · rw [hother u hne]
      exact hk.alive
    · intro hm
      rw [History.reap, List.map_append, List.mem_append] at hm
      rcases hm with hm | hm
      · exact hk.not_reaped hm
      · exact hne (hi.serial_inj hu hold (by simpa using hm))
  · have hname := hi.named
    have hb := hi.built
    simp [hs'] at hu ⊢
    grind [Pc.builds]
  · have hne : TaskId.slot j ≠ .slot i := by
      intro he
      rw [he] at hp
      simp [hs', Proc.zero] at hp
    rw [hother _ hne] at hp
    obtain ⟨hu, hfirst | ⟨hkeep, hf⟩⟩ := hi.parent j p hp
    · exact ⟨huse' _ hne hu, .inl hfirst⟩
    · have hpi : p ≠ .slot i := fun he => hkeep.2.1 (he ▸ hzi)
      refine ⟨huse' _ hne hu, .inr ⟨⟨?_, ?_, fun m => ?_⟩, hf⟩⟩
      · rw [hother p hpi]
        exact hkeep.1
      · rw [hother p hpi]
        exact hkeep.2.1
      · have := hkeep.2.2 m
        simp [hs']
        grind
  · obtain ⟨hne, hu⟩ := huse _ hu
    rw [hother _ hne]
    exact hi.child j hu
  · rw [hother .first (by simp)]
    exact hi.first
  · -- it was not reaped before
    rw [History.reap, List.map_append, List.nodup_append]
    refine ⟨hi.reaped_once, by simp, fun a ha b hb => ?_⟩
    rw [List.map_singleton, List.mem_singleton] at hb
    intro he
    rw [he, hb] at ha
    exact hki.not_reaped ha
  · rw [History.reap, List.mem_append, List.mem_singleton] at hr
    rcases hr with hr | rfl
    · exact hi.reaped_right r hr
    · refine ⟨hki.zombie hzi, ?_, hpar, ?_⟩
      · show (s.task (.slot i)).tid = some (h.place (h.serial (.slot i)))
        rw [hki.place]
        exact hki.tid
      · rcases (hi.parent i t hpar).2 with hfirst | ⟨-, hfather⟩
        · exact .inl hfirst
        · exact .inr hfather

/-- `sys_exit` gives the children of its caller to `first_task`. -/
theorem ExitsInv.reparent (hi : ExitsInv s h) (hpc : s.pc t = .user) {m : Bool}
    (hslots : SlotsInv ({ s with task := procReparent s t }.setPc t (.exitFinal m))) :
    ExitsInv ({ s with task := procReparent s t }.setPc t (.exitFinal m)) h := by
  set s' := ({ s with task := procReparent s t } : ProcTable).setPc t (.exitFinal m) with hs'
  have htask : ∀ u, s'.task u = { s.task u with parent := (s'.task u).parent } :=
    procReparent_eq s t
  have hstate : ∀ u, (s'.task u).state = (s.task u).state := fun u => by rw [htask]
  have htid : ∀ u, (s'.task u).tid = (s.task u).tid := fun u => by rw [htask]
  have huse : ∀ u, InUse s' u ↔ InUse s u := by
    intro u
    simp only [InUse, hstate]
    simp [hs']
    grind
  have hparent : ∀ i, i < taskNr → (s'.task (.slot i)).parent =
      if (s.task (.slot i)).parent = some t then some .first else (s.task (.slot i)).parent := by
    intro i hlt
    show (procReparent s t (.slot i)).parent = _
    simp only [procReparent, hlt, true_and]
    split <;> rfl
  refine ⟨hslots, fun u hu => ?_, fun u i hu => ?_, fun i p hp => ?_, fun i hu => ?_, ?_,
    hi.exited_lt, hi.exits_once, hi.reaped_once, hi.reaped_right⟩
  · have hk := hi.known u ((huse u).mp hu)
    refine ⟨hk.lt, hk.place, ?_, ?_, ?_, hk.not_reaped, hk.small⟩
    · rw [htid]
      exact hk.tid
    · rw [htask]
      exact hk.zombie
    · rw [hstate]
      exact hk.alive
  · have hname := hi.named
    rw [htid]
    simp [hs'] at hu
    grind
  · -- a slot beyond the table has no parent
    have hlt : i < taskNr := by
      by_contra hge
      have hp' : (s.task (.slot i)).parent = some p := by
        have he : s'.task (.slot i) = s.task (.slot i) := if_neg fun hc => hge hc.1
        rw [← he]
        exact hp
      exact hge ((hi.known _ (hi.parent i p hp').1).small i rfl)
    rw [hparent i hlt] at hp
    split at hp
    next ht => exact ⟨(huse _).mpr (hi.parent i t ht).1, .inl (Option.some.inj hp).symm⟩
    next hne =>
      obtain ⟨hu, hfirst | ⟨hkeep, hf⟩⟩ := hi.parent i p hp
      · exact ⟨(huse _).mpr hu, .inl hfirst⟩
      · have hpt : p ≠ t := fun he => hne (he ▸ hp)
        refine ⟨(huse _).mpr hu, .inr ⟨⟨?_, ?_, fun m => ?_⟩, hf⟩⟩
        · rw [hstate]
          exact hkeep.1
        · rw [hstate]
          exact hkeep.2.1
        · have := hkeep.2.2 m
          simpa [hs', hpt] using this
  · have hu' := (huse _).mp hu
    rw [hparent i ((hi.known _ hu').small i rfl)]
    split
    · simp
    · exact hi.child i hu'
  · exact hi.first

/-- `sys_exit` ends: its caller becomes a zombie. -/
theorem ExitsInv.exit (hi : ExitsInv s h) (hrun : (s.task t).state.runs = true) {m : Bool}
    {status : Int} (hpc : s.pc t = .exitFinal m) (he : procExitFinal s t m status = some s₁)
    (hslots : SlotsInv (s₁.setPc t .user)) :
    ExitsInv (s₁.setPc t .user) (h.exit t status) := by
  obtain ⟨⟨p₀, hp₀⟩, hpc₁, htask, hother⟩ := procExitFinal_cases he
  obtain ⟨hcr, hz, hw⟩ := runs_not hrun
  have hkt := hi.known t (inUse_of_runs hrun)
  have hfirst : TaskId.first ≠ t := by
    rintro rfl
    exact absurd hp₀ (by simp [hi.first.2.2])
  have hfields : ∀ u, (s₁.task u).tid = (s.task u).tid ∧
      (s₁.task u).parent = (s.task u).parent := by
    intro u
    by_cases hu : u = t
    · rw [hu, htask]
      exact ⟨rfl, rfl⟩
    · rcases hother u hu with he | ⟨-, he⟩ <;> rw [he] <;> exact ⟨rfl, rfl⟩
  have hlive : ∀ u, u ≠ t → ((s₁.task u).state = .created ↔ (s.task u).state = .created) ∧
      ((s₁.task u).state = .zombie ↔ (s.task u).state = .zombie) ∧
      (s₁.task u).status = (s.task u).status := by
    intro u hu
    rcases hother u hu with he | ⟨hwt, he⟩
    · rw [he]
      exact ⟨Iff.rfl, Iff.rfl, rfl⟩
    · rw [he]
      simp [hwt]
  have huse : ∀ u, InUse (s₁.setPc t .user) u ↔ InUse s u := by
    intro u
    by_cases hu : u = t
    · subst hu
      simp [InUse, htask, hcr]
    · simp only [InUse, ProcTable.setPc_task, ne_eq, (hlive u hu).1]
      simp [hpc₁]
      grind
  refine ⟨hslots, fun u hu => ?_, fun u i hu => ?_, fun i p hp => ?_, fun i hu => ?_, ?_,
    fun n hn => ?_, ?_, hi.reaped_once, fun r hr => ?_⟩
  · have hk := hi.known u ((huse u).mp hu)
    refine ⟨hk.lt, hk.place, ?_, ?_, ?_, hk.not_reaped, hk.small⟩
    · rw [ProcTable.setPc_task, (hfields u).1]
      exact hk.tid
    · intro hzu
      rw [History.exit, List.mem_append]
      by_cases hut : u = t
      · subst hut
        exact .inr (by simp [htask])
      · rw [ProcTable.setPc_task, (hlive u hut).2.1] at hzu
        rw [ProcTable.setPc_task, (hlive u hut).2.2]
        exact .inl (hk.zombie hzu)
    · intro hzu
      have hut : u ≠ t := by
        rintro rfl
        exact hzu (by simp [htask])
      rw [ProcTable.setPc_task, ne_eq, (hlive u hut).2.1] at hzu
      rw [History.exit, List.map_append, List.mem_append, not_or]
      refine ⟨hk.alive hzu, fun hm => hut ?_⟩
      exact hi.serial_inj ((huse u).mp hu) (inUse_of_runs hrun) (by simpa using hm)
  · have hname := hi.named
    rw [ProcTable.setPc_task, (hfields _).1]
    simp [hpc₁] at hu
    grind
  · rw [ProcTable.setPc_task, (hfields _).2] at hp
    obtain ⟨hu, hp1 | ⟨hkeep, hf⟩⟩ := hi.parent i p hp
    · exact ⟨(huse _).mpr hu, .inl hp1⟩
    · -- the caller has no children left
      have hpt : p ≠ t := fun he => hkeep.2.2 m (he ▸ hpc)
      refine ⟨(huse _).mpr hu, .inr ⟨⟨?_, ?_, fun m' => ?_⟩, hf⟩⟩
      · rw [ProcTable.setPc_task, ne_eq, (hlive p hpt).1]
        exact hkeep.1
      · rw [ProcTable.setPc_task, ne_eq, (hlive p hpt).2.1]
        exact hkeep.2.1
      · have := hkeep.2.2 m'
        simpa [hpc₁, hpt] using this
  · rw [ProcTable.setPc_task, (hfields _).2]
    exact hi.child i ((huse _).mp hu)
  · rw [ProcTable.setPc_task, (hfields _).2, ne_eq, ne_eq, (hlive _ hfirst).1, (hlive _ hfirst).2.1]
    exact hi.first
  · rw [History.exit, List.map_append, List.mem_append] at hn
    rcases hn with hn | hn
    · exact hi.exited_lt n hn
    · have hnt : n = h.serial t := by simpa using hn
      rw [hnt]
      exact hkt.lt
  · -- it did not exit before
    rw [History.exit, List.map_append, List.nodup_append]
    refine ⟨hi.exits_once, by simp, fun a ha b hb => ?_⟩
    rw [List.map_singleton, List.mem_singleton] at hb
    intro he
    rw [he, hb] at ha
    exact hkt.alive hz ha
  · obtain ⟨hex, hrest⟩ := hi.reaped_right r hr
    exact ⟨List.mem_append_left _ hex, hrest⟩

end Life

/-- One step. -/
theorem ExitsInv.step {s s' : ProcTable} {h : History} {e : ProcEvent} (hi : ExitsInv s h)
    (hg : GivenFree s e) (hs : procStep s e = some s') : ExitsInv s' (h.note s e s') := by
  have hslots := hi.toSlotsInv.step hg hs
  obtain ⟨hrun, hst⟩ := procStep_steps hs
  obtain ⟨hcr, hz, hw⟩ := runs_not hrun
  have hname := hi.named
  cases hst with
  | allocNone t hpc ha => exact hi
  | alloc t child hpc ha =>
    refine hi.quiet (.setPc (by simp [hpc]) (by simp) (by simp)) hslots fun u i hu => ?_
    simp at hu ⊢
    grind
  | init t child hpc =>
    -- the slot was not in use, and is not yet
    have hb : (s.pc t).builds = some child := by rw [hpc]; rfl
    have hst := (hi.built t child hb).2
    have hnot := hi.not_inUse hst hb (by simp [hpc])
    have hnone : (s.task (.slot child)).parent = none := by
      by_contra hp
      obtain ⟨p, hp⟩ := Option.ne_none_iff_exists'.mp hp
      exact hnot (hi.parent child p hp).1
    have huser : s.pc (.slot child) = .user := by
      by_contra hp
      exact (hi.inCall _ hp).1 hst
    refine hi.quiet ⟨fun u => ?_, fun u hu => ?_, fun u => ?_, fun u hu => ?_, fun u => ?_,
      fun p hp => ?_⟩ hslots fun u i hu => ?_
    · simp [InUse]
      grind
    · have hne : u ≠ .slot child := fun he => hnot (he ▸ hu)
      simp [hne]
    · simp
      grind
    · have hne : u ≠ .slot child := fun he => hnot (he ▸ hu)
      simp [hne]
    · simp
      grind
    · have hne : p ≠ .slot child := fun he => hp.1 (he ▸ hst)
      have hk := hp.2.2
      simp [Keeps, hne, hp.1, hp.2.1]
      grind
    · simp at hu ⊢
      grind [Pc.builds]
  | parent t child hpc =>
    have hn : h.note s (.forkParent t) ((s.setTask (.slot child)
        { s.task (.slot child) with parent := some t }).setPc t (.forkStart child)) =
        h.make t child := by
      simp only [History.note, hpc]
    rw [hn]
    exact hi.make hrun hpc hslots
  | start t child hpc =>
    have hb : (s.pc t).builds = some child := by rw [hpc]; rfl
    have hst := (hi.built t child hb).2
    have hsole := hi.sole
    refine hi.quiet ⟨fun u => ?_, fun u hu => ?_, fun u => ?_, fun u hu => ?_, fun u => ?_,
      fun p hp => ?_⟩ hslots fun u i hu => ?_
    · simp [InUse]
      grind [Pc.builds]
    · simp
      grind
    · simp
      grind
    · simp
      grind
    · simp
      grind
    · have hk := hp.2.2
      have hne : p ≠ .slot child := fun he => hp.1 (he ▸ hst)
      simp [Keeps, hne, hp.1, hp.2.1]
      grind
    · simp at hu ⊢
      grind
  | execve t path hpc =>
    refine hi.quiet (.setTask hrun ⟨hcr, hz⟩ rfl rfl rfl) hslots fun u i hu => ?_
    simp at hu ⊢
    grind
  | scanNone t hpc hf =>
    have hn : h.note s (.waitScan t) (s.setPc t .waitBlock) = h := by
      simp [History.note, hf]
    rw [hn]
    refine hi.quiet (.setPc (by rcases hpc with hpc | hpc <;> simp [hpc]) (by simp) (by simp))
      hslots fun u i hu => ?_
    simp at hu ⊢
    grind
  | reap t i hpc hf =>
    have hn : h.note s (.waitScan t) ((s.setTask (.slot i) Proc.zero).setPc t .user) =
        h.reap s t i (s.task (.slot i)).tid (s.task (.slot i)).status := by
      simp only [History.note, waitScan, hf]
    rw [hn]
    exact hi.reap hrun hpc hf hslots
  | block t hpc =>
    have h₁ : Quiet s (s.setTask t { s.task t with state := .waitting }) :=
      .setTask hrun ⟨by simp, by simp⟩ rfl rfl rfl
    have h₂ : Quiet (s.setTask t { s.task t with state := .waitting })
        ((s.setTask t { s.task t with state := .waitting }).setPc t .waitScan) :=
      .setPc (by simp [hpc]) (by simp) (by simp)
    refine hi.quiet (h₁.trans h₂) hslots fun u i hu => ?_
    simp at hu ⊢
    grind
  | reparent t hpc => exact hi.reparent hpc hslots
  | exit t status moveChild s₁ hpc he => exact hi.exit hrun hpc he hslots

/-- In every run whose forks are given slots that are not in use, by any
tasks in any order, the exits are reaped once and by the right parent. -/
theorem exits_reaped_once {es : List ProcEvent} {s : ProcTable} {h : History}
    (hp : Along procStep GivenFree procInitial es)
    (hr : run (observed procStep History.note) (procInitial, historyInit) es = some (s, h)) :
    ExitsReaped s h := by
  have hstep : ∀ (x : ProcTable × History) e y, ExitsInv x.1 x.2 → GivenFree x.1 e →
      observed procStep History.note x e = some y → ExitsInv y.1 y.2 := by
    intro x e y hi hg hs
    obtain ⟨hs, hnote⟩ := observed_eq_some.mp hs
    rw [hnote]
    exact hi.step hg hs
  exact (run_invariant_along hstep exitsInv_initial (along_observed hp) hr).exitsReaped

/-- The child of `first_task` forks and exits, its own child exits, and
`first_task` reaps both. -/
def orphanRun : List ProcEvent :=
  forkCall .first ++ forkCall (.slot 0) ++
    [.exitReparent (.slot 0), .exitFinal (.slot 0) 3, .exitReparent (.slot 1),
      .exitFinal (.slot 1) 4, .waitScan .first, .waitScan .first]

/-- Both children are reaped by `first_task`, with their own status. -/
theorem exits_reaped_once_orphan :
    ∃ s h, run (observed procStep History.note) (procInitial, historyInit) orphanRun = some (s, h) ∧
      h.reaped.map (fun r => (r.task, r.status, r.caller)) =
        [(1, 3, .first), (2, 4, .first)] ∧ ExitsReaped s h := by
  have hrun : (run (observed procStep History.note) (procInitial, historyInit) orphanRun).any
      (fun x => decide (x.2.reaped.map (fun r => (r.task, r.status, r.caller)) =
        [(1, 3, .first), (2, 4, .first)])) = true := by
    decide +kernel
  obtain ⟨⟨s, h⟩, hr, hreaped⟩ := (Option.any_eq_true ..).mp hrun
  refine ⟨s, h, hr, of_decide_eq_true hreaped, exits_reaped_once (alloc_returns_free_slot ?_) hr⟩
  refine along_append.mpr ⟨along_append.mpr ⟨?_, fun s₁ h₁ => ?_⟩, fun s₂ h₂ => ?_⟩
  · exact ⟨fun u i => by simp [procInitial], fun _ _ => ⟨trivial, fun _ _ => ⟨trivial, fun _ _ =>
      ⟨trivial, fun _ _ => trivial⟩⟩⟩⟩
  · -- `first_task`, which took the steps so far, is in user code again
    have hfirst : (run procStep procInitial (forkCall .first)).all
        (fun s => decide (s.pc .first = .user)) = true := by
      decide +kernel
    rw [h₁, Option.all_some, decide_eq_true_iff] at hfirst
    refine ⟨fun u i hu => ?_, fun _ _ => ⟨trivial, fun _ _ => ⟨trivial, fun _ _ =>
      ⟨trivial, fun _ _ => trivial⟩⟩⟩⟩
    by_cases huf : u = .first
    · simp [huf, hfirst] at hu
    · have huser := run_pc_user (u := u) (by simp [forkCall, ProcEvent.task, Ne.symm huf]) rfl h₁
      simp [huser] at hu
  · exact ⟨trivial, fun _ _ => ⟨trivial, fun _ _ => ⟨trivial, fun _ _ => ⟨trivial, fun _ _ =>
      ⟨trivial, fun _ _ => ⟨trivial, fun _ _ => trivial⟩⟩⟩⟩⟩⟩

end Wjos
