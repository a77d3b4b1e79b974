/-
Wjos.Core.ProcessSlots — which slots of `task_table` are in use.

A fork in progress has its slot from `alloc_task` to `task_start`, and the
structure is `TASK_CREATED` all that time; a live or zombie task has any
other state. `SlotsInv` says that these uses exclude one another. It is kept
by every step but an `alloc_task` that returns a slot in use.

`alloc_task` goes by the name, so the steps that must not happen are those
that leave a slot in use without one: an `alloc_task` while another fork has
not come to the copy of the name in `task_init`, and a `sys_execve` of a path
that ends in a separator.
-/
import Wjos.Lib.Run
import Wjos.Core.Process

namespace Wjos

open Lib

namespace ProcTable

variable {s : ProcTable} {t u : TaskId} {p : Proc} {pc : Pc}

@[simp] theorem setTask_pc : (s.setTask t p).pc = s.pc := rfl

@[simp] theorem setPc_task : (s.setPc t pc).task = s.task := rfl

@[simp] theorem setTask_task : (s.setTask t p).task u = if u = t then p else s.task u := by
  simp only [setTask, Function.update_apply]

@[simp] theorem setPc_pc : (s.setPc t pc).pc u = if u = t then pc else s.pc u := by
  simp only [setPc, Function.update_apply]

@[simp] theorem procInit_pc {child : Nat} :
    (procInit s t child).pc u = if u = .slot child then .user else s.pc u := by
  simp only [procInit, setPc_pc, setTask_pc]

@[simp] theorem procInit_task {child : Nat} :
    (procInit s t child).task u = if u = .slot child then
      { state := .created, tid := some (.slot child), parent := none, status := 0
        name := kernelStrncpy (s.task (.slot child)).name (s.task t).name taskNameSize }
    else s.task u := by
  simp only [procInit, setPc_task, setTask_task]

@[simp] theorem execveName_pc {path : List UInt8} : (execveName s t path).pc = s.pc := rfl

@[simp] theorem execveName_task {path : List UInt8} :
    (execveName s t path).task u = if u = t then
      { s.task t with
        name := kernelStrncpy (s.task t).name (cString (getFileName path)) taskNameSize }
    else s.task u := setTask_task

end ProcTable

/-! ## What a step does -/

/-- The steps, one constructor for each way a section can end. -/
inductive Steps (s : ProcTable) : ProcEvent → ProcTable → Prop where
  | allocNone (t) : s.pc t = .user → allocTask s = none → Steps s (.forkAlloc t) s
  | alloc (t child) : s.pc t = .user → allocTask s = some child →
      Steps s (.forkAlloc t) (s.setPc t (.forkInit child))
  | init (t child) : s.pc t = .forkInit child →
      Steps s (.forkInit t) ((procInit s t child).setPc t (.forkParent child))
  | parent (t child) : s.pc t = .forkParent child →
      Steps s (.forkParent t) ((s.setTask (.slot child)
        { s.task (.slot child) with parent := some t }).setPc t (.forkStart child))
  | start (t child) : s.pc t = .forkStart child →
      Steps s (.forkStart t) ((s.setTask (.slot child)
        { s.task (.slot child) with state := .ready }).setPc t .user)
  | execve (t path) : s.pc t = .user → Steps s (.execve t path) (execveName s t path)
  | scanNone (t) : s.pc t = .user ∨ s.pc t = .waitScan →
      findSlot (zombieChild s t) taskNr 0 = none →
      Steps s (.waitScan t) (s.setPc t .waitBlock)
  | reap (t i) : s.pc t = .user ∨ s.pc t = .waitScan →
      findSlot (zombieChild s t) taskNr 0 = some i →
      Steps s (.waitScan t) ((s.setTask (.slot i) Proc.zero).setPc t .user)
  | block (t) : s.pc t = .waitBlock →
      Steps s (.waitBlock t)
        ((s.setTask t { s.task t with state := .waitting }).setPc t .waitScan)
  | reparent (t) : s.pc t = .user →
      Steps s (.exitReparent t) ({ s with task := procReparent s t }.setPc t
        (.exitFinal (findSlot (zombieChild s t) taskNr 0).isSome))
  | exit (t status moveChild s₁) : s.pc t = .exitFinal moveChild →
      procExitFinal s t moveChild status = some s₁ →
      Steps s (.exitFinal t status) (s₁.setPc t .user)

/-- What a step does, and that its task runs. -/
theorem procStep_steps {s s' : ProcTable} {e : ProcEvent} (h : procStep s e = some s') :
    (s.task e.task).state.runs = true ∧ Steps s e s' := by
  unfold procStep at h
  split at h
  swap
  · cases h
  next hrun =>
    refine ⟨hrun, ?_⟩
    cases e with
    | forkAlloc t =>
      cases hpc : s.pc t <;> simp only [procCall, ProcEvent.task, hpc, reduceCtorEq] at h
      split at h
      next ha => exact Option.some.inj h ▸ .allocNone t hpc ha
      next child ha => exact Option.some.inj h ▸ .alloc t child hpc ha
    | forkInit t =>
      cases hpc : s.pc t <;> simp only [procCall, ProcEvent.task, hpc, reduceCtorEq] at h
      exact Option.some.inj h ▸ .init t _ hpc
    | forkParent t =>
      cases hpc : s.pc t <;> simp only [procCall, ProcEvent.task, hpc, reduceCtorEq] at h
      exact Option.some.inj h ▸ .parent t _ hpc
    | forkStart t =>
      cases hpc : s.pc t <;> simp only [procCall, ProcEvent.task, hpc, reduceCtorEq] at h
      exact Option.some.inj h ▸ .start t _ hpc
    | execve t path =>
      cases hpc : s.pc t <;> simp only [procCall, ProcEvent.task, hpc, reduceCtorEq] at h
      exact Option.some.inj h ▸ .execve t path hpc
    | waitScan t =>
      have hpc : s.pc t = .user ∨ s.pc t = .waitScan := by
        cases hpc : s.pc t <;> simp only [procCall, ProcEvent.task, hpc, reduceCtorEq] at h
        · exact .inl rfl
        · exact .inr rfl
      cases hf : findSlot (zombieChild s t) taskNr 0 with
      | none =>
        rcases hpc with hpc | hpc <;>
          simp only [procCall, ProcEvent.task, hpc, waitScan, hf, Option.some.injEq] at h
        · exact h ▸ .scanNone t (.inl hpc) hf
        · exact h ▸ .scanNone t (.inr hpc) hf
      | some i =>
        rcases hpc with hpc | hpc <;>
          simp only [procCall, ProcEvent.task, hpc, waitScan, hf, Option.some.injEq] at h
        · exact h ▸ .reap t i (.inl hpc) hf
        · exact h ▸ .reap t i (.inr hpc) hf
    | waitBlock t =>
      cases hpc : s.pc t <;> simp only [procCall, ProcEvent.task, hpc, reduceCtorEq] at h
      exact Option.some.inj h ▸ .block t hpc
    | exitReparent t =>
      cases hpc : s.pc t <;> simp only [procCall, ProcEvent.task, hpc, reduceCtorEq] at h
      exact Option.some.inj h ▸ .reparent t hpc
    | exitFinal t status =>
      cases hpc : s.pc t <;> simp only [procCall, ProcEvent.task, hpc, reduceCtorEq] at h
      obtain ⟨s₁, h₁, h⟩ := Option.map_eq_some_iff.mp h
      exact h ▸ .exit t status _ s₁ hpc h₁

/-- Waking tasks that wait changes no other field, and no other task. -/
structure Wakes (s s' : ProcTable) : Prop where
  pc_eq : s'.pc = s.pc
  task : ∀ u, s'.task u = s.task u ∨
    ((s.task u).state = .waitting ∧ s'.task u = { s.task u with state := .ready })

theorem Wakes.refl (s : ProcTable) : Wakes s s := ⟨rfl, fun _ => .inl rfl⟩

theorem Wakes.wake {s s' : ProcTable} (h : Wakes s s') (t : TaskId) :
    Wakes s (wakeWaitting s' t) := by
  unfold wakeWaitting
  split
  next hw =>
    refine ⟨h.pc_eq, fun u => ?_⟩
    rw [ProcTable.setTask_task]
    split
    next hu =>
      subst hu
      rcases h.task u with he | ⟨-, he⟩
      · exact .inr ⟨he ▸ hw, by rw [he]⟩
      · rw [he] at hw
        exact absurd hw (by simp)
    · exact h.task u
  · exact h

/-- The end of `sys_exit`: the caller is a zombie with its status. -/
theorem procExitFinal_cases {s s₁ : ProcTable} {t : TaskId} {moveChild : Bool} {status : Int}
    (h : procExitFinal s t moveChild status = some s₁) :
    (∃ parent, (s.task t).parent = some parent) ∧ s₁.pc = s.pc ∧
      s₁.task t = { s.task t with state := .zombie, status := status } ∧
      ∀ u, u ≠ t → s₁.task u = s.task u ∨
        ((s.task u).state = .waitting ∧ s₁.task u = { s.task u with state := .ready }) := by
  unfold procExitFinal at h
  split at h
  · cases h
  next parent hp =>
    dsimp only at h
    have hw : Wakes s (wakeWaitting
        (if moveChild = true ∧ parent ≠ .first then wakeWaitting s .first else s) parent) := by
      split
      · exact ((Wakes.refl s).wake _).wake _
      · exact (Wakes.refl s).wake _
    rw [← Option.some.inj h]
    refine ⟨⟨parent, hp⟩, hw.pc_eq, ?_, fun u hu => ?_⟩
    · rw [ProcTable.setTask_task, if_pos rfl]
      rcases hw.task t with he | ⟨-, he⟩ <;> rw [he]
    · rw [ProcTable.setTask_task, if_neg hu]
      exact hw.task u

/-- A step leaves the other tasks where they stand, or in user code. -/
theorem procStep_pc_other {s s' : ProcTable} {e : ProcEvent} {u : TaskId}
    (h : procStep s e = some s') (hu : e.task ≠ u) (huser : s.pc u = .user) : s'.pc u = .user := by
  obtain ⟨-, hst⟩ := procStep_steps h
  cases hst with
  | allocNone t hpc ha => exact huser
  | exit t status moveChild s₁ hpc he =>
    have hpc₁ := (procExitFinal_cases he).2.1
    simp [hpc₁, huser]
  | _ => simp [huser] <;> exact fun he => hu he.symm

/-- A task that takes no step of a run stays in user code. -/
theorem run_pc_user {es : List ProcEvent} {u : TaskId} (hu : ∀ e ∈ es, e.task ≠ u) :
    ∀ {s t : ProcTable}, s.pc u = .user → run procStep s es = some t → t.pc u = .user := by
  induction es with
  | nil =>
    intro s t hs hr
    exact Option.some.inj hr ▸ hs
  | cons e es ih =>
    intro s t hs hr
    obtain ⟨s₁, h₁, hr⟩ := run_cons_eq_some.mp hr
    exact ih (fun e' he' => hu e' (List.mem_cons_of_mem e he'))
      (procStep_pc_other h₁ (hu e List.mem_cons_self) hs) hr

/-! ## Slots in use -/

/-- The slot that a fork in progress has. -/
def Pc.builds : Pc → Option Nat
  | .forkInit child => some child
  | .forkParent child => some child
  | .forkStart child => some child
  | _ => none

/-- Slot `i` holds no live or zombie task, and no fork has it. -/
def SlotFree (s : ProcTable) (i : Nat) : Prop :=
  (s.task (.slot i)).state = .created ∧ ∀ u, (s.pc u).builds ≠ some i

/-- Slots are used by one task or one fork. -/
structure SlotsInv (s : ProcTable) : Prop where
  built : ∀ t i, (s.pc t).builds = some i → i < taskNr ∧ (s.task (.slot i)).state = .created
  sole : ∀ t u i, (s.pc t).builds = some i → (s.pc u).builds = some i → t = u
  inCall : ∀ t, s.pc t ≠ .user → (s.task t).state ≠ .created ∧ (s.task t).state ≠ .zombie

/-- `alloc_task` returns no slot in use. -/
def GivenFree (s : ProcTable) : ProcEvent → Prop
  | .forkAlloc _ => ∀ i, allocTask s = some i → SlotFree s i
  | _ => True

theorem slotsInv_initial : SlotsInv procInitial where
  built := fun _ _ h => by simp [procInitial, Pc.builds] at h
  sole := fun _ _ _ h => by simp [procInitial, Pc.builds] at h
  inCall := fun _ h => absurd rfl h

theorem runs_not {st : TaskState} (h : st.runs = true) :
    st ≠ .created ∧ st ≠ .zombie ∧ st ≠ .waitting := by
  cases st <;> simp_all [TaskState.runs]

theorem allocTask_lt {s : ProcTable} {i : Nat} (h : allocTask s = some i) :
    (s.task (.slot i)).name 0 = 0 ∧ i < taskNr := by
  obtain ⟨hn, -, hi⟩ := findSlot_eq_some h
  exact ⟨of_decide_eq_true hn, by omega⟩

/-- What the scan of `sys_wait` finds. -/
theorem zombieChild_found {s : ProcTable} {t : TaskId} {i : Nat}
    (h : findSlot (zombieChild s t) taskNr 0 = some i) :
    i < taskNr ∧ (s.task (.slot i)).parent = some t ∧ (s.task (.slot i)).state = .zombie := by
  obtain ⟨hz, -, hi⟩ := findSlot_eq_some h
  simp only [zombieChild, Bool.and_eq_true, decide_eq_true_eq] at hz
  exact ⟨by omega, hz⟩

/-- Moving the children keeps every other field. -/
theorem procReparent_eq (s : ProcTable) (t u : TaskId) :
    procReparent s t u = { s.task u with parent := (procReparent s t u).parent } := by
  cases u with
  | slot i =>
    simp only [procReparent]
    split <;> rfl
  | _ => rfl

/-- A step after which no slot is newly taken by a fork. -/
theorem SlotsInv.of_change {s s' : ProcTable} (h : SlotsInv s)
    (hb : ∀ u i, (s'.pc u).builds = some i → (s.pc u).builds = some i)
    (hstate : ∀ u i, (s'.pc u).builds = some i →
      (s'.task (.slot i)).state = (s.task (.slot i)).state)
    (hin : ∀ u, s'.pc u ≠ .user → (s'.task u).state ≠ .created ∧ (s'.task u).state ≠ .zombie) :
    SlotsInv s' where
  built := fun u i hu => ⟨(h.built u i (hb u i hu)).1,
    (hstate u i hu).trans (h.built u i (hb u i hu)).2⟩
  sole := fun u v i hu hv => h.sole u v i (hb u i hu) (hb v i hv)
  inCall := hin

/-- One step. -/
theorem SlotsInv.step {s s' : ProcTable} {e : ProcEvent} (h : SlotsInv s) (hg : GivenFree s e)
    (hs : procStep s e = some s') : SlotsInv s' := by
  obtain ⟨hrun, hst⟩ := procStep_steps hs
  obtain ⟨hcr, hz, hw⟩ := runs_not hrun
  have hb := h.built
  have hsole := h.sole
  have hin := h.inCall
  cases hst with
  | allocNone t hpc ha => exact h
  | alloc t child hpc ha =>
    obtain ⟨hfree, hno⟩ := hg child ha
    have hlt := (allocTask_lt ha).2
    refine ⟨fun u i hu => ?_, fun u v i hu hv => ?_, fun u hu => ?_⟩ <;>
      simp at * <;> grind [Pc.builds, ProcEvent.task]
  | init t child hpc =>
    -- the child is created already, and in no call
    refine h.of_change (fun u i hu => ?_) (fun u i hu => ?_) fun u hu => ?_ <;>
      simp at hu ⊢ <;> grind [Pc.builds, ProcEvent.task]
  | parent t child hpc =>
    refine h.of_change (fun u i hu => ?_) (fun u i hu => ?_) fun u hu => ?_ <;>
      simp at hu ⊢ <;> grind [Pc.builds, ProcEvent.task]
  | start t child hpc =>
    -- no other fork has the slot that becomes live
    refine h.of_change (fun u i hu => ?_) (fun u i hu => ?_) fun u hu => ?_ <;>
      simp at hu ⊢ <;> grind [Pc.builds, ProcEvent.task]
  | execve t path hpc =>
    refine h.of_change (fun u i hu => hu) (fun u i hu => ?_) fun u hu => ?_ <;>
      simp at hu ⊢ <;> grind
  | scanNone t hpc hf =>
    refine h.of_change (fun u i hu => ?_) (fun u i hu => ?_) fun u hu => ?_ <;>
      simp at hu ⊢ <;> grind [Pc.builds, ProcEvent.task]
  | reap t i hpc hf =>
    -- a zombie is in no call, so its slot is not in one either
    obtain ⟨-, -, hzi⟩ := zombieChild_found hf
    refine h.of_change (fun u i hu => ?_) (fun u i hu => ?_) fun u hu => ?_ <;>
      simp at hu ⊢ <;> grind [Pc.builds, ProcEvent.task]
  | block t hpc =>
    refine h.of_change (fun u i hu => ?_) (fun u i hu => ?_) fun u hu => ?_ <;>
      simp at hu ⊢ <;> grind [Pc.builds, ProcEvent.task]
  | reparent t hpc =>
    have hstate : ∀ u, (procReparent s t u).state = (s.task u).state := fun u => by
      rw [procReparent_eq]
    refine h.of_change (fun u i hu => ?_) (fun u i hu => ?_) fun u hu => ?_ <;>
      simp [hstate] at hu ⊢ <;> grind [Pc.builds, ProcEvent.task]
  | exit t status moveChild s₁ hpc he =>
    obtain ⟨-, hpc₁, htask, hother⟩ := procExitFinal_cases he
    have hsame : ∀ v, (s.task v).state = .created → s₁.task v = s.task v := fun v hv =>
      (hother v fun hvt => hcr (hvt ▸ hv)).resolve_right (by simp [hv])
    refine h.of_change (fun u i hu => ?_) (fun u i hu => ?_) fun u hu => ?_ <;>
      simp [hpc₁] at hu ⊢ <;> grind [Pc.builds, ProcEvent.task]

/-! ## Slots and names -/

/-- Tasks have a name, and so have those that a fork has come to name. -/
structure NamesInv (s : ProcTable) : Prop extends SlotsInv s where
  named : ∀ t, (s.task t).state ≠ .created → (s.task t).name 0 ≠ 0
  copied : ∀ t i, s.pc t = .forkParent i ∨ s.pc t = .forkStart i →
    (s.task (.slot i)).name 0 ≠ 0

/-- The steps that keep the name of every slot in use: no `alloc_task` while
another fork has a slot it has not named, and no `sys_execve` of a path
without a file name. -/
def KeepsNames (s : ProcTable) : ProcEvent → Prop
  | .forkAlloc _ => ∀ u i, s.pc u ≠ .forkInit i
  | .execve _ path => getFileName path ≠ []
  | _ => True

theorem namesInv_initial : NamesInv procInitial where
  toSlotsInv := slotsInv_initial
  named := fun t h => by
    cases t with
    | first => simp [procInitial, cString]
    | _ => exact absurd rfl h
  copied := fun t i h => by simp [procInitial] at h

/-- A slot without a name is free, apart from one that is to be named. -/
theorem NamesInv.givenFree {s : ProcTable} {e : ProcEvent} (h : NamesInv s)
    (hk : KeepsNames s e) : GivenFree s e := by
  cases e with
  | forkAlloc t =>
    intro i hi
    have hname := (allocTask_lt hi).1
    refine ⟨?_, fun u hu => ?_⟩
    · by_contra hst
      exact h.named _ hst hname
    · cases hpc : s.pc u with
      | forkInit c => exact hk u c hpc
      | forkParent c =>
        rw [hpc, Pc.builds, Option.some.injEq] at hu
        exact h.copied u c (.inl hpc) (hu ▸ hname)
      | forkStart c =>
        rw [hpc, Pc.builds, Option.some.injEq] at hu
        exact h.copied u c (.inr hpc) (hu ▸ hname)
      | _ => simp [hpc, Pc.builds] at hu
  | _ => trivial

/-- The name that a task gives itself is not empty. -/
theorem execveName_head {s : ProcTable} {t : TaskId} {path : List UInt8}
    (h : getFileName path ≠ []) : ((execveName s t path).task t).name 0 ≠ 0 := by
  rw [ProcTable.execveName_task, if_pos rfl]
  show kernelStrncpy _ _ taskNameSize 0 ≠ 0
  rw [kernelStrncpy_head (by decide)]
  exact fun h0 => h ((cString_zero getFileName_ne_zero).mp h0)

/-- One step. -/
theorem NamesInv.step {s s' : ProcTable} {e : ProcEvent} (h : NamesInv s) (hk : KeepsNames s e)
    (hs : procStep s e = some s') : NamesInv s' := by
  suffices hnames : (∀ t, (s'.task t).state ≠ .created → (s'.task t).name 0 ≠ 0) ∧
      ∀ t i, s'.pc t = .forkParent i ∨ s'.pc t = .forkStart i → (s'.task (.slot i)).name 0 ≠ 0 from
    ⟨h.toSlotsInv.step (h.givenFree hk) hs, hnames.1, hnames.2⟩
  obtain ⟨hrun, hst⟩ := procStep_steps hs
  obtain ⟨hcr, hz, hw⟩ := runs_not hrun
  have hb := h.built
  have hsole := h.sole
  have hn := h.named
  have hc := h.copied
  cases hst with
  | allocNone t hpc ha => exact ⟨hn, hc⟩
  | alloc t child hpc ha =>
    refine ⟨fun u hu => ?_, fun u i hu => ?_⟩ <;> simp at hu ⊢ <;> grind
  | init t child hpc =>
    -- the child gets the name of its parent, which has one
    have hname : ∀ v, ((procInit s t child).task v).name 0 =
        if v = .slot child then (s.task t).name 0 else (s.task v).name 0 := by
      intro v
      rw [ProcTable.procInit_task]
      split
      · exact kernelStrncpy_head (by decide : 3 ≤ taskNameSize)
      · rfl
    refine ⟨fun u hu => ?_, fun u i hu => ?_⟩
    · rw [ProcTable.setPc_task, hname]
      split
      · exact hn t hcr
      next hne =>
        rw [ProcTable.setPc_task, ProcTable.procInit_task, if_neg hne] at hu
        exact hn u hu
    · rw [ProcTable.setPc_task, hname]
      split
      · exact hn t hcr
      · simp at hu
        grind
  | parent t child hpc =>
    refine ⟨fun u hu => ?_, fun u i hu => ?_⟩ <;> simp at hu ⊢ <;> grind
  | start t child hpc =>
    refine ⟨fun u hu => ?_, fun u i hu => ?_⟩ <;> simp at hu ⊢ <;> grind
  | execve t path hpc =>
    have hname : ∀ v, (s.task v).name 0 ≠ 0 → ((execveName s t path).task v).name 0 ≠ 0 := by
      intro v hv
      by_cases hvt : v = t
      · exact hvt ▸ execveName_head hk
      · rwa [ProcTable.execveName_task, if_neg hvt]
    refine ⟨fun u hu => hname u ?_, fun u i hu => hname _ (hc u i hu)⟩
    simp at hu
    grind
  | scanNone t hpc hf =>
    refine ⟨fun u hu => ?_, fun u i hu => ?_⟩ <;> simp at hu ⊢ <;> grind
  | reap t i hpc hf =>
    obtain ⟨-, -, hzi⟩ := zombieChild_found hf
    refine ⟨fun u hu => ?_, fun u j hu => ?_⟩ <;> simp at hu ⊢ <;>
      grind [Proc.zero, Pc.builds]
  | block t hpc =>
    refine ⟨fun u hu => ?_, fun u i hu => ?_⟩ <;> simp at hu ⊢ <;> grind [ProcEvent.task]
  | reparent t hpc =>
    have hsame : ∀ u, (procReparent s t u).state = (s.task u).state ∧
        (procReparent s t u).name = (s.task u).name := fun u => by
      rw [procReparent_eq]
      exact ⟨rfl, rfl⟩
    refine ⟨fun u hu => ?_, fun u i hu => ?_⟩ <;> simp [hsame] at hu ⊢ <;> grind
  | exit t status moveChild s₁ hpc he =>
    obtain ⟨-, hpc₁, htask, hother⟩ := procExitFinal_cases he
    have hname : ∀ u, (s₁.task u).name = (s.task u).name := fun u => by
      by_cases hu : u = t
      · rw [hu, htask]
      · rcases hother u hu with he | ⟨-, he⟩ <;> rw [he]
    refine ⟨fun u hu => ?_, fun u i hu => ?_⟩
    · rw [ProcTable.setPc_task, hname]
      by_cases hut : u = t
      · exact hut ▸ hn t hcr
      · refine hn u ?_
        rcases hother u hut with he | ⟨hwt, -⟩
        · exact he ▸ hu
        · simp [hwt]
    · rw [ProcTable.setPc_task, hname]
      simp [hpc₁] at hu
      grind

/-- In every run that keeps the names, by any tasks in any order, every
`alloc_task` returns a slot that holds no live or zombie task and that no
other fork has. -/
theorem alloc_returns_free_slot {es : List ProcEvent}
    (h : Along procStep KeepsNames procInitial es) : Along procStep GivenFree procInitial es :=
  Along.of_invariant (fun _ _ _ hi hk hs => hi.step hk hs) (fun _ _ hi hk => hi.givenFree hk)
    namesInv_initial h

/-- A whole `sys_fork` of `t`. -/
def forkCall (t : TaskId) : List ProcEvent :=
  [.forkAlloc t, .forkInit t, .forkParent t, .forkStart t]

/-- `first_task` forks and the child runs `/bin/ls`. -/
theorem alloc_returns_free_slot_fork_execve :
    (run procStep procInitial
      (forkCall .first ++ [.execve (.slot 0) [47, 98, 105, 110, 47, 108, 115]])).isSome = true ∧
    Along procStep GivenFree procInitial
      (forkCall .first ++ [.execve (.slot 0) [47, 98, 105, 110, 47, 108, 115]]) :=
  ⟨by decide +kernel, alloc_returns_free_slot ⟨fun u i => by simp [procInitial], fun _ _ =>
    ⟨trivial, fun _ _ => ⟨trivial, fun _ _ => ⟨trivial, fun _ _ =>
      ⟨(by decide : getFileName [47, 98, 105, 110, 47, 108, 115] ≠ []),
        fun _ _ => trivial⟩⟩⟩⟩⟩⟩

/-- Two ways to a slot in use: a fork that comes between another's
`alloc_task` and its copy of the name gets the same slot, and a child that
runs `/` loses its name, so that its slot is given to the next fork. -/
theorem alloc_returns_used_slot :
    (∃ s s', run procStep procInitial (forkCall .first ++ [.forkAlloc .first]) = some s ∧
      s.pc .first = .forkInit 1 ∧ procStep s (.forkAlloc (.slot 0)) = some s' ∧
      s'.pc (.slot 0) = .forkInit 1) ∧
    ∃ s s', run procStep procInitial (forkCall .first ++ [.execve (.slot 0) [47]]) = some s ∧
      (s.task (.slot 0)).state = .ready ∧ procStep s (.forkAlloc .first) = some s' ∧
      s'.pc .first = .forkInit 0 := by
  constructor
  · have h : (run procStep procInitial (forkCall .first ++ [.forkAlloc .first])).any (fun s =>
        decide (s.pc .first = .forkInit 1) && (procStep s (.forkAlloc (.slot 0))).any fun s' =>
          decide (s'.pc (.slot 0) = .forkInit 1)) = true := by
      decide +kernel
    obtain ⟨s, hs, h⟩ := (Option.any_eq_true ..).mp h
    rw [Bool.and_eq_true, decide_eq_true_iff] at h
    obtain ⟨s', hs', h'⟩ := (Option.any_eq_true ..).mp h.2
    exact ⟨s, s', hs, h.1, hs', of_decide_eq_true h'⟩
  · have h : (run procStep procInitial (forkCall .first ++ [.execve (.slot 0) [47]])).any (fun s =>
        decide ((s.task (.slot 0)).state = .ready) && (procStep s (.forkAlloc .first)).any fun s' =>
          decide (s'.pc .first = .forkInit 0)) = true := by
      decide +kernel
    obtain ⟨s, hs, h⟩ := (Option.any_eq_true ..).mp h
    rw [Bool.and_eq_true, decide_eq_true_iff] at h
    obtain ⟨s', hs', h'⟩ := (Option.any_eq_true ..).mp h.2
    exact ⟨s, s', hs, h.1, hs', of_decide_eq_true h'⟩

end Wjos
