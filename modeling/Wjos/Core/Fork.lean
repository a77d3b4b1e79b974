/-
Wjos.Core.Fork — `sys_fork` of `kernel/core/task.c` when descriptors, slots or
frames run out.

A fork is all or nothing (`AllOrNothing`) where it finds no slot, and where it
finds one, that of another task, together with a free descriptor and two
frames more than the copy of the address space takes: the kernel stack and the
directory of `tss_init`, which the copy replaces. In all other states it still
returns a tid. `task_init` does not look at what `tss_init` returns
(`tssInit_failed`), and `memory_copy_uvm` reports a failure with 0, which is
not below 0.
-/
import Wjos.Core.CopyUvmTheorems
import Wjos.Core.LifeTheorems

namespace Wjos.Os

open Lib

variable {φ α : Type} {L : FileLayer φ}

/-! ## What a fork promises -/

/-- `child` is a started copy of `t`, with a descriptor and a stack of its own. -/
structure ForkedChild (s : OsState φ) (t : TaskId) (s' : OsState φ) (child : TaskId) : Prop where
  other : child ≠ t
  started : (s'.task child).state = .ready
  uvm : ClonedUvm s.phys (s.task t).tss.cr3 s'.phys (s'.task child).tss.cr3
  tss : ∃ j, 0 < j ∧ j < gdtTableSize ∧ (s'.task child).tssSel = j * segmentDescSize ∧
    s.gdt j = 0 ∧ s'.gdt j = segmentAttr tssSize segTss
  stack : ∃ k < s.phys.frames, (s'.task child).tss.esp0 = frameAddr k + 4096 ∧
    s.phys.used k = false ∧ s'.phys.used k = true ∧
    frameAddr k ∉ uvmFrames s'.phys.mem (s'.task child).tss.cr3

/-- No task has been started, and nothing has been taken. -/
structure ForkUndone (s s' : OsState φ) : Prop where
  states : ∀ u, (s'.task u).state = (s.task u).state
  slots : ∀ i, (s'.task (.slot i)).name 0 = (s.task (.slot i)).name 0
  map : s'.phys.paddrAlloc.bitmap = s.phys.paddrAlloc.bitmap
  gdt : s'.gdt = s.gdt
  files : s'.files = s.files

/-- A tid and a child, or -1 and nothing. -/
def AllOrNothing (s : OsState φ) (t : TaskId) : Option TaskId → OsState φ → Prop
  | some child, s' => ForkedChild s t s' child
  | none, s' => ForkUndone s s'

/-! ## `tss_init` -/

section TssInit

variable {s s₁ : OsState φ} {task : TaskId} {cr3 flag entry esp j : Nat} {e : Int}

/-- `gdt_alloc_desc` finds a descriptor where there is one. -/
theorem gdtAllocDesc_neg {gdt : Gdt} :
    gdtAllocDesc gdt < 0 ↔ ¬∃ j, 0 < j ∧ j < gdtTableSize ∧ gdt j = 0 := by
  constructor
  · rintro h ⟨j, hpos, hlt, hfree⟩
    unfold gdtAllocDesc at h
    cases hf : findSlot (fun i => gdt i = 0) (gdtTableSize - 1) 1 with
    | none =>
      have hsize : gdtTableSize = 256 := rfl
      have hused := findSlot_eq_none.mp hf j (by omega) (by omega)
      simp [hfree] at hused
    | some i =>
      rw [hf] at h
      exact absurd h (by simp only [not_lt]; exact Int.natCast_nonneg _)
  · intro h
    by_contra hn
    obtain ⟨j, hpos, hlt, -, hfree⟩ := gdtAllocDesc_free hn
    exact h ⟨j, hpos, hlt, hfree⟩

theorem segmentDescSet_index {gdt : Gdt} :
    segmentDescSet gdt (j * segmentDescSize) tssSize segTss =
      Function.update gdt j (segmentAttr tssSize segTss) := by
  rw [segmentDescSet, selIndex]

/-- A descriptor that was free before it was set is given back. -/
theorem gdtFreeSel_set {gdt : Gdt} (h : gdt j = 0) (v : Nat) :
    gdtFreeSel (Function.update gdt j v) (j * segmentDescSize) = gdt := by
  rw [gdtFreeSel, selIndex, Function.update_idem]
  funext i
  by_cases hi : i = j
  · rw [hi, Function.update_self, h]
  · rw [Function.update_of_ne hi]

theorem gdtFreeSel_free {gdt : Gdt} (h : gdt j = 0) :
    gdtFreeSel gdt (j * segmentDescSize) = gdt := by
  have hset := gdtFreeSel_set h (gdt j)
  rwa [Function.update_eq_self] at hset

/-- `tss_init` between its first store and its last: the descriptor is set, memory is `m`. -/
structure TssHalf (s : OsState φ) (task : TaskId) (j : Nat) (m : PhysMem) (s' : OsState φ) :
    Prop where
  phys : s'.phys = m
  gdt : s'.gdt = Function.update s.gdt j (segmentAttr tssSize segTss)
  others : ∀ u, u ≠ task → s'.task u = s.task u

theorem TssHalf.set : Returns (· = s)
    (store fun s : OsState φ =>
      { s with gdt := segmentDescSet s.gdt (j * segmentDescSize) tssSize segTss })
    fun _ s' => TssHalf s task j s.phys s' :=
  .store fun _ hs => hs ▸ ⟨rfl, segmentDescSet_index, fun _ _ => rfl⟩

theorem TssHalf.setTask {m : PhysMem} {s' : OsState φ} {p : TaskT} (h : TssHalf s task j m s') :
    TssHalf s task j m (s'.setTask task p) :=
  ⟨h.phys, h.gdt, fun u hu => (Function.update_of_ne hu ..).trans (h.others u hu)⟩

theorem TssHalf.edit {m : PhysMem} {f : TaskT → TaskT} :
    Returns (TssHalf s task j m) (editTask task f) fun _ s' => TssHalf s task j m s' :=
  .store fun _ hs => hs.setTask

theorem TssHalf.look {m : PhysMem} {f : OsState φ → α} :
    Returns (TssHalf s task j m) (look f) fun _ s' => TssHalf s task j m s' :=
  .look fun _ hs => hs

/-- A program on physical memory that is known to run from `m` to `m'`. -/
theorem TssHalf.onPhys {m m' : PhysMem} {x : Prog PhysMem α} {a : α} (h : x m = some (a, m')) :
    Returns (TssHalf s task j m) (onPhys x) fun r s' => r = a ∧ TssHalf s task j m' s' := by
  intro s' hs
  refine ⟨(a, { s' with phys := m' }), onPhys_some (hs.phys ▸ h), rfl, rfl, hs.gdt, hs.others⟩

/-- What `tss_init` has set up where it returns 0. -/
structure TssReady (s s₁ : OsState φ) (task : TaskId) : Prop where
  grown : PhysGrown s.phys s₁.phys
  count : s₁.phys.freeCount + 2 = s.phys.freeCount
  others : ∀ u, u ≠ task → s₁.task u = s.task u
  tss : ∃ j, 0 < j ∧ j < gdtTableSize ∧ (s₁.task task).tssSel = j * segmentDescSize ∧
    s.gdt j = 0 ∧ s₁.gdt j = segmentAttr tssSize segTss
  stack : ∃ k < s.phys.frames, (s₁.task task).tss.esp0 = frameAddr k + 4096 ∧
    s.phys.used k = false ∧ s₁.phys.used k = true

theorem tssInit_none (h : gdtAllocDesc s.gdt < 0) :
    tssInit cr3 task flag entry esp s = some (-1, s) := by
  rw [tssInit, look_seq, if_pos h]
  rfl

theorem tssInit_sel (h : gdtAllocDesc s.gdt = (j * segmentDescSize : Nat)) :
    tssInit cr3 task flag entry esp s =
      tssInitSel cr3 task flag entry esp (j * segmentDescSize) s := by
  have hpos : ¬((j * segmentDescSize : Nat) : Int) < 0 := Int.not_lt.mpr (Int.natCast_nonneg _)
  rw [tssInit, look_seq, h, if_neg hpos, Int.toNat_natCast]

/-- With two frames `tss_init` returns 0. -/
theorem tssInitSel_ready (hm : PhysOk s.phys) (hpos : 0 < j) (hlt : j < gdtTableSize)
    (hj : s.gdt j = 0) (hfree : 2 ≤ s.phys.freeCount) :
    Returns (· = s) (tssInitSel cr3 task flag entry esp (j * segmentDescSize))
      fun e s₁ => e = 0 ∧ TssReady s s₁ task := by
  rcases paddrAllocPage_cases hm with ⟨hfull, -⟩ | ⟨k, hk, hkfree, he, -⟩
  · omega
  have hcount := freeCount_take hk hkfree
  have hgrown := PhysGrown.take hm hk hkfree
  rcases @memoryCreateUvm_step _ 0 hgrown.ok with ⟨hfull, -⟩ | ⟨d, m, hcreate, hcount', hcopied⟩
  · omega
  obtain ⟨use, hl, -, -⟩ := hcopied
  have hused : m.used k = true := by
    refine hl.grown.used k ?_
    rw [mark_used hk, if_pos rfl]
    decide
  refine TssHalf.set.seq fun _ => TssHalf.edit.seq fun _ => ?_
  refine TssHalf.look.seq fun codeSel => TssHalf.look.seq fun dataSel => ?_
  refine (TssHalf.onPhys he).seq fun kernelStack => ?_
  refine .branch (fun hz => ?_) fun _ => ?_
  · rintro s' ⟨rfl, -⟩
    exact absurd hz (frameAddr_pos k)
  · -- from here on the stack is in `esp0`
    let Q : PhysMem → OsState φ → Prop := fun m' s' =>
      TssHalf s task j m' s' ∧ (s'.task task).tss.esp0 = frameAddr k + 4096
    refine Returns.seq (Q := fun _ => Q (s.phys.mark k (~~~0))) ?_ fun _ => ?_
    · refine .store ?_
      rintro s' ⟨rfl, hs'⟩
      exact ⟨hs'.setTask, by simp [OsState.setTask]⟩
    refine Returns.seq (Q := fun pageDir s' => pageDir = frameAddr d ∧ Q m s') ?_ fun pageDir => ?_
    · rintro s' ⟨hs', hesp⟩
      obtain ⟨r, hr, hd, hr'⟩ := TssHalf.onPhys hcreate s' hs'
      rw [onPhys_some (hs'.phys ▸ hcreate)] at hr
      cases hr
      exact ⟨_, onPhys_some (hs'.phys ▸ hcreate), hd, hr', hesp⟩
    refine .branch (fun hz => ?_) fun _ => ?_
    · rintro s' ⟨rfl, -⟩
      exact absurd hz (frameAddr_pos d)
    · refine Returns.seq (Q := fun _ s' => TssReady s s' task) (.store ?_)
        fun _ => .ret fun s' hs' => ⟨rfl, hs'⟩
      rintro s' ⟨rfl, hs', hesp⟩
      refine ⟨?_, ?_, hs'.setTask.others, ?_, ?_⟩
      · show PhysGrown s.phys s'.phys
        rw [hs'.phys]
        exact hgrown.trans hl.grown
      · show s'.phys.freeCount + 2 = _
        rw [hs'.phys]
        omega
      · refine ⟨j, hpos, hlt, by simp [OsState.setTask], hj, ?_⟩
        show s'.gdt j = _
        rw [hs'.gdt, Function.update_self]
      · refine ⟨k, hk, ?_, hkfree, ?_⟩
        · simpa [OsState.setTask] using hesp
        · show s'.phys.used k = true
          rw [hs'.phys]
          exact hused

/-- `tss_init_failed`, where freeing the descriptor leaves those there were. -/
theorem gdt_tssInitFailed {kernelStack : Nat} (hj : s.gdt j = 0) :
    Triple (fun s' : OsState φ => s'.gdt = s.gdt ∨
        s'.gdt = Function.update s.gdt j (segmentAttr tssSize segTss))
      (tssInitFailed cr3 (j * segmentDescSize) kernelStack) fun _ s' => s'.gdt = s.gdt := by
  refine Triple.seq (Q := fun _ s' => s'.gdt = s.gdt) (.store ?_) fun _ => ?_
  · rintro s' (hs' | hs')
    · show gdtFreeSel s'.gdt _ = _
      rw [hs', gdtFreeSel_free hj]
    · show gdtFreeSel s'.gdt _ = _
      rw [hs', gdtFreeSel_set hj]
  · have hleaves : Leaves OsState.gdt (onlyIf (kernelStack ≠ 0)
        (onPhys (φ := φ) (memoryFreePage cr3 kernelStack))) := .onlyIf (.part fun _ _ => rfl)
    exact .seq (hleaves.keeps (· = s.gdt)) fun _ => .ret fun _ hs' => hs'

/-- With fewer frames it leaves the descriptors as they were. -/
theorem tssInitSel_failed (hm : PhysOk s.phys) (hj : s.gdt j = 0) (hfew : s.phys.freeCount < 2) :
    Triple (· = s) (tssInitSel cr3 task flag entry esp (j * segmentDescSize))
      fun _ s₁ => s₁.gdt = s.gdt := by
  refine TssHalf.set.triple.seq fun _ => TssHalf.edit.triple.seq fun _ => ?_
  refine TssHalf.look.triple.seq fun codeSel => TssHalf.look.triple.seq fun dataSel => ?_
  rcases paddrAllocPage_cases hm with ⟨-, he⟩ | ⟨k, hk, hkfree, he, -⟩
  · refine (TssHalf.onPhys he).triple.seq fun kernelStack => .branch (fun _ => ?_) fun hz => ?_
    · exact (gdt_tssInitFailed hj).imp (fun s' hs' => .inr hs'.2.gdt) fun _ _ hs' => hs'
    · rintro s' ⟨rfl, -⟩
      exact absurd rfl hz
  · have hcount := freeCount_take hk hkfree
    rcases @memoryCreateUvm_step _ 0 (PhysGrown.take hm hk hkfree).ok with
      ⟨-, hcreate⟩ | ⟨d, m, -, hcount', -⟩
    · refine (TssHalf.onPhys he).triple.seq fun kernelStack => .branch (fun hz => ?_) fun _ => ?_
      · rintro s' ⟨rfl, -⟩
        exact absurd hz (frameAddr_pos k)
      refine Triple.seq (Q := fun _ => TssHalf s task j (s.phys.mark k (~~~0)))
        (.store fun s' hs' => hs'.2.setTask) fun _ => ?_
      refine (TssHalf.onPhys hcreate).triple.seq fun pageDir => .branch (fun _ => ?_) fun hz => ?_
      · refine Triple.seq (Q := fun _ s' => s'.gdt = s.gdt) (.store fun s' hs' => ?_) fun _ => ?_
        · show gdtFreeSel s'.gdt _ = _
          rw [hs'.2.gdt, gdtFreeSel_set hj]
        · exact (gdt_tssInitFailed hj).imp (fun s' hs' => .inl hs') fun _ _ hs' => hs'
      · rintro s' ⟨rfl, -⟩
        exact absurd rfl hz
    · omega

end TssInit

/-! ## The call -/

section Fork

variable {s s₁ : OsState φ} {t child : TaskId} {p : TaskT} {e : Int} {d : Nat} {m : PhysMem}

/-- The call of `tss_init` that `sys_fork` makes through `task_init`. -/
def forkTss (child : TaskId) (p : TaskT) : Prog (OsState φ) Int := fun s =>
  let esp := le32 s.phys.mem (p.tss.esp0 - syscallFrameSize + 80)
  tssInit p.tss.cr3 child 0 (le32 s.phys.mem (p.tss.esp0 - syscallFrameSize + 52))
    ((esp + 4 * syscallParamCount) % 4294967296) s

theorem forkTss_ready (hm : PhysOk s.phys) (hdesc : ¬gdtAllocDesc s.gdt < 0)
    (hfree : 2 ≤ s.phys.freeCount) :
    ∃ s₁, forkTss child p s = some (0, s₁) ∧ TssReady s s₁ child := by
  obtain ⟨j, hpos, hlt, hsel, hj⟩ := gdtAllocDesc_free hdesc
  obtain ⟨⟨e, s₁⟩, htss, rfl, hready⟩ := tssInitSel_ready hm hpos hlt hj hfree s rfl
  refine ⟨s₁, ?_, hready⟩
  rw [forkTss, tssInit_sel hsel]
  exact htss

theorem forkTss_failed (hm : PhysOk s.phys)
    (hnot : gdtAllocDesc s.gdt < 0 ∨ s.phys.freeCount < 2)
    (h : forkTss child p s = some (e, s₁)) : s₁.gdt = s.gdt := by
  by_cases hdesc : gdtAllocDesc s.gdt < 0
  · rw [forkTss, tssInit_none hdesc] at h
    cases h
    rfl
  · obtain ⟨j, -, -, hsel, hj⟩ := gdtAllocDesc_free hdesc
    rw [forkTss, tssInit_sel hsel] at h
    exact tssInitSel_failed hm hj (hnot.resolve_left hdesc) s rfl _ h

theorem taskInit_some {cr3 flag entry esp : Nat} {name : Nat → UInt8}
    (h : tssInit cr3 child flag entry esp s = some (e, s₁)) :
    ∃ s₂, taskInit L cr3 child name flag entry esp s = some (0, s₂) ∧ s₂.phys = s₁.phys ∧
      s₂.gdt = s₁.gdt ∧ (s₂.task child).tid = some child ∧
      (s₂.task child).tssSel = (s₁.task child).tssSel ∧ ∀ u, (s₂.task u).tss = (s₁.task u).tss := by
  rw [taskInit, seq_some h, editTask, store_seq, store_seq]
  refine ⟨_, rfl, rfl, rfl, by simp [OsState.setTask], by simp [OsState.setTask], fun u => ?_⟩
  by_cases hu : u = child
  · simp [OsState.setTask, hu]
  · simp [OsState.setTask, hu]

theorem copyFrame_some {esp0 : Nat} : ∃ s₂, copyFrame esp0 t child s = some ((), s₂) ∧
    s₂.phys = s.phys ∧ s₂.gdt = s.gdt ∧ (s₂.task child).tid = (s.task child).tid ∧
    (s₂.task child).tssSel = (s.task child).tssSel ∧
    (∀ u, (s₂.task u).tss.cr3 = (s.task u).tss.cr3) ∧
    (s₂.task child).tss.esp0 = (s.task child).tss.esp0 := by
  refine ⟨_, rfl, rfl, rfl, by simp [OsState.setTask], by simp [OsState.setTask], fun u => ?_,
    by simp [OsState.setTask]⟩
  by_cases hu : u = child
  · simp [OsState.setTask, hu]
  · simp [OsState.setTask, hu]

/-- `sys_fork` returns where `tss_init` and the copy do, and returns the tid of
the child whatever these return. -/
theorem forkChild_some (h : forkTss child p s = some (e, s₁))
    (hcopy : memoryCopyUvm p.tss.cr3 (s₁.task t).tss.cr3 s₁.phys = some (d, m)) :
    ∃ s', forkChild L t child p s = some (some child, s') ∧ s'.phys = m ∧ s'.gdt = s₁.gdt ∧
      (s'.task child).state = .ready ∧ (s'.task child).tss.cr3 = d ∧
      (s'.task child).tss.esp0 = (s₁.task child).tss.esp0 ∧
      (s'.task child).tssSel = (s₁.task child).tssSel := by
  obtain ⟨s₂, hinit, hphys₂, hgdt₂, htid₂, hsel₂, htss₂⟩ :=
    @taskInit_some φ L s s₁ child e _ _ _ _ p.name h
  obtain ⟨s₃, hframe, hphys₃, hgdt₃, htid₃, hsel₃, hcr3₃, hesp₃⟩ :=
    @copyFrame_some φ { s₂ with files := L.copyOpenedFiles s₂.files t child } t child p.tss.esp0
  have heip : ∀ off, frameWord p.tss.esp0 off s =
      some (le32 s.phys.mem (p.tss.esp0 - syscallFrameSize + off), s) := fun off => rfl
  have hcopy₃ : memoryCopyUvm p.tss.cr3 (s₃.task t).tss.cr3 s₃.phys = some (d, m) := by
    rw [hcr3₃, hphys₃]
    show memoryCopyUvm _ (s₂.task t).tss.cr3 s₂.phys = _
    rw [htss₂, hphys₂, hcopy]
  rw [forkChild, seq_some (heip 52), seq_some (heip 80), seq_some hinit, if_neg (by decide),
    store_seq, seq_some hframe, look_seq, seq_some (onPhys_some hcopy₃), editTask, store_seq,
    if_neg (Nat.not_lt_zero _), editTask, store_seq]
  let s₅ := { s₃ with phys := m }.setTask child
    { s₃.task child with tss := { (s₃.task child).tss with cr3 := d } }
  refine ⟨s₅.setTask child { s₅.task child with state := .ready }, ?_, rfl, hgdt₃.trans hgdt₂,
    ?_, ?_, ?_, ?_⟩
  · have htid : (s₃.task child).tid = some child := htid₃.trans htid₂
    simp [look, s₅, OsState.setTask, htid]
  · simp [OsState.setTask]
  · simp [s₅, OsState.setTask]
  · simp only [s₅, OsState.setTask, Function.update_self]
    exact hesp₃.trans (congrArg Tss.esp0 (htss₂ child))
  · simp only [s₅, OsState.setTask, Function.update_self]
    exact hsel₃.trans hsel₂

/-- And only there. -/
theorem forkChild_parts {r : Option TaskId × OsState φ} (h : forkChild L t child p s = some r) :
    ∃ e s₁ d m, forkTss child p s = some (e, s₁) ∧
      memoryCopyUvm p.tss.cr3 (s₁.task t).tss.cr3 s₁.phys = some (d, m) := by
  have heip : ∀ off, frameWord p.tss.esp0 off s =
      some (le32 s.phys.mem (p.tss.esp0 - syscallFrameSize + off), s) := fun off => rfl
  rw [forkChild, seq_some (heip 52), seq_some (heip 80)] at h
  cases htss : forkTss child p s with
  | none =>
    have hnone : ∀ name, taskInit L p.tss.cr3 child name 0 _ _ s = none := fun name => seq_none htss
    rw [seq_none (hnone p.name)] at h
    cases h
  | some q =>
    obtain ⟨e, s₁⟩ := q
    obtain ⟨s₂, hinit, hphys₂, -, -, -, htss₂⟩ :=
      @taskInit_some φ L s s₁ child e _ _ _ _ p.name htss
    obtain ⟨s₃, hframe, hphys₃, -, -, -, hcr3₃, -⟩ :=
      @copyFrame_some φ { s₂ with files := L.copyOpenedFiles s₂.files t child } t child p.tss.esp0
    rw [seq_some hinit, if_neg (by decide), store_seq, seq_some hframe, look_seq] at h
    have hcopy₃ : memoryCopyUvm p.tss.cr3 (s₃.task t).tss.cr3 s₃.phys =
        memoryCopyUvm p.tss.cr3 (s₁.task t).tss.cr3 s₁.phys := by
      rw [hcr3₃, hphys₃]
      show memoryCopyUvm _ (s₂.task t).tss.cr3 s₂.phys = _
      rw [htss₂, hphys₂]
    cases hcopy : memoryCopyUvm p.tss.cr3 (s₁.task t).tss.cr3 s₁.phys with
    | none =>
      rw [seq_none (onPhys_none (hcopy₃.trans hcopy))] at h
      cases h
    | some q => exact ⟨e, s₁, q.1, q.2, rfl, hcopy⟩

theorem sysFork_none (h : allocTask s = none) : sysFork L t s = some (none, s) := by
  rw [sysFork, look_seq, look_seq, h]
  rfl

theorem sysFork_slot {i : Nat} (h : allocTask s = some i) :
    sysFork L t s = forkChild L t (.slot i) (s.task t) s := by
  rw [sysFork, look_seq, look_seq, h]

/-- With a slot, a descriptor and the frames the child is complete. -/
theorem fork_complete (hm : PhysOk s.phys) (hs : UvmOk s.phys (s.task t).tss.cr3)
    (hother : child ≠ t) (hdesc : ¬gdtAllocDesc s.gdt < 0)
    (hfree : (uvmAllocs s.phys.mem (s.task t).tss.cr3).length + 2 ≤ s.phys.freeCount) :
    ∃ s', forkChild L t child (s.task t) s = some (some child, s') ∧ ForkedChild s t s' child := by
  obtain ⟨s₁, htss, hready⟩ := @forkTss_ready φ s child (s.task t) hm hdesc (by omega)
  have hcr3 : (s₁.task t).tss.cr3 = (s.task t).tss.cr3 :=
    congrArg (fun p => p.tss.cr3) (hready.others t hother.symm)
  have hcount := hready.count
  have hallocs := congrArg List.length (hready.grown.uvmAllocs hs)
  rcases memoryCopyUvm_cases hready.grown.ok (hready.grown.uvmOk hs) with
    ⟨-, d, m, hcopy, hcopied⟩ | ⟨x, m, hx, -, -⟩
  · have hcopy' : memoryCopyUvm (s.task t).tss.cr3 (s₁.task t).tss.cr3 s₁.phys =
        some (frameAddr d, m) := by
      rw [hcr3]
      exact hcopy
    obtain ⟨s', hrun, hphys, hgdt, hstate, hcr3', hesp, hsel⟩ := @forkChild_some φ L _ _ _ _ _ _ _ _
      htss hcopy'
    have hcloned := hcopied.cloned (hready.grown.uvmOk hs)
    obtain ⟨use, hl, -, -⟩ := hcopied
    refine ⟨s', hrun, hother, hstate, ?_, ?_, ?_⟩
    · rw [hcr3', hphys]
      exact hcloned.before hready.grown hm hs
    · obtain ⟨j, hpos, hlt, hsel₁, hj, hattr⟩ := hready.tss
      exact ⟨j, hpos, hlt, hsel.trans hsel₁, hj, by rw [hgdt, hattr]⟩
    · obtain ⟨k, hk, hesp₁, hkfree, hused⟩ := hready.stack
      rw [hcr3', hphys]
      refine ⟨k, hk, hesp.trans hesp₁, hkfree, hl.grown.used k hused, fun hin => ?_⟩
      obtain ⟨k', -, he, hfree'⟩ := hcloned.fresh _ hin
      rw [← frameAddr_inj he, hused] at hfree'
      cases hfree'
  · rw [List.getElem?_eq_none (by omega)] at hx
    cases hx

/-- A complete child needs the descriptor and the frames. -/
theorem fork_complete_needs (hm : PhysOk s.phys) (hs : UvmOk s.phys (s.task t).tss.cr3)
    {r : Option TaskId} {s' : OsState φ} (h : forkChild L t child (s.task t) s = some (r, s'))
    (hall : AllOrNothing s t r s') : child ≠ t ∧ ¬gdtAllocDesc s.gdt < 0 ∧
      (uvmAllocs s.phys.mem (s.task t).tss.cr3).length + 2 ≤ s.phys.freeCount := by
  obtain ⟨e, s₁, d, m, htss, hcopy⟩ := forkChild_parts h
  obtain ⟨s'', hrun, hphys, hgdt, -, hcr3', -, -⟩ := @forkChild_some φ L _ _ _ _ _ _ _ _ htss hcopy
  rw [h] at hrun
  cases hrun
  obtain ⟨hother, -, huvm, ⟨j, -, -, -, hj, hattr⟩, -⟩ : ForkedChild s t s' child := hall
  have hboth : ¬(gdtAllocDesc s.gdt < 0 ∨ s.phys.freeCount < 2) := by
    intro hnot
    rw [hgdt, forkTss_failed hm hnot htss, hj] at hattr
    exact absurd hattr (by decide)
  obtain ⟨hdesc, htwo⟩ := not_or.mp hboth
  refine ⟨hother, hdesc, ?_⟩
  obtain ⟨s₂, htss₂, hready⟩ := @forkTss_ready φ s child (s.task t) hm hdesc (by omega)
  rw [htss] at htss₂
  cases htss₂
  have hcr3 : (s₁.task t).tss.cr3 = (s.task t).tss.cr3 :=
    congrArg (fun p => p.tss.cr3) (hready.others t hother.symm)
  rw [hcr3] at hcopy
  have hcount := hready.count
  have hallocs := congrArg List.length (hready.grown.uvmAllocs hs)
  rcases memoryCopyUvm_cases hready.grown.ok (hready.grown.uvmOk hs) with
    ⟨hlen, -⟩ | ⟨x, m', -, hzero, -⟩
  · omega
  · -- the copy has failed, and `cr3` is 0
    rw [hcopy] at hzero
    cases hzero
    rw [hcr3'] at huvm
    obtain ⟨k, -, hk, -⟩ := huvm.fresh 0 (mem_uvmFrames.mpr (.inl rfl))
    exact absurd hk.symm (frameAddr_pos k)

/-- `sys_fork` is all or nothing exactly where it finds no slot, or the slot of
another task, a descriptor, and two frames more than the copy takes. -/
theorem fork_all_or_nothing_iff (hm : PhysOk s.phys) (hs : UvmOk s.phys (s.task t).tss.cr3) :
    (∃ r s', sysFork L t s = some (r, s') ∧ AllOrNothing s t r s') ↔
      ∀ i, allocTask s = some i → .slot i ≠ t ∧ (∃ j, 0 < j ∧ j < gdtTableSize ∧ s.gdt j = 0) ∧
        (uvmAllocs s.phys.mem (s.task t).tss.cr3).length + 2 ≤ s.phys.freeCount := by
  constructor
  · rintro ⟨r, s', hrun, hall⟩ i hi
    rw [sysFork_slot hi] at hrun
    obtain ⟨hother, hdesc, hfree⟩ := fork_complete_needs hm hs hrun hall
    exact ⟨hother, not_not.mp (mt gdtAllocDesc_neg.mpr hdesc), hfree⟩
  · intro hcond
    cases hi : allocTask s with
    | none => exact ⟨none, s, sysFork_none hi, fun _ => rfl, fun _ => rfl, rfl, rfl, rfl⟩
    | some i =>
      obtain ⟨hother, hdesc, hfree⟩ := hcond i hi
      obtain ⟨s', hrun, hchild⟩ := @fork_complete φ L s t (.slot i) hm hs hother
        (fun hneg => gdtAllocDesc_neg.mp hneg hdesc) hfree
      exact ⟨some (.slot i), s', (sysFork_slot hi).trans hrun, hchild⟩

theorem oneTask_phys : oneTask.phys = smallMem 16 := by
  show PhysMem.mk _ _ _ = PhysMem.mk _ _ _
  congr 2

theorem fork_all_or_nothing_iff_first :
    (∃ r s', sysFork noFiles .first oneTask = some (r, s') ∧ AllOrNothing oneTask .first r s') ↔
      ∀ i, allocTask oneTask = some i → TaskId.slot i ≠ .first ∧
        (∃ j, 0 < j ∧ j < gdtTableSize ∧ oneTask.gdt j = 0) ∧
        (uvmAllocs oneTask.phys.mem (oneTask.task .first).tss.cr3).length + 2 ≤
          oneTask.phys.freeCount :=
  fork_all_or_nothing_iff (by rw [oneTask_phys]; exact smallMem_ok (by decide))
    (by rw [oneTask_phys]; exact smallMem_uvmOk (by decide))

/-- No frame is left, and the fork returns the tid of a child without a directory. -/
theorem fork_without_frames : PhysOk (smallMem 4) ∧ UvmOk (smallMem 4) 0x100000 ∧
    ∃ s', sysFork noFiles .first { oneTask with phys := smallMem 4 } = some (some (.slot 0), s') ∧
      (s'.task (.slot 0)).tss.cr3 = 0 ∧
      ¬AllOrNothing { oneTask with phys := smallMem 4 } .first (some (.slot 0)) s' := by
  have hm : PhysOk (smallMem 4) := smallMem_ok (by decide)
  have hs : UvmOk (smallMem 4) 0x100000 := smallMem_uvmOk (by decide)
  have hmap : (sysFork noFiles .first { oneTask with phys := smallMem 4 }).map
      (fun r => (r.1, (r.2.task (.slot 0)).tss.cr3)) = some (some (.slot 0), 0) := by
    decide +kernel
  obtain ⟨⟨r, s'⟩, hrun, hr⟩ := Option.map_eq_some_iff.mp hmap
  obtain ⟨rfl, hcr3⟩ := Prod.mk.inj hr
  refine ⟨hm, hs, s', hrun, hcr3, fun hall => ?_⟩
  have hslot : allocTask { oneTask with phys := smallMem 4 } = some 0 := by decide
  rw [sysFork_slot hslot] at hrun
  have hneed := (fork_complete_needs hm hs hrun hall).2.2
  have hfull : (smallMem 4).freeCount = 0 := by decide
  rw [hfull] at hneed
  omega

end Fork

end Wjos.Os
