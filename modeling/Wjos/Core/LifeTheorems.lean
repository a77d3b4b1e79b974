/-
Wjos.Core.LifeTheorems — a process that has come and gone leaves something
behind.

`Conserved s s'` says that frames, descriptors and `task_list` are in `s'`
what they were in `s`. It is false after every run that starts with a fork
whose child got a TSS selector: nothing but `task_uninit` and the failure path of
`tss_init` clears a descriptor, the first is reached from `sys_fork` under
two tests that never hold, and the second clears what it has just found free.
So no call clears a descriptor in use (`gdt_lifeStep`), and the one the fork
took was free before it (`grown_sysFork`).
-/
import Wjos.Core.Life
import Wjos.Lib.Run

namespace Wjos.Os

open Lib

variable {φ α : Type} {L : FileLayer φ}

/-- The `n`-th task on `task_list`. -/
def OsState.nthTask (s : OsState φ) : Nat → Option TaskId
  | 0 => s.taskList.first
  | n + 1 => (s.nthTask n).bind fun t => (s.allNode t).next

/-- The allocated frames, the descriptors in use and the members of
`task_list` are the same. -/
structure Conserved (s s' : OsState φ) : Prop where
  frames : ∀ k < s.phys.paddrAlloc.bitmap.bitCount,
    PageFree s'.phys.paddrAlloc k ↔ PageFree s.phys.paddrAlloc k
  descs : ∀ i < gdtTableSize, s'.gdt i ≠ 0 ↔ s.gdt i ≠ 0
  tasks : ∀ t, (∃ n, s'.nthTask n = some t) ↔ ∃ n, s.nthTask n = some t

/-! ## Programs on a part of the state -/

section Parts

variable {β γ : Type} {s : OsState φ}

theorem onPhys_some {x : Prog PhysMem α} {a : α} {m : PhysMem} (h : x s.phys = some (a, m)) :
    onPhys x s = some (a, { s with phys := m }) := by
  rw [onPhys, zoom, h]
  rfl

theorem onPhys_none {x : Prog PhysMem α} (h : x s.phys = none) : onPhys x s = none := by
  rw [onPhys, zoom, h]
  rfl

/-- A program on physical memory before the rest of a call. -/
theorem onPhys_seq {x : Prog PhysMem β} {f : β → Prog (OsState φ) γ} {b : β}
    {m m' : PhysMem} (h : x m = some (b, m')) (hs : s.phys = m) :
    (onPhys x >>= f) s = f b { s with phys := m' } :=
  seq_some (onPhys_some (hs ▸ h))

theorem onPhys_bind (x : Prog PhysMem β) (f : β → Prog (OsState φ) γ) :
    (onPhys x >>= f) s = (x s.phys).bind fun r => f r.1 { s with phys := r.2 } := by
  cases h : x s.phys with
  | none => exact seq_none (onPhys_none h)
  | some r => exact onPhys_seq h rfl

/-- A call of the file layer before the rest of a call. -/
theorem onFiles_seq {x : φ → Option (β × φ)} {f : β → Prog (OsState φ) γ} {b : β} {fs : φ}
    (h : x s.files = some (b, fs)) : (onFiles x >>= f) s = f b { s with files := fs } := by
  refine seq_some ?_
  rw [onFiles, zoom, h]
  rfl

theorem onlyIf_pos {σ : Type} {c : Prop} [Decidable c] (hc : c) (x : Prog σ Unit) :
    onlyIf c x = x := if_pos hc

end Parts

/-! ## Calls that leave the descriptors alone -/

/-- What decides which descriptors are in use and by whom. -/
def OsState.sels (s : OsState φ) : Gdt × (TaskId → Nat) := (s.gdt, fun t => (s.task t).tssSel)

theorem sels_onPhys {x : Prog PhysMem α} : Leaves (fun s : OsState φ => s.sels) (onPhys x) :=
  .part fun _ _ => rfl

theorem sels_onFiles {x : φ → Option (α × φ)} : Leaves OsState.sels (onFiles x) :=
  .part fun _ _ => rfl

theorem sels_editTask {t : TaskId} {f : TaskT → TaskT} (h : ∀ p, (f p).tssSel = p.tssSel) :
    Leaves (fun s : OsState φ => s.sels) (editTask t f) := by
  refine .store fun s => congrArg (Prod.mk s.gdt) (funext fun u => ?_)
  by_cases hu : u = t
  · simp [OsState.setTask, hu, h]
  · simp [OsState.setTask, hu]

theorem sels_sysSbrk {t : TaskId} {incr : Int} :
    Leaves (fun s : OsState φ => s.sels) (sysSbrk t incr) := by
  have hdone : ∀ a b : Nat, Leaves (fun s : OsState φ => s.sels) (heapGrown t a b) :=
    fun _ _ => .seq (sels_editTask fun _ => rfl) fun _ => .ret
  refine .seq .look fun p => .seq .check fun _ => .branch .ret (.branch (hdone _ _) ?_)
  exact .branch (.seq sels_onPhys fun err => .branch .ret (hdone _ _)) (hdone _ _)

theorem sels_readTo {t : TaskId} {file : Int} {ptr len : Nat} :
    Leaves OsState.sels (readTo L t file ptr len) :=
  .branch .ret (.seq sels_onFiles fun _ => .seq sels_onPhys fun _ => .ret)

theorem sels_readHeader {t : TaskId} {file : Int} {buf : Nat → UInt8} {len : Nat} :
    Leaves OsState.sels (readHeader L t file buf len) :=
  .seq sels_onFiles fun _ => .ret

theorem sels_loadPhdrLoop {t : TaskId} {file : Int} {pageDir : Nat} :
    ∀ {fuel vaddr size : Nat}, Leaves OsState.sels (loadPhdrLoop L t file pageDir fuel vaddr size)
  | 0, _, _ => .ret
  | _ + 1, _, _ =>
    .branch .ret (.seq sels_onPhys fun _ => .seq sels_readTo fun _ =>
      .branch .ret sels_loadPhdrLoop)

theorem sels_loadPhdr {t : TaskId} {file : Int} {phdr : Phdr} {pageDir : Nat} :
    Leaves OsState.sels (loadPhdr L t file phdr pageDir) :=
  .seq sels_onPhys fun _ => .branch .ret (.seq sels_onFiles fun _ => .branch .ret sels_loadPhdrLoop)

theorem sels_loadPhdrs {t : TaskId} {file : Int} {pageDir phentsize : Nat} :
    ∀ {n phoff : Nat} {buf : Nat → UInt8},
      Leaves OsState.sels (loadPhdrs L t file pageDir phentsize n phoff buf)
  | 0, _, _ => .ret
  | n + 1, _, _ => by
    refine .seq sels_onFiles fun pos => .branch .ret (.seq sels_readHeader fun r => ?_)
    refine .branch .ret (.branch sels_loadPhdrs (.seq sels_loadPhdr fun err => .branch .ret ?_))
    exact .seq (sels_editTask fun _ => rfl) fun _ => sels_loadPhdrs

theorem sels_loadFailed {t : TaskId} {file : Int} : Leaves OsState.sels (loadFailed L t file) :=
  .seq (.onlyIf (.seq sels_onFiles fun _ => .ret)) fun _ => .ret

theorem sels_loadElfFile {t : TaskId} {name : List UInt8} {pageDir : Nat} {junk : Nat → UInt8} :
    Leaves OsState.sels (loadElfFile L t name pageDir junk) := by
  refine .seq sels_onFiles fun file => .branch sels_loadFailed (.seq sels_readHeader fun r => ?_)
  refine .branch sels_loadFailed (.branch sels_loadFailed (.seq sels_loadPhdrs fun go => ?_))
  exact .branch (.seq sels_onFiles fun _ => .ret) sels_loadFailed

theorem sels_execFailed {t : TaskId} {oldPageDir newPageDir : Nat} :
    Leaves (fun s : OsState φ => s.sels) (execFailed t oldPageDir newPageDir) :=
  .seq (sels_editTask fun _ => rfl) fun _ => .seq sels_onPhys fun _ => .ret

theorem sels_sysExecve {t : TaskId} {name : List UInt8} {argv : List (List UInt8)}
    {junk : Nat → UInt8} : Leaves OsState.sels (sysExecve L t name argv junk) := by
  refine .seq (sels_editTask fun _ => rfl) fun _ => .seq .look fun tss => ?_
  refine .seq sels_onPhys fun newPageDir => .branch .ret (.seq sels_loadElfFile fun entry => ?_)
  refine .branch sels_execFailed (.seq sels_onPhys fun err => .branch sels_execFailed ?_)
  refine .seq sels_onPhys fun err => .branch sels_execFailed (.seq sels_onPhys fun _ => ?_)
  exact .seq (sels_editTask fun _ => rfl) fun _ => .seq sels_onPhys fun _ => .ret

theorem sels_wakeWaitting {t : TaskId} : Leaves (fun s : OsState φ => s.sels) (wakeWaitting t) :=
  sels_editTask fun p => by split <;> rfl

theorem sels_reparent {s : OsState φ} {t : TaskId} :
    ({ s with task := reparent s t } : OsState φ).sels = s.sels := by
  refine congrArg (Prod.mk s.gdt) (funext fun u => ?_)
  cases u with
  | slot i =>
    simp only [reparent]
    split <;> rfl
  | idle => rfl
  | first => rfl

theorem sels_sysExit {t : TaskId} {status : Int} : Leaves OsState.sels (sysExit L t status) := by
  refine .seq sels_onFiles fun _ => .seq .look fun moveChild => ?_
  refine .seq (.store fun s => sels_reparent) fun _ => .seq .look fun parent => ?_
  cases parent with
  | none => exact .check
  | some parent =>
    refine .seq (.onlyIf sels_wakeWaitting) fun _ => .seq sels_wakeWaitting fun _ => ?_
    exact sels_editTask fun _ => rfl

/-- `sys_wait` zeroes the selector of the child and leaves its descriptor. -/
theorem gdt_sysWait {t : TaskId} : Leaves OsState.gdt (sysWait L t) := by
  refine .seq .look fun r => ?_
  cases r with
  | none => exact .seq (.store fun _ => rfl) fun _ => .ret
  | some i =>
    refine .seq .look fun p => .seq .look fun cr3 => .seq (.part fun _ _ => rfl) fun _ => ?_
    exact .seq (.part fun _ _ => rfl) fun _ => .seq (.store fun _ => rfl) fun _ => .ret

theorem sels_storeUser {t : TaskId} {vaddr : Nat} {b : UInt8} :
    Leaves (fun s : OsState φ => s.sels) (storeUser t vaddr b) :=
  .seq .look fun _ => sels_onPhys

/-! ## A fork -/

section Fork

variable (s₀ : OsState φ) (j : Nat) (task : TaskId)

/-- Every descriptor in use in `s₀` still is, and a free one was taken or
`task` has the selector that it had. -/
structure Grown (g : Gdt × (TaskId → Nat)) : Prop where
  kept : ∀ i, s₀.gdt i ≠ 0 → g.1 i ≠ 0
  taken : (∃ i < gdtTableSize, s₀.gdt i = 0 ∧ g.1 i ≠ 0) ∨ g.2 task = (s₀.task task).tssSel

/-- The same inside `tss_init`, whose descriptor `j` was free and has not
been entered in the task. -/
structure Trying (g : Gdt × (TaskId → Nat)) : Prop where
  kept : ∀ i, s₀.gdt i ≠ 0 → g.1 i ≠ 0
  free : s₀.gdt j = 0
  lt : j < gdtTableSize
  sel : g.2 task = (s₀.task task).tssSel

/-- `tss_init` holds its descriptor. -/
structure Holding (g : Gdt × (TaskId → Nat)) : Prop extends Trying s₀ j task g where
  used : g.1 j ≠ 0

end Fork

section Fork

variable {s₀ : OsState φ} {j : Nat} {task : TaskId}

theorem Trying.grown {g : Gdt × (TaskId → Nat)} (h : Trying s₀ j task g) : Grown s₀ task g :=
  ⟨h.kept, .inr h.sel⟩

theorem selIndex (j : Nat) : j * segmentDescSize / segmentDescSize = j :=
  Nat.mul_div_cancel j (by decide)

/-- Freeing the descriptor that was found free loses none in use. -/
theorem free_sel : Triple (fun s : OsState φ => Trying s₀ j task s.sels)
    (store fun s => { s with gdt := gdtFreeSel s.gdt (j * segmentDescSize) })
    (fun _ s => Trying s₀ j task s.sels) := by
  refine .store fun s h => ⟨fun i hi => ?_, h.free, h.lt, h.sel⟩
  have hne : i ≠ j := fun hij => hi (hij ▸ h.free)
  change Function.update s.gdt (j * segmentDescSize / segmentDescSize) 0 i ≠ 0
  rw [selIndex, Function.update_of_ne hne]
  exact h.kept i hi

/-- A descriptor that was set is in use. -/
theorem set_sel : Triple (fun s : OsState φ => Trying s₀ j task s.sels)
    (store fun s => { s with gdt := segmentDescSet s.gdt (j * segmentDescSize) tssSize segTss })
    (fun _ s => Holding s₀ j task s.sels) := by
  refine .store fun s h => ?_
  have hattr : segmentAttr tssSize segTss ≠ 0 := by decide
  have hgdt : segmentDescSet s.gdt (j * segmentDescSize) tssSize segTss =
      Function.update s.gdt j (segmentAttr tssSize segTss) := by
    rw [segmentDescSet, selIndex]
  refine ⟨⟨fun i hi => ?_, h.free, h.lt, h.sel⟩, ?_⟩
  · have hne : i ≠ j := fun hij => hi (hij ▸ h.free)
    change segmentDescSet s.gdt (j * segmentDescSize) tssSize segTss i ≠ 0
    rw [hgdt, Function.update_of_ne hne]
    exact h.kept i hi
  · change segmentDescSet s.gdt (j * segmentDescSize) tssSize segTss j ≠ 0
    rw [hgdt, Function.update_self]
    exact hattr

theorem grown_tssInitFailed {cr3 kernelStack : Nat} :
    Triple (fun s : OsState φ => Trying s₀ j task s.sels)
      (tssInitFailed cr3 (j * segmentDescSize) kernelStack)
      (fun _ s => Grown s₀ task s.sels) := by
  refine .seq free_sel fun _ => ?_
  refine .seq ((Leaves.onlyIf sels_onPhys).keeps (Trying s₀ j task)) fun _ => ?_
  exact .ret fun s h => h.grown

theorem grown_tssInitSel {cr3 flag entry esp : Nat} :
    Triple (fun s : OsState φ => Trying s₀ j task s.sels)
      (tssInitSel cr3 task flag entry esp (j * segmentDescSize))
      (fun _ s => Grown s₀ task s.sels) := by
  have hedit : ∀ f : TaskT → TaskT, (∀ p, (f p).tssSel = p.tssSel) →
      Triple (fun s : OsState φ => Holding s₀ j task s.sels) (editTask task f)
        (fun _ s => Holding s₀ j task s.sels) := fun f hf => (sels_editTask hf).keeps _
  have hphys : ∀ x : Prog PhysMem Nat,
      Triple (fun s : OsState φ => Holding s₀ j task s.sels) (onPhys x)
        (fun _ s => Holding s₀ j task s.sels) := fun x => sels_onPhys.keeps _
  refine .seq set_sel fun _ => .seq (hedit _ fun _ => rfl) fun _ => ?_
  refine .seq (Leaves.look.keeps (Holding s₀ j task)) fun codeSel => ?_
  refine .seq (Leaves.look.keeps (Holding s₀ j task)) fun dataSel => ?_
  refine .seq (hphys _) fun kernelStack => .branch (fun _ => ?_) fun _ => ?_
  · exact grown_tssInitFailed.imp (fun _ h => h.toTrying) fun _ _ h => h
  · refine .seq (hedit _ fun _ => rfl) fun _ => .seq (hphys _) fun pageDir => ?_
    refine .branch (fun _ => ?_) fun _ => .seq (.store fun s h => ?_) fun _ => .ret fun _ h => h
    · exact .seq (free_sel.imp (fun _ h => h.toTrying) fun _ _ h => h) fun _ => grown_tssInitFailed
    · exact ⟨h.kept, .inl ⟨j, h.lt, h.free, h.used⟩⟩

/-- What `tss_init` does to the descriptors. -/
theorem grown_tssInit {cr3 flag entry esp : Nat} :
    Triple (· = s₀) (tssInit cr3 task flag entry esp) (fun _ s => Grown s₀ task s.sels) := by
  have hlook : Triple (· = s₀) (look fun s => gdtAllocDesc s.gdt)
      (fun sel s => sel = gdtAllocDesc s₀.gdt ∧ s = s₀) := .look fun s h => ⟨by rw [h], h⟩
  refine .seq hlook fun sel => .branch (fun _ => .ret ?_) fun hsel => ?_
  · rintro s ⟨-, rfl⟩
    exact ⟨fun _ h => h, .inr rfl⟩
  · rintro s ⟨rfl, rfl⟩
    obtain ⟨j, -, hj, hsel, hfree⟩ := gdtAllocDesc_free hsel
    rw [hsel, Int.toNat_natCast]
    exact grown_tssInitSel s ⟨fun _ h => h, hfree, hj, rfl⟩

theorem Grown.edit {t : TaskId} {f : TaskT → TaskT} (hf : ∀ p, (f p).tssSel = p.tssSel) :
    Triple (fun s : OsState φ => Grown s₀ task s.sels) (editTask t f)
      (fun _ s => Grown s₀ task s.sels) :=
  (sels_editTask hf).keeps _

theorem Grown.store {f : OsState φ → OsState φ} (hf : ∀ s, (f s).sels = s.sels) :
    Triple (fun s => Grown s₀ task s.sels) (store f) (fun _ s => Grown s₀ task s.sels) :=
  (Leaves.store hf).keeps _

/-- What `task_init` does to the descriptors; it returns 0. -/
theorem grown_taskInit {cr3 flag entry esp : Nat} {name : Nat → UInt8} :
    Triple (· = s₀) (taskInit L cr3 task name flag entry esp)
      (fun err s => err = 0 ∧ Grown s₀ task s.sels) := by
  refine .seq grown_tssInit fun _ => .seq (Grown.edit fun _ => rfl) fun _ => ?_
  exact .seq (Grown.store fun _ => rfl) fun _ => .ret fun s h => ⟨rfl, h⟩

theorem sels_copyFrame {esp0 : Nat} {t child : TaskId} :
    Leaves (fun s : OsState φ => s.sels) (copyFrame esp0 t child) := by
  refine .seq sels_onPhys fun _ => .seq sels_onPhys fun _ => .seq sels_onPhys fun _ => ?_
  refine .seq sels_onPhys fun _ => .seq sels_onPhys fun _ => .seq sels_onPhys fun _ => ?_
  refine .seq sels_onPhys fun _ => .seq sels_onPhys fun _ => .seq sels_onPhys fun _ => ?_
  refine .seq sels_onPhys fun _ => .seq sels_onPhys fun _ => .seq sels_onPhys fun _ => ?_
  exact sels_editTask fun _ => rfl

/-- What `sys_fork` does to the descriptors: `fork_failed` is never reached. -/
theorem grown_forkChild {t : TaskId} {p : TaskT} :
    Triple (· = s₀) (forkChild L t task p) (fun _ s => Grown s₀ task s.sels) := by
  have hframe : ∀ off, Triple (· = s₀) (frameWord p.tss.esp0 off) (fun _ s => s = s₀) := by
    rintro off s rfl r hr
    cases hr
    rfl
  refine .seq (hframe 52) fun eip => .seq (hframe 80) fun esp => .seq grown_taskInit fun err => ?_
  refine .branch (fun herr => ?_) fun _ => ?_
  · rintro s ⟨rfl, -⟩
    exact absurd herr (by decide)
  · refine .seq (.store fun s h => h.2) fun _ =>
      .seq (sels_copyFrame.keeps (Grown s₀ task)) fun _ => ?_
    refine .seq (Leaves.look.keeps (Grown s₀ task)) fun pageDir => ?_
    refine .seq (sels_onPhys.keeps (Grown s₀ task)) fun cr3 => ?_
    refine .seq (Grown.edit fun _ => rfl) fun _ =>
      .branch (fun h => absurd h (Nat.not_lt_zero _)) ?_
    exact fun _ => .seq (Grown.edit fun _ => rfl) fun _ => .look fun s h => h

theorem grown_sysFork {t : TaskId} {i : Nat} (hi : allocTask s₀ = some i) :
    Triple (· = s₀) (sysFork L t) (fun _ s => Grown s₀ (.slot i) s.sels) := by
  have hlook : Triple (· = s₀) (look allocTask) (fun r s => r = some i ∧ s = s₀) :=
    .look fun s h => ⟨h ▸ hi, h⟩
  have hp : Triple (· = s₀) (look fun s => s.task t) (fun _ s => s = s₀) := .look fun _ h => h
  refine .seq hp fun p => .seq hlook fun r => ?_
  rintro s ⟨rfl, h⟩
  exact grown_forkChild s h

/-- A fork loses no descriptor in use, with or without a child. -/
theorem kept_sysFork {t : TaskId} {i : Nat} :
    Triple (fun s : OsState φ => s.gdt i ≠ 0) (sysFork L t) (fun _ s => s.gdt i ≠ 0) := by
  intro s hs r hr
  cases hc : allocTask s with
  | some c => exact (grown_sysFork hc s rfl r hr).kept i hs
  | none =>
    have hp : Triple (· = s) (look fun u => u.task t) (fun _ u => u = s) := .look fun _ h => h
    have hlook : Triple (· = s) (look allocTask) (fun r u => r = none ∧ u = s) :=
      .look fun u h => ⟨h ▸ hc, h⟩
    have hsame : Triple (· = s) (sysFork L t) (fun _ u => u = s) := by
      refine .seq hp fun p => .seq hlook fun r => ?_
      rintro u ⟨rfl, h⟩ r hr
      cases hr
      exact h
    rw [hsame s rfl r hr]
    exact hs

end Fork

/-! ## A small kernel -/

/-- A file layer without files. -/
def noFiles : FileLayer Unit where
  sysOpen := fun s _ _ => some (-1, s)
  sysRead := fun s _ _ _ => some ((0, []), s)
  sysLseek := fun s _ _ _ => some (-1, s)
  sysClose := fun s _ _ => some (0, s)
  clearFileTable := fun s _ => s
  copyOpenedFiles := fun s _ _ => s
  closeFiles := fun s _ => some s
  length_le := by
    intro s t fd len r h
    cases h
    exact Nat.zero_le len

/-- Sixteen frames. The first four hold the directory, a table, a page and the
kernel stack of `first_task`, the only task there is. -/
def oneTask : OsState Unit where
  phys :=
    { paddrAlloc :=
        { bitmap := { bitCount := 16, bits := fun i => if i = 0 then 0x0F else 0 }
          start := memExtStart
          size := 65536
          pageSize := memPageSize }
      kernelPageDir := 0x50000
      mem := put32 (put32 (fun _ => 0) (0x100000 + 4 * 512) 0x101007) 0x101000 0x102007 }
  gdt := fun i => if i < 6 then 0x89 else 0
  appCodeSel := 32
  appDataSel := 24
  task
    | .first =>
      { TaskT.zero with
        state := .running
        tid := some .first
        name := cString [102, 105, 114, 115, 116, 95, 116, 97, 115, 107]
        tss := { Tss.zero with esp0 := 0x104000, cr3 := 0x100000 }
        tssSel := 40 }
    | _ => TaskT.zero
  allNode := fun _ => nodeInit
  taskList := ⟨some .first, some .first, 1⟩
  files := ()

/-- A child of `first_task` that exits and is reaped. -/
theorem oneTask_life : ∃ s₁ s₂, lifeStep noFiles oneTask (.fork .first) = some s₁ ∧
    run (lifeStep noFiles) s₁ [.exit (.slot 0) 7, .wait .first] = some s₂ ∧
    (s₁.task (.slot 0)).tssSel = 48 ∧ (s₂.task (.slot 0)).tid = none ∧ s₂.gdt 6 = 137 ∧
    bitmapIsSet s₂.phys.paddrAlloc.bitmap 5 = 1 ∧ s₂.taskList.count = 2 := by
  have hrun : ((lifeStep noFiles oneTask (.fork .first)).bind fun s₁ =>
      (run (lifeStep noFiles) s₁ [.exit (.slot 0) 7, .wait .first]).map fun s₂ =>
        ((s₁.task (.slot 0)).tssSel, (s₂.task (.slot 0)).tid, s₂.gdt 6,
          bitmapIsSet s₂.phys.paddrAlloc.bitmap 5, s₂.taskList.count)) =
      some (48, none, 137, 1, 2) := by decide +kernel
  obtain ⟨s₁, hs₁, hmap⟩ := Option.bind_eq_some_iff.mp hrun
  obtain ⟨s₂, hs₂, hval⟩ := Option.map_eq_some_iff.mp hmap
  simp only [Prod.mk.injEq] at hval
  exact ⟨s₁, s₂, hs₁, hs₂, hval⟩

/-! ## Runs -/

/-- No step frees a descriptor. -/
theorem gdt_lifeStep {i : Nat} (s : OsState φ) (e : LifeEvent) (s' : OsState φ)
    (hs : s.gdt i ≠ 0) (he : lifeStep L s e = some s') : s'.gdt i ≠ 0 := by
  have hkeep : ∀ {x : Prog (OsState φ) Unit}, Leaves OsState.sels x →
      Triple (fun s => s.gdt i ≠ 0) x (fun _ s => s.gdt i ≠ 0) :=
    fun hx => hx.keeps fun g => g.1 i ≠ 0
  have hrun : Triple (fun s : OsState φ => s.gdt i ≠ 0) (e.run L) (fun _ s => s.gdt i ≠ 0) := by
    cases e with
    | fork t => exact .seq kept_sysFork fun _ => .ret fun _ h => h
    | sbrk t incr => exact hkeep (.seq sels_sysSbrk fun _ => .ret)
    | execve t name argv junk => exact hkeep (.seq sels_sysExecve fun _ => .ret)
    | exit t status => exact hkeep sels_sysExit
    | wait t => exact .seq (gdt_sysWait.keeps fun g => g i ≠ 0) fun _ => .ret fun _ h => h
    | userStore t vaddr b => exact hkeep sels_storeUser
  unfold lifeStep at he
  split at he
  · obtain ⟨r, hr, rfl⟩ := Option.map_eq_some_iff.mp he
    exact hrun s hs r hr
  · cases he

/-- A process whose fork gave it a TSS selector is not reaped without a
trace: whatever it and the other tasks did in between, a descriptor that was
free before the fork is in use after it for good. -/
theorem life_cycle_leaks {s s₁ s₂ : OsState φ} {t : TaskId} {i : Nat} {es : List LifeEvent}
    (hi : allocTask s = some i) (hfork : lifeStep L s (.fork t) = some s₁)
    (hsel : (s₁.task (.slot i)).tssSel ≠ (s.task (.slot i)).tssSel)
    (hrun : run (lifeStep L) s₁ es = some s₂) : ¬ Conserved s s₂ := by
  intro hcons
  unfold lifeStep at hfork
  split at hfork
  · obtain ⟨r, hr, rfl⟩ := Option.map_eq_some_iff.mp hfork
    have hgrown : Triple (· = s) ((LifeEvent.fork t).run L)
        (fun _ u => Grown s (.slot i) u.sels) :=
      .seq (grown_sysFork hi) fun _ => .ret fun _ h => h
    rcases (hgrown s rfl r hr).taken with ⟨j, hj, hfree, hused⟩ | hsame
    · have hleft : s₂.gdt j ≠ 0 := run_invariant gdt_lifeStep hused hrun
      exact (hcons.descs j hj).mp hleft hfree
    · exact hsel hsame
  · cases hfork

/-- The rule at a child that is forked, exits and is reaped. -/
theorem life_cycle_leaks_reaped : ∃ s₁ s₂, lifeStep noFiles oneTask (.fork .first) = some s₁ ∧
    run (lifeStep noFiles) s₁ [.exit (.slot 0) 7, .wait .first] = some s₂ ∧
    ¬ Conserved oneTask s₂ := by
  obtain ⟨s₁, s₂, hs₁, hs₂, hsel, -⟩ := oneTask_life
  have hold : (oneTask.task (.slot 0)).tssSel = 0 := rfl
  have hne : (s₁.task (.slot 0)).tssSel ≠ (oneTask.task (.slot 0)).tssSel := by
    rw [hsel, hold]
    decide
  exact ⟨s₁, s₂, hs₁, hs₂, life_cycle_leaks (by decide) hs₁ hne hs₂⟩

/-- After that life descriptor 6, frame 5 and an entry of `task_list` are in
use for good. -/
theorem fork_exit_wait_leaks : ∃ s, run (lifeStep noFiles) oneTask
      [.fork .first, .exit (.slot 0) 7, .wait .first] = some s ∧
    (s.task (.slot 0)).tid = none ∧ (oneTask.gdt 6 = 0 ∧ s.gdt 6 ≠ 0) ∧
    (PageFree oneTask.phys.paddrAlloc 5 ∧ ¬ PageFree s.phys.paddrAlloc 5) ∧
    s.taskList.count = oneTask.taskList.count + 1 ∧ ¬ Conserved oneTask s := by
  obtain ⟨s₁, s, hs₁, hs, -, htid, hgdt, hbit, hcount⟩ := oneTask_life
  have hused : s.gdt 6 ≠ 0 := by
    rw [hgdt]
    decide
  have hfree : bitmapIsSet oneTask.phys.paddrAlloc.bitmap 5 = 0 := by decide
  refine ⟨s, run_cons_eq_some.mpr ⟨s₁, hs₁, hs⟩, htid, ⟨rfl, hused⟩, ⟨hfree, ?_⟩, hcount, ?_⟩
  · rw [PageFree, hbit]
    decide
  · exact fun h => (h.descs 6 (by decide)).mp hused rfl

end Wjos.Os
