/-
Wjos.Core.FreshMemory — what a program finds in the heap it has just got.

Two kernels that are equal but for what the free frames hold (`EqualButFree`)
run in step: a call of `sys_sbrk` stops both machines or neither, returns the
same in both, and maps the same pages to the same frames (`sysSbrk_pair`). Since
nobody clears a frame, the program finds in each kernel what the frame held
there before the first call (`sbrks_fresh`), so it may well find a difference.
-/
import Wjos.Core.SameMap
import Wjos.Core.LoadElf
import Wjos.Core.Sbrk

namespace Wjos.Os

open Lib

variable {φ : Type}

/-- Two states of the kernel that are equal but for the bytes of the frames
that are free. -/
structure EqualButFree (s₁ s₂ : OsState φ) : Prop where
  rest : { s₂ with phys := s₁.phys } = s₁
  paddrAlloc : s₂.phys.paddrAlloc = s₁.phys.paddrAlloc
  kernelPageDir : s₂.phys.kernelPageDir = s₁.phys.kernelPageDir
  mem : ∀ a, (∀ k < s₁.phys.frames, s₁.phys.used k = false → ¬InFrame k a) →
    s₂.phys.mem a = s₁.phys.mem a

/-- What a process has between its calls: a directory of its own in which the
kernel sees the frames, beside that of the kernel, and a frame for its kernel
stack that is no part of it. -/
structure CallerSpace (t : TaskId) (s : OsState φ) : Prop where
  space : SpaceOk s.phys (s.task t).tss.cr3
  frames : FramesMapped s.phys (s.task t).tss.cr3
  kernel : DirOk s.phys s.phys.kernelPageDir
  dir : ∃ c, (s.task t).tss.cr3 = frameAddr c
  stack : ∃ k, (s.task t).tss.esp0 = frameAddr k + 4096 ∧ s.phys.used k = true ∧
    (s.task t).tss.cr3 ≠ frameAddr k ∧ ¬TableFrame s.phys.mem (s.task t).tss.cr3 k

/-- At its address `v` the program is led to the same frame in both kernels, and
finds in each what the frame held before, in `m₁` and in `m₂`. -/
def HeldAt (m₁ m₂ : PhysMem) (dir : Nat) (m₁' m₂' : PhysMem) (v : Nat) : Prop :=
  translate m₁' dir v = translate m₂' dir v ∧
    ∀ a, translate m₁' dir v = some a → m₁'.mem a = m₁.mem a ∧ m₂'.mem a = m₂.mem a

/-! ## The heap -/

/-- Runs of `sys_sbrk` from `s₁` and from `s₂` have come to states that differ
in bytes of memory only, and in no page that the program has. -/
structure HeapAlike (t : TaskId) (s₁ s₂ u₁ u₂ : OsState φ) : Prop where
  rest : { u₂ with phys := u₁.phys } = u₁
  cr3 : (u₁.task t).tss.cr3 = (s₁.task t).tss.cr3
  grown : GrownAlike s₁.phys s₂.phys (s₁.task t).tss.cr3 u₁.phys u₂.phys

section Heap

variable {t : TaskId} {s₁ s₂ u₁ u₂ : OsState φ} {heapEnd n : Nat} {incr : Int}

theorem EqualButFree.grown (h : EqualButFree s₁ s₂) (hok : PhysOk s₁.phys) :
    PhysGrown s₁.phys s₂.phys := by
  have hframes : s₂.phys.frames = s₁.phys.frames := by
    rw [PhysMem.frames, h.paddrAlloc, PhysMem.frames]
  refine ⟨⟨?_, ?_, ?_, ?_⟩, hframes, h.kernelPageDir, fun k hk => ?_,
    fun a ha => h.mem a fun k _ hk => ha k hk⟩
  · rw [h.paddrAlloc]
    exact hok.start
  · rw [h.paddrAlloc]
    exact hok.pageSize
  · rw [hframes]
    exact hok.fits
  · rw [h.kernelPageDir]
    exact hok.kernelDir
  · rwa [PhysMem.used, h.paddrAlloc]

theorem EqualButFree.alike (h : EqualButFree s₁ s₂) (hs : CallerSpace t s₁) :
    HeapAlike t s₁ s₂ s₁ s₂ := by
  have hgrown := h.grown hs.space.phys
  exact ⟨h.rest, rfl, hgrown.sameMap hs.space.toDirOk h.paddrAlloc, .refl hs.space,
    .refl (hgrown.spaceOk hs.space)⟩

theorem HeapAlike.task (h : HeapAlike t s₁ s₂ u₁ u₂) : u₂.task = u₁.task :=
  (congrArg OsState.task h.rest :)

theorem HeapAlike.edit (h : HeapAlike t s₁ s₂ u₁ u₂) {f : TaskT → TaskT}
    (hf : ∀ p, (f p).tss = p.tss) :
    HeapAlike t s₁ s₂ (u₁.setTask t (f (u₁.task t))) (u₂.setTask t (f (u₂.task t))) := by
  refine ⟨?_, ?_, h.grown⟩
  · exact (congrArg (fun u : OsState φ => u.setTask t (f (u.task t))) h.rest :)
  · rw [setTask_task, hf]
    exact h.cr3

theorem heapGrown_pair (preHeapEnd finish : Nat) :
    Pair (HeapAlike t s₁ s₂) (heapGrown t preHeapEnd finish) fun _ => HeapAlike t s₁ s₂ :=
  .seq (Q := fun _ => HeapAlike t s₁ s₂)
    (.store fun _ _ h => h.edit (f := fun p => { p with heapEnd := finish }) fun _ => rfl)
    fun _ => .ret fun _ _ h => h

theorem sbrkGrow_pair (hs : CallerSpace t s₁) :
    Pair (HeapAlike t s₁ s₂) (sbrkGrow t (s₁.task t).tss.cr3 heapEnd incr)
      fun _ => HeapAlike t s₁ s₂ := by
  refine .branch (fun _ => heapGrown_pair _ _) fun _ => .branch (fun _ => ?_) fun _ =>
    heapGrown_pair _ _
  refine Pair.seq (Q := fun _ => HeapAlike t s₁ s₂) ?_ fun err =>
    .branch (fun _ => .ret fun _ _ h => h) fun _ => heapGrown_pair _ _
  refine (memoryAllocForPageDir_pair hs.frames (by decide) (Nat.mod_lt _ (by decide))).part
    (fun _ _ h => h.grown) fun _ m m' u u' h hm => ⟨?_, h.cr3, hm⟩
  exact (congrArg (fun v : OsState φ => { v with phys := m }) h.rest :)

/-- A call of `sys_sbrk` stops both machines or neither, and then it returns
the same in both. -/
theorem sysSbrk_pair (hs : CallerSpace t s₁) :
    Pair (HeapAlike t s₁ s₂) (sysSbrk t incr) fun _ => HeapAlike t s₁ s₂ := by
  refine Pair.seq (Q := fun p u u' => p = u.task t ∧ HeapAlike t s₁ s₂ u u')
    (.look (fun u u' h => ?_) fun u u' h => ⟨rfl, h⟩) fun p => ?_
  · rw [h.task]
  refine Pair.seq (Q := fun _ u u' => p = u.task t ∧ HeapAlike t s₁ s₂ u u')
    (.check fun _ _ _ h => h) fun _ => .branch (fun _ => .ret fun _ _ h => h.2) fun _ => ?_
  rintro u u' ⟨rfl, h⟩
  rw [h.cr3]
  exact sbrkGrow_pair hs u u' h

theorem sbrkStep_together (hs : CallerSpace t s₁) (incr : Int) (h : HeapAlike t s₁ s₂ u₁ u₂) :
    (sbrkStep t u₁ incr = none ∧ sbrkStep t u₂ incr = none) ∨
      ∃ v₁ v₂, sbrkStep t u₁ incr = some v₁ ∧ sbrkStep t u₂ incr = some v₂ ∧
        HeapAlike t s₁ s₂ v₁ v₂ := by
  unfold sbrkStep
  split
  · have hpair : Pair (HeapAlike t s₁ s₂) (sysSbrk t incr) fun _ => HeapAlike t s₁ s₂ :=
      sysSbrk_pair hs
    rcases hpair u₁ u₂ h with ⟨hn₁, hn₂⟩ | ⟨r, v₁, v₂, hr₁, hr₂, hv⟩
    · rw [hn₁, hn₂]
      exact .inl ⟨rfl, rfl⟩
    · rw [hr₁, hr₂]
      exact .inr ⟨v₁, v₂, rfl, rfl, hv⟩
  · exact .inl ⟨rfl, rfl⟩

/-- Any number of calls: where the program has a page, both kernels have mapped
the same frame, and its bytes are those that the kernel started with. -/
theorem sbrks_fresh (hs : CallerSpace t s₁) (h : EqualButFree s₁ s₂) (incrs : List Int) :
    (run (sbrkStep t) s₁ incrs = none ∧ run (sbrkStep t) s₂ incrs = none) ∨
      ∃ u₁ u₂, run (sbrkStep t) s₁ incrs = some u₁ ∧ run (sbrkStep t) s₂ incrs = some u₂ ∧
        { u₂ with phys := u₁.phys } = u₁ ∧ ∀ v, memoryTaskBase ≤ v → v < 4294967296 →
          HeldAt s₁.phys s₂.phys (s₁.task t).tss.cr3 u₁.phys u₂.phys v := by
  refine (run_together (fun _ _ incr => sbrkStep_together hs incr) incrs (h.alike hs)).imp_right ?_
  rintro ⟨u₁, u₂, hrun₁, hrun₂, hu⟩
  refine ⟨u₁, u₂, hrun₁, hrun₂, hu.rest, fun v hlo hhi => ?_⟩
  have hsame := hu.grown.same.translate hhi
  exact ⟨hsame, fun a ha =>
    ⟨hu.grown.left.byte hlo hhi ha, hu.grown.right.byte hlo hhi (hsame ▸ ha)⟩⟩

end Heap

end Wjos.Os
