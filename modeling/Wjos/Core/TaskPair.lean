/-
Wjos.Core.TaskPair — `task_init` and `task_uninit` of `kernel/core/task.c` as
a pair.

`task_init` never reports a failure: it does not look at what `tss_init`
returns. `task_uninit` finds the kernel stack through `esp`, where `tss_init`
has put the stack pointer of the program, and not through `esp0`. So the pair
undoes itself (`InitPairs`) exactly where nothing runs out and that `esp`
happens to be the top of the first free frame.
-/
import Wjos.Core.Fork
import Wjos.Core.PageTableRuns

namespace Wjos.Os

open Lib

variable {φ α : Type} {L : FileLayer φ}

/-! ## What the pair promises -/

/-- There is a descriptor, and a page each for the kernel stack and the directory. -/
structure TssResources (s : OsState φ) : Prop where
  desc : ∃ j, 0 < j ∧ j < gdtTableSize ∧ s.gdt j = 0
  frames : 2 ≤ s.phys.freeCount

/-- A `task_init` that fails leaves no trace; one that does not is undone by
`task_uninit`, and the pages of the directory `cr3` stay as they are. -/
structure InitPairs (L : FileLayer φ) (cr3 : Nat) (task : TaskId) (name : Nat → UInt8)
    (flag entry esp : Nat) (s : OsState φ) : Prop where
  failed : ¬TssResources s → ∃ r s', taskInit L cr3 task name flag entry esp s = some (r, s') ∧
    r < 0 ∧ s'.gdt = s.gdt ∧ s'.phys.paddrAlloc.bitmap = s.phys.paddrAlloc.bitmap ∧
    s'.taskList = s.taskList
  undone : TssResources s → ∃ r s₁ s₂, taskInit L cr3 task name flag entry esp s = some (r, s₁) ∧
    taskUninit L cr3 task s₁ = some ((), s₂) ∧ s₂.gdt = s.gdt ∧
    s₂.phys.paddrAlloc.bitmap = s.phys.paddrAlloc.bitmap ∧
    ∀ p < 1048576, pageEntry s₂.phys cr3 p = pageEntry s.phys cr3 p

/-- The frame that the next allocation takes. -/
structure FirstFree (m : PhysMem) (k : Nat) : Prop where
  lt : k < m.frames
  free : m.used k = false
  least : ∀ j < k, m.used j = true

theorem FirstFree.unique {m : PhysMem} {j k : Nat} (hj : FirstFree m j) (hk : FirstFree m k) :
    j = k := by
  rcases Nat.lt_trichotomy j k with hlt | rfl | hlt
  · exact absurd (hk.least j hlt) (by simp [hj.free])
  · rfl
  · exact absurd (hj.least k hlt) (by simp [hk.free])

/-! ## `task_init` -/

section Init

variable {s s₁ : OsState φ} {task : TaskId} {cr3 flag entry esp j k d : Nat}
  {name : Nat → UInt8} {r : Int}

/-- `task_init` returns 0 where it returns. -/
theorem taskInit_zero (h : taskInit L cr3 task name flag entry esp s = some (r, s₁)) : r = 0 := by
  cases htss : tssInit cr3 task flag entry esp s with
  | none =>
    rw [taskInit, seq_none htss] at h
    cases h
  | some q =>
    obtain ⟨s₂, hinit, -⟩ := @taskInit_some φ L s q.2 task q.1 cr3 flag entry esp name htss
    rw [h] at hinit
    exact congrArg Prod.fst (Option.some.inj hinit)

/-- What a memory holds after two frames have been taken, for the kernel stack
and for a directory without user pages. -/
structure StackAndDir (m : PhysMem) (k d : Nat) (m' : PhysMem) : Prop where
  grown : PhysGrown m m'
  first : FirstFree m k
  dir : d < m.frames
  apart : d ≠ k
  dirFree : m.used d = false
  used : ∀ i, m'.used i = (m.used i || decide (i = k) || decide (i = d))
  uvm : ∀ a, a ∈ uvmFrames m'.mem (frameAddr d) ↔ a = frameAddr d

/-- The two frames, where there are two. -/
theorem stackAndDir (hm : PhysOk s.phys) (hfree : 2 ≤ s.phys.freeCount) :
    ∃ k d m₁ m₂, paddrAllocPage s.phys = some (frameAddr k, m₁) ∧
      memoryCreateUvm m₁ = some (frameAddr d, m₂) ∧ StackAndDir s.phys k d m₂ := by
  rcases paddrAllocPage_cases hm with ⟨hfull, -⟩ | ⟨k, hk, hkfree, halloc, hleast⟩
  · omega
  have hcount := freeCount_take hk hkfree
  have hgrown := PhysGrown.take hm hk hkfree
  rcases @memoryCreateUvm_step _ 0 hgrown.ok with ⟨hfull, -⟩ | ⟨d, m₂, hcreate, -, hcopied⟩
  · omega
  have hused := hcopied.used_dir
  obtain ⟨use, hl, hset, hspare⟩ := hcopied
  have hnone : ∀ i u, use i = some u → i = d := fun i u => hl.eq_dir hset hspare
  have hd := hl.fresh d _ hset.dir
  have hdk : d ≠ k := by
    rintro rfl
    rw [mark_used hk, if_pos rfl] at hd
    exact absurd hd.2 (by decide)
  refine ⟨k, d, _, m₂, halloc, hcreate, hgrown.trans hl.grown, ⟨hk, hkfree, hleast⟩,
    by simpa using hd.1, hdk, ?_, fun i => ?_, ?_⟩
  · have hdfree := hd.2
    rwa [mark_used hk, if_neg hdk] at hdfree
  · have htrue : decide (¬(~~~(0 : Int) = 0)) = true := by decide
    rw [hused i, mark_used hk]
    by_cases hik : i = k <;> simp [hik, htrue]
  · intro a
    rw [hl.mem_uvmFrames hset fun _ _ h => h.elim]
    constructor
    · rintro ⟨i, u, rfl, hu, -⟩
      rw [hnone i u hu]
    · rintro rfl
      exact ⟨d, _, rfl, hset.dir, by simp⟩

/-- `tss_init` with a descriptor and the two frames. -/
theorem tssInitSel_some {sel : Nat} {m₁ m₂ : PhysMem}
    (halloc : paddrAllocPage s.phys = some (frameAddr k, m₁))
    (hcreate : memoryCreateUvm m₁ = some (frameAddr d, m₂)) :
    ∃ s₁, tssInitSel cr3 task flag entry esp sel s = some (0, s₁) ∧ s₁.phys = m₂ ∧
      s₁.gdt = segmentDescSet s.gdt sel tssSize segTss ∧ (s₁.task task).tssSel = sel ∧
      (s₁.task task).tss.esp = esp ∧ (s₁.task task).tss.esp0 = frameAddr k + 4096 ∧
      (s₁.task task).tss.cr3 = frameAddr d := by
  rw [tssInitSel, store_seq, editTask, store_seq, look_seq, look_seq, onPhys_seq halloc,
    if_neg (frameAddr_pos k), editTask, store_seq, onPhys_seq hcreate,
    if_neg (frameAddr_pos d), editTask, store_seq]
  · refine ⟨_, rfl, rfl, rfl, ?_, ?_, ?_, ?_⟩ <;> simp [OsState.setTask]
  · rfl
  · rfl

/-- `task_init` with all it needs. -/
theorem taskInit_ready (hm : PhysOk s.phys) (hres : TssResources s) : ∃ j k d s₁,
    taskInit L cr3 task name flag entry esp s = some (0, s₁) ∧ 0 < j ∧ s.gdt j = 0 ∧
      s₁.gdt = Function.update s.gdt j (segmentAttr tssSize segTss) ∧
      StackAndDir s.phys k d s₁.phys ∧ (s₁.task task).tssSel = j * segmentDescSize ∧
      (s₁.task task).tss.esp = esp ∧ (s₁.task task).tss.esp0 = frameAddr k + 4096 ∧
      (s₁.task task).tss.cr3 = frameAddr d := by
  obtain ⟨j, hpos, -, hsel, hj⟩ := gdtAllocDesc_free fun hneg => gdtAllocDesc_neg.mp hneg hres.desc
  obtain ⟨k, d, m₁, m₂, halloc, hcreate, hboth⟩ := stackAndDir hm hres.frames
  obtain ⟨s₀, hinit, hphys, hgdt, hsel₀, hesp, hesp0, hcr3⟩ :=
    @tssInitSel_some φ s task cr3 flag entry esp k d (j * segmentDescSize) m₁ m₂ halloc hcreate
  rw [← tssInit_sel hsel] at hinit
  obtain ⟨s₁, hrun, hphys₁, hgdt₁, -, hsel₁, htss⟩ :=
    @taskInit_some φ L s s₀ task 0 cr3 flag entry esp name hinit
  refine ⟨j, k, d, s₁, hrun, hpos, hj, ?_, ?_, hsel₁.trans hsel₀, ?_, ?_, ?_⟩
  · rw [hgdt₁, hgdt, segmentDescSet_index]
  · rw [hphys₁, hphys]
    exact hboth
  · rw [htss, hesp]
  · rw [htss, hesp0]
  · rw [htss, hcr3]

end Init

/-! ## `task_uninit` -/

section Uninit

variable {s s' : OsState φ} {task : TaskId} {cr3 j k d addr : Nat}

/-- The two calls of `task_uninit` for the memory of a task. -/
def giveBack (cr3 addr dir : Nat) : Prog PhysMem Unit := do
  memoryFreePage cr3 addr
  memoryDestroyUvm dir

/-- `task_uninit` of a task that has a descriptor, a stack and a directory. -/
theorem taskUninit_eq (hsel : (s.task task).tssSel ≠ 0) (hesp0 : (s.task task).tss.esp0 ≠ 0)
    (hcr3 : (s.task task).tss.cr3 ≠ 0) :
    (taskUninit L cr3 task s).map (fun r => (r.2.gdt, r.2.phys)) =
      (giveBack cr3 (u32 ((s.task task).tss.esp - 4096 : Int)) (s.task task).tss.cr3 s.phys).map
        fun r => (gdtFreeSel s.gdt (s.task task).tssSel, r.2) := by
  have hgive :
      giveBack cr3 (u32 ((s.task task).tss.esp - 4096 : Int)) (s.task task).tss.cr3 s.phys =
      (memoryFreePage cr3 (u32 ((s.task task).tss.esp - 4096 : Int)) s.phys).bind fun r =>
        memoryDestroyUvm (s.task task).tss.cr3 r.2 := rfl
  rw [taskUninit, look_seq, onlyIf_pos hsel, onlyIf_pos hesp0, onlyIf_pos hcr3, store_seq,
    onPhys_bind, hgive]
  cases memoryFreePage cr3 (u32 ((s.task task).tss.esp - 4096 : Int)) s.phys with
  | none => rfl
  | some r =>
    rw [Option.bind_some, Option.bind_some, onPhys_bind]
    cases memoryDestroyUvm (s.task task).tss.cr3 r.2 with
    | none => rfl
    | some q => rfl

/-- `memory_destroy_uvm` stores nothing. -/
theorem mem_memoryDestroyUvm (dir : Nat) : Leaves PhysMem.mem (memoryDestroyUvm dir) := by
  have hfree : ∀ a, Leaves PhysMem.mem (paddrFreePage a 1) := fun a => .store fun _ => rfl
  have hpage : ∀ t j, Leaves PhysMem.mem (destroyUvmPage t j) := fun t j =>
    .seq .look fun v => .seq (.onlyIf (hfree _)) fun _ => .ret
  exact .seq (.each (fun i => .seq .look fun v =>
    .seq (.onlyIf (.seq (.each (hpage _) _) fun _ => hfree _)) fun _ => .ret) _) fun _ => hfree _

/-- A page that `memory_free_page` finds through the directory of the current
task is unmapped there. -/
theorem freePage_unmaps {m : PhysMem} {r : Unit × PhysMem} (h : DirOk m cr3)
    (hlo : memoryTaskBase ≤ addr) (hhi : addr < 4294967296)
    (hrun : memoryFreePage cr3 addr m = some r) :
    pageEntry m cr3 (addr / 4096) ≠ none ∧ pageEntry r.2 cr3 (addr / 4096) = none := by
  have hi : pdeIndex addr < 1024 := by
    unfold pdeIndex
    omega
  have hj : pteIndex addr < 1024 := by
    unfold pteIndex
    omega
  rw [memoryFreePage, if_neg (by omega)] at hrun
  cases hp : hasTable m cr3 (pdeIndex addr) with
  | false =>
    rw [seq_some (findPte_absent hp)] at hrun
    cases hrun
  | true =>
    obtain ⟨k, -, hk, -, -⟩ := h.table _ hi hp
    have hload : loadWord (frameAddr k + 4 * pteIndex addr) m =
        some (uvmPte m.mem cr3 (pdeIndex addr) (pteIndex addr), m) := by
      rw [uvmPte, hk]
      rfl
    rw [seq_some (findPte_present hp hk)] at hrun
    dsimp only at hrun
    rw [seq_some hload] at hrun
    cases hpres : entryPresent (uvmPte m.mem cr3 (pdeIndex addr) (pteIndex addr)) with
    | false =>
      rw [hpres] at hrun
      cases hrun
    | true =>
      rw [hpres] at hrun
      cases hrun
      have hpage : addr / 4096 = pdeIndex addr * 1024 + pteIndex addr := by
        rw [pdeIndex_eq, pteIndex_eq]
        omega
      constructor
      · rw [ne_eq, pageEntry_eq_none, pagePresent, ← pdeIndex_eq, ← pteIndex_eq, hpres]
        simpa [hasTable] using hp
      · have hent := (h.setEntry (e := 0) hi hj hp hk (by decide) fun _ => rfl).2.2 (addr / 4096)
          (by omega)
        rw [if_pos hpage] at hent
        exact hent

/-- Giving back undoes the two allocations exactly where `addr` is an address
of the stack, and below the user half. -/
theorem giveBack_iff {m m₁ : PhysMem} (h : DirOk m cr3) (hboth : StackAndDir m k d m₁)
    (ha : addr < 4294967296) :
    (∃ m', giveBack cr3 addr (frameAddr d) m₁ = some ((), m') ∧
      m'.paddrAlloc.bitmap = m.paddrAlloc.bitmap ∧
      ∀ p < 1048576, pageEntry m' cr3 p = pageEntry m cr3 p) ↔
    addr < memoryTaskBase ∧ InFrame k addr := by
  obtain ⟨hok₁, -, hent₁⟩ := hboth.grown.dirOk h
  have hkf : k < m₁.frames := hboth.grown.frames ▸ hboth.first.lt
  have hframes : ∀ a ∈ uvmFrames m₁.mem (frameAddr d), ∃ i < m₁.frames, a = frameAddr i := by
    intro a ha
    exact ⟨d, hboth.grown.frames ▸ hboth.dir, (hboth.uvm a).mp ha⟩
  -- what `memory_destroy_uvm` makes of a memory with the same contents
  have hdestroy : ∀ m₂ : PhysMem, PhysOk m₂ → m₂.mem = m₁.mem → m₂.frames = m₁.frames →
      ∃ m', memoryDestroyUvm (frameAddr d) m₂ = some ((), m') ∧ m'.frames = m.frames ∧
        m'.mem = m₁.mem ∧ ∀ i, m'.used i = (m₂.used i && decide (i ≠ d)) := by
    intro m₂ hm₂ hmem hfr
    obtain ⟨⟨⟨⟩, m'⟩, hrun, hfreed⟩ := @memoryDestroyUvm_frees m₂ (frameAddr d)
      (by rw [hmem, hfr]; exact hframes) m₂ (.start hm₂)
    refine ⟨m', hrun, hfreed.frames.trans (hfr.trans hboth.grown.frames), hfreed.mem.trans hmem,
      fun i => ?_⟩
    have hgone : frameAddr i ∈ uvmFrames m₂.mem (frameAddr d) ↔ i = d := by
      rw [hmem, hboth.uvm]
      exact ⟨frameAddr_inj, congrArg frameAddr⟩
    rw [hfreed.used i]
    simp [hgone]
  constructor
  · rintro ⟨m', hrun, hmap, hent⟩
    obtain ⟨r, hfree, hrun⟩ := Option.bind_eq_some_iff.mp hrun
    have hlow : addr < memoryTaskBase := by
      by_contra hhigh
      obtain ⟨hsome, hnone⟩ := freePage_unmaps hok₁ (Nat.le_of_not_lt hhigh) ha hfree
      have hmem : m'.mem = r.2.mem := mem_memoryDestroyUvm _ _ _ hrun
      refine hsome ?_
      rw [hent₁ _ (by omega), ← hent _ (by omega), pageEntry, hmem]
      exact hnone
    refine ⟨hlow, ?_⟩
    have hlost : m'.used k = false := by
      rw [PhysMem.used, hmap]
      exact hboth.first.free
    rw [memoryFreePage, if_pos hlow] at hfree
    have hk₁ : m₁.used k = true := by simp [hboth.used]
    rcases paddrFreePage_cases hboth.grown.ok ha with ⟨f, hf, hin, hstep⟩ | ⟨-, hstep⟩
    · rw [hstep] at hfree
      cases hfree
      change memoryDestroyUvm (frameAddr d) _ = _ at hrun
      obtain ⟨m'', hrun', -, -, hused⟩ := hdestroy _ hboth.grown.ok.mark rfl mark_frames
      rw [hrun] at hrun'
      cases hrun'
      by_cases hfk : k = f
      · exact hfk ▸ hin
      · rw [hused, mark_used hf, if_neg hfk, hk₁] at hlost
        simp [hboth.apart.symm] at hlost
    · rw [hstep] at hfree
      cases hfree
      change memoryDestroyUvm (frameAddr d) _ = _ at hrun
      obtain ⟨m'', hrun', -, -, hused⟩ := hdestroy _ hboth.grown.ok rfl rfl
      rw [hrun] at hrun'
      cases hrun'
      rw [hused, hk₁] at hlost
      simp [hboth.apart.symm] at hlost
  · rintro ⟨hlow, hin⟩
    have hfree : memoryFreePage cr3 addr m₁ = some ((), m₁.mark k 0) := by
      rw [memoryFreePage, if_pos hlow]
      rcases paddrFreePage_cases hboth.grown.ok ha with ⟨f, -, hin', hstep⟩ | ⟨hnone, -⟩
      · rw [hstep, InFrame.unique hin' hin]
      · exact absurd hin (hnone k hkf)
    obtain ⟨m', hrun, hfr, hmem, hused⟩ := hdestroy (m₁.mark k 0) hboth.grown.ok.mark rfl
      mark_frames
    refine ⟨m', ?_, bitmap_ext hfr fun i => ?_, fun p hp => ?_⟩
    · rw [giveBack, seq_some hfree, hrun]
    · show m'.used i = m.used i
      rw [hused, mark_used hkf, hboth.used]
      by_cases hik : i = k
      · simp [hik, hboth.first.free]
      · by_cases hid : i = d
        · simp [hid, hboth.dirFree]
        · simp [hik, hid]
    · rw [← hent₁ p hp, pageEntry, hmem]
      rfl

end Uninit

/-! ## The pair -/

section Pair

variable {s : OsState φ} {task : TaskId} {cr3 flag entry esp : Nat} {name : Nat → UInt8}

/-- What `task_uninit` takes for the stack is an address of the first free frame. -/
def EspIsStack (m : PhysMem) (esp : Nat) : Prop :=
  u32 (esp - 4096 : Int) < memoryTaskBase ∧ ∃ k, FirstFree m k ∧ InFrame k (u32 (esp - 4096 : Int))

theorem undone_iff (h : DirOk s.phys cr3) (hres : TssResources s) :
    (∃ r s₁ s₂, taskInit L cr3 task name flag entry esp s = some (r, s₁) ∧
      taskUninit L cr3 task s₁ = some ((), s₂) ∧ s₂.gdt = s.gdt ∧
      s₂.phys.paddrAlloc.bitmap = s.phys.paddrAlloc.bitmap ∧
      ∀ p < 1048576, pageEntry s₂.phys cr3 p = pageEntry s.phys cr3 p) ↔
    EspIsStack s.phys esp := by
  obtain ⟨j, k, d, s₁, hinit, hpos, hj, hgdt, hboth, hsel, hesp, hesp0, hcr3⟩ :=
    @taskInit_ready φ L s task cr3 flag entry esp name h.phys hres
  have hselne : (s₁.task task).tssSel ≠ 0 := by
    rw [hsel, segmentDescSize]
    omega
  have heq := @taskUninit_eq φ L s₁ task cr3 hselne (by rw [hesp0]; omega)
    (by rw [hcr3]; exact frameAddr_pos d)
  have hback : gdtFreeSel s₁.gdt (s₁.task task).tssSel = s.gdt := by
    rw [hgdt, hsel, gdtFreeSel_set hj]
  rw [hback, hesp, hcr3] at heq
  have hiff := giveBack_iff h hboth (u32_lt (esp - 4096 : Int))
  constructor
  · rintro ⟨r, s₁', s₂, hinit', huninit, -, hmap, hent⟩
    rw [hinit] at hinit'
    cases hinit'
    rw [huninit] at heq
    obtain ⟨⟨⟨⟩, m'⟩, hgive, hm'⟩ := Option.map_eq_some_iff.mp heq.symm
    obtain rfl : m' = s₂.phys := congrArg Prod.snd hm'
    obtain ⟨hlow, hin⟩ := hiff.mp ⟨_, hgive, hmap, hent⟩
    exact ⟨hlow, k, hboth.first, hin⟩
  · rintro ⟨hlow, k', hfirst, hin⟩
    rw [hfirst.unique hboth.first] at hin
    obtain ⟨m', hgive, hmap, hent⟩ := hiff.mpr ⟨hlow, hin⟩
    rw [hgive] at heq
    obtain ⟨⟨⟨⟩, s₂⟩, huninit, hs₂⟩ := Option.map_eq_some_iff.mp heq
    obtain ⟨hgdt₂, hphys₂⟩ := Prod.mk.inj hs₂
    refine ⟨0, s₁, s₂, hinit, huninit, hgdt₂, ?_, ?_⟩ <;> rw [show s₂.phys = m' from hphys₂]
    · exact hmap
    · exact hent

/-- A `task_init` that fails says that it has not. -/
theorem InitPairs.needs (hpairs : InitPairs L cr3 task name flag entry esp s)
    (h : DirOk s.phys cr3) : TssResources s ∧ EspIsStack s.phys esp := by
  have hres : TssResources s := by
    by_contra hno
    obtain ⟨r, s', hinit, hneg, -⟩ := hpairs.failed hno
    rw [taskInit_zero hinit] at hneg
    exact absurd hneg (by decide)
  exact ⟨hres, (undone_iff h hres).mp (hpairs.undone hres)⟩

/-- `task_init` and `task_uninit` pair up exactly where the resources are there
and `esp - MEM_PAGE_SIZE` is a physical address of the first free frame. -/
theorem task_init_uninit_iff (s : OsState φ) (task : TaskId) (cr3 flag entry esp : Nat)
    (name : Nat → UInt8) (h : DirOk s.phys cr3) :
    InitPairs L cr3 task name flag entry esp s ↔ TssResources s ∧ EspIsStack s.phys esp := by
  constructor
  · intro hpairs
    exact hpairs.needs h
  · rintro ⟨hres, hstack⟩
    exact ⟨fun hno => absurd hres hno, fun _ => (undone_iff h hres).mpr hstack⟩

theorem oneTask_dirOk : DirOk oneTask.phys 0x100000 := by
  rw [oneTask_phys]
  exact smallMem_dirOk (by decide) (by decide)

theorem task_init_uninit_iff_first :
    InitPairs noFiles 0x100000 (.slot 0) (fun _ => 0) 0 0x80000000 0x105000 oneTask ↔
      TssResources oneTask ∧ EspIsStack oneTask.phys 0x105000 :=
  task_init_uninit_iff oneTask (.slot 0) 0x100000 0 0x80000000 0x105000 (fun _ => 0) oneTask_dirOk

/-- The stack pointer of a program: what `task_uninit` gives back is the page
below it, in the address space of the current task. -/
theorem uninit_frees_user_page :
    ¬∀ (s : OsState Unit) (task : TaskId) (cr3 flag entry esp : Nat) (name : Nat → UInt8),
      DirOk s.phys cr3 → InitPairs noFiles cr3 task name flag entry esp s := by
  intro h
  have hpairs := h oneTask (.slot 0) 0x100000 0 0x80000000 0x80001000 (fun _ => 0) oneTask_dirOk
  exact absurd (hpairs.needs oneTask_dirOk).2.1 (by decide)

end Pair

end Wjos.Os
