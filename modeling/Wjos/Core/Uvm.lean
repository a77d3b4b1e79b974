/-
Wjos.Core.Uvm — the address spaces of `kernel/core/memory.c` and what
`memory_destroy_uvm` gives back.

`uvmFrames` lists the frames of an address space in the order in which
`memory_destroy_uvm` gives them back: the pages of a table, the table, and the
directory last. `memoryDestroyUvm_frees` says that it gives back these and no
others, from any memory where they are frames of the allocator.
-/
import Mathlib.Data.List.Nodup
import Wjos.Core.Frames

namespace Wjos

open Lib

/-! ## Address spaces -/

/-- The entry of table `i`. -/
def uvmPde (mem : Nat → UInt8) (pageDir i : Nat) : Nat := le32 mem (pageDir + 4 * i)

/-- The entry of page `j` of table `i`. -/
def uvmPte (mem : Nat → UInt8) (pageDir i j : Nat) : Nat :=
  le32 mem (entryPaddr (uvmPde mem pageDir i) + 4 * j)

/-- Page `j` of table `i` is there. -/
def pagePresent (mem : Nat → UInt8) (pageDir i j : Nat) : Bool :=
  entryPresent (uvmPde mem pageDir i) && entryPresent (uvmPte mem pageDir i j)

/-- The pages of table `i`. -/
def tablePages (mem : Nat → UInt8) (pageDir i : Nat) : List Nat :=
  (List.range 1024).filter (pagePresent mem pageDir i)

/-- The frames of table `i`, the table last. -/
def tableFrames (mem : Nat → UInt8) (pageDir i : Nat) : List Nat :=
  if entryPresent (uvmPde mem pageDir i) then
    ((tablePages mem pageDir i).map fun j => entryPaddr (uvmPte mem pageDir i j)) ++
      [entryPaddr (uvmPde mem pageDir i)]
  else []

/-- The frames of an address space, the directory last. -/
def uvmFrames (mem : Nat → UInt8) (pageDir : Nat) : List Nat :=
  userPdes.flatMap (tableFrames mem pageDir) ++ [pageDir]

/-- A well-formed address space: its frames are allocated and distinct. -/
structure UvmOk (m : PhysMem) (pageDir : Nat) : Prop where
  taken : ∀ a ∈ uvmFrames m.mem pageDir, ∃ k < m.frames, a = frameAddr k ∧ m.used k = true
  distinct : (uvmFrames m.mem pageDir).Nodup

section Spaces

variable {mem : Nat → UInt8} {pageDir i j : Nat}

theorem mem_userPdes : i ∈ userPdes ↔ 512 ≤ i ∧ i < 1024 := by
  simp [userPdes, List.mem_range', pdeIndex, memoryTaskBase]
  constructor
  · rintro ⟨k, hk, rfl⟩
    omega
  · rintro ⟨hlo, hhi⟩
    exact ⟨i - 512, by omega, by omega⟩

theorem mem_tablePages :
    j ∈ tablePages mem pageDir i ↔ j < 1024 ∧ pagePresent mem pageDir i j = true := by
  simp [tablePages]

theorem tablePages_absent (hp : entryPresent (uvmPde mem pageDir i) = false) :
    tablePages mem pageDir i = [] := by simp [tablePages, pagePresent, hp]

/-- The frames, one by one. -/
theorem mem_uvmFrames {a : Nat} : a ∈ uvmFrames mem pageDir ↔ a = pageDir ∨
    (∃ i ∈ userPdes, entryPresent (uvmPde mem pageDir i) = true ∧
      a = entryPaddr (uvmPde mem pageDir i)) ∨
    ∃ i ∈ userPdes, ∃ j < 1024, pagePresent mem pageDir i j = true ∧
      a = entryPaddr (uvmPte mem pageDir i j) := by
  unfold uvmFrames tableFrames
  simp only [List.mem_append, List.mem_flatMap, List.mem_singleton]
  constructor
  · rintro (⟨i, hi, ha⟩ | rfl)
    · split at ha
      next hp =>
        rcases List.mem_append.mp ha with ha | ha
        · obtain ⟨j, hj, rfl⟩ := List.mem_map.mp ha
          exact .inr (.inr ⟨i, hi, j, (mem_tablePages.mp hj).1, (mem_tablePages.mp hj).2, rfl⟩)
        · exact .inr (.inl ⟨i, hi, hp, List.mem_singleton.mp ha⟩)
      · cases ha
    · exact .inl rfl
  · rintro (rfl | ⟨i, hi, hp, rfl⟩ | ⟨i, hi, j, hj, hp, rfl⟩)
    · exact .inr rfl
    · exact .inl ⟨i, hi, by simp [hp]⟩
    · have hpde : entryPresent (uvmPde mem pageDir i) = true := by
        simp only [pagePresent, Bool.and_eq_true] at hp
        exact hp.1
      refine .inl ⟨i, hi, ?_⟩
      rw [if_pos hpde]
      exact List.mem_append_left _ (List.mem_map.mpr ⟨j, mem_tablePages.mpr ⟨hj, hp⟩, rfl⟩)

end Spaces

/-! ## Giving an address space back -/

/-- The frames in `gone` have been given back, and nothing else has happened. -/
structure UvmFreed (m : PhysMem) (gone : List Nat) (s : PhysMem) : Prop where
  ok : PhysOk s
  frames : s.frames = m.frames
  kernelPageDir : s.kernelPageDir = m.kernelPageDir
  mem : s.mem = m.mem
  used : ∀ k, s.used k = (m.used k && decide (frameAddr k ∉ gone))

section UvmFreed

variable {m s : PhysMem} {pageDir i : Nat} {gone : List Nat}

theorem UvmFreed.start (hm : PhysOk m) : UvmFreed m [] m := ⟨hm, rfl, rfl, rfl, by simp⟩

/-- One more frame. -/
theorem UvmFreed.free {a : Nat} (ha : ∃ k < m.frames, a = frameAddr k) :
    Returns (UvmFreed m gone) (paddrFreePage a 1) fun _ s => UvmFreed m (gone ++ [a]) s := by
  intro s h
  obtain ⟨k, hk, rfl⟩ := ha
  have hks : k < s.frames := h.frames ▸ hk
  refine ⟨_, paddrFreePage_frame h.ok hks, h.ok.mark, mark_frames.trans h.frames,
    h.kernelPageDir, h.mem, fun j => ?_⟩
  rw [mark_used hks]
  by_cases hj : j = k
  · simp [hj]
  · have hne : frameAddr j ≠ frameAddr k := fun he => hj (frameAddr_inj he)
    simp [hj, hne, h.used j]

/-- An entry read on the way. -/
theorem UvmFreed.load {a : Nat} :
    Returns (UvmFreed m gone) (loadWord a) fun v s => v = le32 m.mem a ∧ UvmFreed m gone s :=
  .look fun _ hs => ⟨by rw [hs.mem], hs⟩

/-- `onlyIf` for a frame that is there where `c` holds. -/
theorem UvmFreed.free_if {c : Prop} [Decidable c] {a : Nat}
    (ha : c → ∃ k < m.frames, a = frameAddr k) :
    Returns (UvmFreed m gone) (onlyIf c (paddrFreePage a 1))
      fun _ s => UvmFreed m (gone ++ if c then [a] else []) s := by
  refine .onlyIf (fun hc => ?_) fun s hc hs => ?_
  · rw [if_pos hc]
    exact UvmFreed.free (ha hc)
  · simpa [hc] using hs

/-- The pages of a table. -/
theorem destroyUvmPage_loop (hp : entryPresent (uvmPde m.mem pageDir i) = true)
    (hpages : ∀ j < 1024, pagePresent m.mem pageDir i j = true →
      ∃ k < m.frames, entryPaddr (uvmPte m.mem pageDir i j) = frameAddr k) :
    Returns (UvmFreed m gone)
      (forEach (destroyUvmPage (entryPaddr (uvmPde m.mem pageDir i))) (List.range 1024))
      fun _ s => UvmFreed m (gone ++ (tablePages m.mem pageDir i).map fun j =>
        entryPaddr (uvmPte m.mem pageDir i j)) s := by
  let present := pagePresent m.mem pageDir i
  let paddr : Nat → Nat := fun j => entryPaddr (uvmPte m.mem pageDir i j)
  let Inv : List Nat → PhysMem → Prop :=
    fun done s => UvmFreed m (gone ++ (done.filter present).map paddr) s
  have hloop : Returns (Inv [])
      (forEach (destroyUvmPage (entryPaddr (uvmPde m.mem pageDir i))) (List.range 1024))
      fun go s => if go then Inv (List.range 1024) s else False := by
    refine .each fun done j rest hrange => ?_
    have hj : j < 1024 := List.mem_range.mp (by simp [hrange])
    have hpte : present j = entryPresent (uvmPte m.mem pageDir i j) := by
      simp [present, pagePresent, hp]
    refine UvmFreed.load.seq fun v => ?_
    refine Returns.seq (Q := fun _ s => Inv (done ++ [j]) s) ?_ fun _ => .ret fun s hs => hs
    rintro s ⟨rfl, hs⟩
    obtain ⟨r, hr, hfreed⟩ := UvmFreed.free_if
      (c := entryPresent (uvmPte m.mem pageDir i j)) (a := paddr j)
      (fun hc => hpages j hj (hpte.trans hc)) s hs
    refine ⟨r, hr, ?_⟩
    show UvmFreed m (gone ++ ((done ++ [j]).filter present).map paddr) r.2
    rw [List.filter_append, List.map_append, ← List.append_assoc]
    rw [List.filter_singleton, hpte]
    cases hc : entryPresent (uvmPte m.mem pageDir i j) <;> simpa [hc] using hfreed
  refine hloop.imp (fun s hs => by simpa [Inv] using hs) fun go s hs => ?_
  cases go with
  | true => exact hs
  | false => exact hs.elim

/-- One table. -/
theorem destroyUvmTable_step (hi : i ∈ userPdes)
    (hframes : ∀ a ∈ uvmFrames m.mem pageDir, ∃ k < m.frames, a = frameAddr k) :
    Returns (UvmFreed m gone) (destroyUvmTable pageDir i)
      fun go s => go = true ∧ UvmFreed m (gone ++ tableFrames m.mem pageDir i) s := by
  refine UvmFreed.load.seq fun v => ?_
  refine Returns.seq (Q := fun _ s => UvmFreed m (gone ++ tableFrames m.mem pageDir i) s) ?_
    fun _ => .ret fun s hs => ⟨rfl, hs⟩
  refine .onlyIf (fun hv => ?_) ?_
  · rintro s ⟨rfl, hs⟩
    have hp : entryPresent (uvmPde m.mem pageDir i) = true := hv
    have hpages : ∀ j < 1024, pagePresent m.mem pageDir i j = true →
        ∃ k < m.frames, entryPaddr (uvmPte m.mem pageDir i j) = frameAddr k := fun j hj hpj =>
      hframes _ (mem_uvmFrames.mpr (.inr (.inr ⟨i, hi, j, hj, hpj, rfl⟩)))
    have htable := hframes _ (mem_uvmFrames.mpr (.inr (.inl ⟨i, hi, hp, rfl⟩)))
    rw [tableFrames, if_pos hp, ← List.append_assoc]
    exact (destroyUvmPage_loop hp hpages).seq (fun _ => UvmFreed.free htable) s hs
  · rintro s hv ⟨rfl, hs⟩
    have hp : ¬entryPresent (uvmPde m.mem pageDir i) = true := hv
    rw [tableFrames, if_neg hp, List.append_nil]
    exact hs

/-- `memory_destroy_uvm` gives back the frames of the address space, whatever they hold. -/
theorem memoryDestroyUvm_frees
    (hframes : ∀ a ∈ uvmFrames m.mem pageDir, ∃ k < m.frames, a = frameAddr k) :
    Returns (UvmFreed m []) (memoryDestroyUvm pageDir)
      fun _ s => UvmFreed m (uvmFrames m.mem pageDir) s := by
  let Inv : List Nat → PhysMem → Prop :=
    fun done s => UvmFreed m (done.flatMap (tableFrames m.mem pageDir)) s
  have hloop : Returns (Inv []) (forEach (destroyUvmTable pageDir) userPdes)
      fun go s => if go then Inv userPdes s else False := by
    refine .each fun done i rest hall => ?_
    have hi : i ∈ userPdes := by simp [hall]
    refine (destroyUvmTable_step hi hframes).imp (fun _ hs => hs) ?_
    rintro go s ⟨rfl, hs⟩
    simpa [Inv, List.flatMap_append] using hs
  refine Returns.seq (Q := fun _ s => Inv userPdes s)
    (hloop.imp (fun _ hs => hs) fun go s hs => ?_) fun _ => ?_
  · cases go with
    | true => exact hs
    | false => exact hs.elim
  · exact UvmFreed.free (hframes _ (mem_uvmFrames.mpr (.inl rfl)))

end UvmFreed
end Wjos
