/-
Wjos.Fs.FsTheorems — the reference counts of the file table.

`FilesInv` is the invariant: every counter is the number of descriptors
that point to its slot (`Counted` of `Wjos.Lib.RefCount`), descriptors
point into the table, and dead tasks have none.

`sys_close` and the failure path of `sys_open` give a descriptor back with
`task_remove_fd`, which refuses descriptor 0. `fdSafe` excludes the calls
that run into this, and `fd_refcount_iff` says that these are exactly the
calls after which a count or a table is wrong.
-/
import Wjos.Fs.Fs
import Wjos.Lib.RefCount
import Wjos.Lib.Run
import Mathlib.Data.Finset.Prod

namespace Wjos

open Lib

/-- The tasks of the kernel. -/
@[irreducible] def allTasks : Finset TaskId :=
  insert .idle (insert .first ((Finset.range taskNr).image .slot))

/-- The descriptors of all tasks. -/
@[irreducible] def descriptors : Finset (TaskId × Nat) := allTasks ×ˢ Finset.range taskOfileNr

theorem mem_descriptors {t : TaskId} {fd : Nat} (ht : t ∈ allTasks) (hfd : fd < taskOfileNr) :
    (t, fd) ∈ descriptors := by
  unfold descriptors
  rw [Finset.mem_product, Finset.mem_range]
  exact ⟨ht, hfd⟩

theorem slot_mem_allTasks {i : Nat} (hi : i < taskNr) : TaskId.slot i ∈ allTasks := by
  unfold allTasks
  simp [hi]

/-! ## What is promised -/

/-- What holds of every state: descriptors of live tasks point to slots in
use, the counts are right, and the assertion of `sys_close` holds. -/
structure FdOk (s : Files) : Prop where
  points : ∀ t fd f, s.live t = true → fd < taskOfileNr → s.fileTable (t, fd) = some f →
    f < fileTableSize ∧ 0 < s.ref f
  refs : ∀ f < fileTableSize, s.ref f = holders descriptors s.fileTable f
  no_assert : ∀ t fd, s.live t = true → sysClose s t fd ≠ none

/-- What a call promises: a closed descriptor is unused, and a failed open
changes nothing. -/
def CallOk (s : Files) : FdEvent → Prop
  | .sysClose t fd => ∀ s' r, sysClose s t fd = some (s', r) → r = 0 → taskFile s' t fd = none
  | .sysOpen t err => (sysOpen s t err).2 = -1 →
      (sysOpen s t err).1.fileTable = s.fileTable ∧ (sysOpen s t err).1.ref = s.ref
  | _ => True

/-- The calls that need not give descriptor 0 back: no close of an open
descriptor 0, and no failing open that was given descriptor 0. -/
def fdSafe (s : Files) : FdEvent → Prop
  | .sysClose t fd => fd = 0 → s.fileTable (t, 0) = none
  | .sysOpen t err => err < 0 → (∃ i < fileTableSize, s.ref i = 0) → s.fileTable (t, 0) ≠ none
  | _ => True

/-! ## The invariant -/

/-- The counts are right and the tables are in range. -/
structure FilesBase (s : Files) : Prop where
  counted : Counted descriptors s.fileTable s.ref
  points : ∀ p f, s.fileTable p = some f → f < fileTableSize
  range : ∀ t fd, taskOfileNr ≤ fd → s.fileTable (t, fd) = none

structure FilesInv (s : Files) : Prop extends FilesBase s where
  dead : ∀ t fd, s.live t = false → s.fileTable (t, fd) = none
  known : ∀ t, s.live t = true → t ∈ allTasks

variable {s : Files} {t : TaskId}

theorem filesInv_init : FilesInv filesInit where
  counted := fun k => by simp [filesInit, holders]
  points := fun p f h => absurd h (by simp [filesInit])
  range := fun _ _ _ => rfl
  dead := fun _ _ _ => rfl
  known := fun t h => by
    have ht : t = .first := by simpa [filesInit] using h
    rw [ht]
    unfold allTasks
    simp

/-- A descriptor is pointed at a slot, and the slot counts it. -/
theorem FilesBase.set (h : FilesBase s) (ht : t ∈ allTasks) {fd f : Nat} (hfd : fd < taskOfileNr)
    (hfree : s.fileTable (t, fd) = none) (hf : f < fileTableSize) :
    FilesBase { s with
      ref := Function.update s.ref f (s.ref f + 1)
      fileTable := Function.update s.fileTable (t, fd) (some f) } where
  counted := h.counted.set (mem_descriptors ht hfd) hfree f
  points := by
    intro p g hp
    by_cases hpt : p = (t, fd)
    · dsimp only at hp
      rw [hpt, Function.update_self, Option.some.injEq] at hp
      exact hp ▸ hf
    · dsimp only at hp
      rw [Function.update_of_ne hpt] at hp
      exact h.points p g hp
  range := by
    intro u fd' hfd'
    have hne : (u, fd') ≠ (t, fd) := by
      intro he
      have := (Prod.mk.inj he).2
      omega
    exact (Function.update_of_ne hne _ _).trans (h.range u fd' hfd')

/-- A descriptor is given back, and its slot counts it no more. -/
theorem FilesBase.clear (h : FilesBase s) (ht : t ∈ allTasks) {fd f : Nat} (hfd : fd < taskOfileNr)
    (hopen : s.fileTable (t, fd) = some f) :
    FilesBase { s with
      ref := Function.update s.ref f (s.ref f - 1)
      fileTable := Function.update s.fileTable (t, fd) none } where
  counted := h.counted.clear (mem_descriptors ht hfd) hopen
  points := by
    intro p g hp
    by_cases hpt : p = (t, fd)
    · dsimp only at hp
      rw [hpt, Function.update_self] at hp
      exact absurd hp (by simp)
    · dsimp only at hp
      rw [Function.update_of_ne hpt] at hp
      exact h.points p g hp
  range := by
    intro u fd' hfd'
    have hne : (u, fd') ≠ (t, fd) := by
      intro he
      have := (Prod.mk.inj he).2
      omega
    exact (Function.update_of_ne hne _ _).trans (h.range u fd' hfd')

/-- Tables in which only descriptors of the live task `t` were written. -/
theorem FilesInv.of_base (h : FilesInv s) {s' : Files} (hb : FilesBase s')
    (hlive : s'.live = s.live)
    (ht : s.live t = true)
    (hother : ∀ p, p.1 ≠ t → s'.fileTable p = s.fileTable p) : FilesInv s' where
  toFilesBase := hb
  dead := by
    intro u fd hu
    rw [hlive] at hu
    have hne : u ≠ t := fun he => by simp [he, ht] at hu
    rw [hother (u, fd) hne]
    exact h.dead u fd hu
  known := by
    rw [hlive]
    exact h.known

/-! ## The functions -/

/-- A descriptor that is open in a state with right counts. -/
theorem FilesInv.ref_pos (h : FilesInv s) (ht : s.live t = true) {fd f : Nat}
    (hfd : fd < taskOfileNr) (hopen : s.fileTable (t, fd) = some f) : 0 < s.ref f :=
  h.counted.pos (mem_descriptors (h.known t ht) hfd) hopen

/-- `task_alloc_fd` fails when all descriptors are in use, or takes the first
unused one. -/
theorem taskAllocFd_cases (s : Files) (t : TaskId) (file : Nat) :
    (taskAllocFd s t file = (s, -1) ∧ ∀ j < taskOfileNr, s.fileTable (t, j) ≠ none) ∨
    ∃ i < taskOfileNr, s.fileTable (t, i) = none ∧
      (∀ j < i, s.fileTable (t, j) ≠ none) ∧
      taskAllocFd s t file =
        ({ s with fileTable := Function.update s.fileTable (t, i) (some file) }, (i : Int)) := by
  have hused : ∀ j, (s.fileTable (t, j)).isNone = false → s.fileTable (t, j) ≠ none := by
    intro j hj hnone
    rw [hnone] at hj
    exact absurd hj (by simp)
  unfold taskAllocFd
  cases hf : findSlot (fun i => (s.fileTable (t, i)).isNone) taskOfileNr 0 with
  | none =>
    refine Or.inl ⟨rfl, fun j hj => hused j ?_⟩
    exact findSlot_eq_none.mp hf j (Nat.zero_le j) (by omega)
  | some i =>
    obtain ⟨hp, -, hi⟩ := findSlot_eq_some hf
    refine Or.inr ⟨i, by omega, by simpa using hp, fun j hj => hused j ?_, rfl⟩
    exact findSlot_first hf (Nat.zero_le j) hj

/-- Freeing the slot that `file_alloc` took restores the counters. -/
theorem fileFree_alloc (s : Files) {file : Nat} (h0 : s.ref file = 0)
    (h1 : s'.ref = Function.update s.ref file 1) :
    fileFree s' file = { s' with ref := s.ref } := by
  have hne : s'.ref file ≠ 0 := by rw [h1, Function.update_self]; simp
  unfold fileFree
  rw [if_pos hne, h1, Function.update_self, Function.update_idem]
  have hz : (1 : Int) - 1 = s.ref file := by rw [h0]; rfl
  rw [hz, Function.update_eq_self]

/-- An open gives up without a trace, or succeeds, or fails in the file
system after it was given descriptor 0, which stays in use. -/
theorem sysOpen_cases (s : Files) (t : TaskId) (err : Int) :
    (sysOpen s t err = (s, -1) ∧ fdSafe s (.sysOpen t err)) ∨
    (0 ≤ err ∧ ∃ file < fileTableSize, ∃ fd < taskOfileNr,
      s.ref file = 0 ∧ s.fileTable (t, fd) = none ∧
      sysOpen s t err =
        ({ s with
            ref := Function.update s.ref file 1
            fileTable := Function.update s.fileTable (t, fd) (some file) }, (fd : Int))) ∨
    (err < 0 ∧ s.fileTable (t, 0) = none ∧
      ∃ file < fileTableSize, s.ref file = 0 ∧ sysOpen s t err =
        ({ s with fileTable := Function.update s.fileTable (t, 0) (some file) }, -1)) := by
  unfold sysOpen fileAlloc
  cases hf : findSlot (fun i => s.ref i = 0) fileTableSize 0 with
  | none =>
    refine Or.inl ⟨rfl, fun _ ⟨i, hi, h0⟩ => ?_⟩
    have hne := findSlot_eq_none.mp hf i (Nat.zero_le i) (by omega)
    simp [h0] at hne
  | some file =>
    obtain ⟨hp, -, hi⟩ := findSlot_eq_some hf
    have h0 : s.ref file = 0 := by simpa using hp
    dsimp only
    rcases taskAllocFd_cases { s with ref := Function.update s.ref file 1 } t file with
      ⟨ha, hfull⟩ | ⟨fd, hfd, hnone, hfirst, ha⟩
    · left
      refine ⟨?_, fun _ _ => hfull 0 (by decide)⟩
      rw [ha]
      dsimp only
      rw [if_pos (by omega)]
      unfold sysOpenFailed
      rw [fileFree_alloc s h0 rfl]
      rfl
    · rw [ha]
      dsimp only
      rw [if_neg (by omega), Function.update_idem]
      by_cases herr : err < 0
      · rw [if_pos herr]
        unfold sysOpenFailed
        rw [fileFree_alloc s h0 rfl]
        dsimp only
        rw [if_pos (by omega)]
        unfold taskRemoveFd
        by_cases hpos : fd = 0
        · subst hpos
          exact Or.inr (Or.inr ⟨herr, hnone, file, by omega, h0, rfl⟩)
        · left
          refine ⟨?_, fun _ _ => hfirst 0 (by omega)⟩
          have hr : (fd : Int) > 0 ∧ (fd : Int) < taskOfileNr := by omega
          have hback : Function.update (Function.update s.fileTable (t, fd) (some file))
              (t, fd) none = s.fileTable := by
            rw [Function.update_idem, ← hnone, Function.update_eq_self]
          rw [if_pos hr]
          dsimp only
          rw [Int.toNat_natCast, hback]
      · rw [if_neg herr]
        exact Or.inr (Or.inl ⟨by omega, file, by omega, fd, hfd, h0, hnone, rfl⟩)

/-- A close of an open descriptor: the counter goes down and the descriptor
is unused, unless it is descriptor 0. -/
theorem sysClose_open {fd f : Nat} (hfd : fd < taskOfileNr) (hopen : s.fileTable (t, fd) = some f)
    (hpos : 0 < s.ref f) :
    sysClose s t fd =
      some (taskRemoveFd { s with ref := Function.update s.ref f (s.ref f - 1) } t fd, 0) := by
  have hbed : isFdBed (fd : Int) = false := by
    unfold isFdBed taskOfileNr at *
    simp only [Bool.or_eq_false_iff, decide_eq_false_iff_not]
    omega
  have hfile : taskFile s t fd = some f := by
    unfold taskFile
    rw [if_pos (by omega), Int.toNat_natCast]
    exact hopen
  -- a counter that went down to 0 is left alone by `file_free`
  have hsame : s.ref f = 1 → fileFree { s with ref := Function.update s.ref f (s.ref f - 1) } f
      = { s with ref := Function.update s.ref f (s.ref f - 1) } := by
    intro h1
    have h0 : Function.update s.ref f (s.ref f - 1) f = 0 := by
      rw [Function.update_self, h1]
      rfl
    unfold fileFree
    exact if_neg (not_not.mpr h0)
  unfold sysClose
  rw [hbed, if_neg (by simp), hfile]
  dsimp only
  rw [if_pos hpos]
  by_cases h1 : s.ref f = 1
  · rw [if_pos h1, hsame h1]
  · rw [if_neg h1]

/-- A close of anything else does nothing. -/
theorem sysClose_cases (s : Files) (t : TaskId) (fd : Int) :
    (∃ r, sysClose s t fd = some (s, r) ∧ taskFile s t fd = none) ∨
    ∃ n < taskOfileNr, ∃ f, fd = n ∧ s.fileTable (t, n) = some f := by
  cases hf : taskFile s t fd with
  | none =>
    left
    unfold sysClose
    rw [hf]
    cases isFdBed fd with
    | true => exact ⟨0, rfl, rfl⟩
    | false => exact ⟨-1, rfl, rfl⟩
  | some f =>
    right
    unfold taskFile at hf
    split at hf
    · rename_i hr
      exact ⟨fd.toNat, by omega, f, by omega, hf⟩
    · exact absurd hf (by simp)

theorem taskRemoveFd_of_pos {fd : Nat} (hfd : fd < taskOfileNr) (hpos : fd ≠ 0) :
    taskRemoveFd s t fd = { s with fileTable := Function.update s.fileTable (t, fd) none } := by
  unfold taskRemoveFd
  rw [if_pos (by omega), Int.toNat_natCast]

theorem taskRemoveFd_zero (s : Files) (t : TaskId) : taskRemoveFd s t 0 = s := by
  unfold taskRemoveFd
  exact if_neg (by simp)

/-! ## One call -/

theorem FilesInv.sysOpen (h : FilesInv s) (ht : s.live t = true) {err : Int}
    (hsafe : fdSafe s (.sysOpen t err)) : FilesInv (sysOpen s t err).1 := by
  rcases sysOpen_cases s t err with ⟨he, -⟩ | ⟨-, file, hfile, fd, hfd, h0, hnone, he⟩ |
    ⟨herr, hnone, file, hfile, h0, -⟩
  · rw [he]
    exact h
  · rw [he]
    have hb := h.set (h.known t ht) hfd hnone hfile
    rw [h0, zero_add] at hb
    refine h.of_base hb rfl ht fun p hp => ?_
    exact Function.update_of_ne (fun hc => hp (by rw [hc])) _ _
  · exact absurd hnone (hsafe herr ⟨file, hfile, h0⟩)

theorem FilesInv.sysClose (h : FilesInv s) (ht : s.live t = true) {fd : Int}
    (hsafe : fdSafe s (.sysClose t fd)) :
    ∃ s' r, sysClose s t fd = some (s', r) ∧ FilesInv s' ∧ taskFile s' t fd = none := by
  rcases sysClose_cases s t fd with ⟨r, he, hnone⟩ | ⟨n, hn, f, rfl, hopen⟩
  · exact ⟨s, r, he, h, hnone⟩
  · have hpos := h.ref_pos ht hn hopen
    have hn0 : n ≠ 0 := by
      rintro rfl
      have hnone := hsafe rfl
      rw [hnone] at hopen
      exact absurd hopen (by simp)
    refine ⟨_, _, sysClose_open hn hopen hpos, ?_, ?_⟩
    · rw [taskRemoveFd_of_pos hn hn0]
      refine h.of_base (h.clear (h.known t ht) hn hopen) rfl ht fun p hp => ?_
      exact Function.update_of_ne (fun hc => hp (by rw [hc])) _ _
    · rw [taskRemoveFd_of_pos hn hn0]
      unfold taskFile
      rw [if_pos (by omega), Int.toNat_natCast]
      exact Function.update_self ..

theorem FilesInv.sysDup (h : FilesInv s) (ht : s.live t = true) (fd : Int) :
    FilesInv (sysDup s t fd).1 := by
  unfold Wjos.sysDup
  split
  · exact h
  · split
    · exact h
    · rename_i f hf
      rcases taskAllocFd_cases s t f with ⟨ha, -⟩ | ⟨i, hi, hnone, -, ha⟩
      · rw [ha]
        exact h
      · rw [ha]
        dsimp only
        rw [if_pos (by omega)]
        have hlt : f < fileTableSize := by
          unfold taskFile at hf
          split at hf
          · exact h.points _ f hf
          · exact absurd hf (by simp)
        refine h.of_base (h.set (h.known t ht) hi hnone hlt) rfl ht fun p hp => ?_
        exact Function.update_of_ne (fun hc => hp (by rw [hc])) _ _

/-! ## Fork and exit -/

/-- The loop of `copy_opened_files` over the descriptors `l`. -/
theorem copyOpenedFiles_loop (parent : TaskId) {child : TaskId} (hc : child ∈ allTasks)
    (l : List Nat) :
    ∀ s : Files, FilesBase s → l.Nodup → (∀ fd ∈ l, fd < taskOfileNr) →
      (∀ fd ∈ l, s.fileTable (child, fd) = none) →
      FilesBase (l.foldl (copyOpenedFile parent child) s) ∧
        (l.foldl (copyOpenedFile parent child) s).live = s.live ∧
        ∀ p, p.1 ≠ child →
          (l.foldl (copyOpenedFile parent child) s).fileTable p = s.fileTable p := by
  induction l with
  | nil => exact fun s h _ _ _ => ⟨h, rfl, fun _ _ => rfl⟩
  | cons fd l ih =>
    intro s h hnd hlt hfree
    rw [List.foldl_cons]
    obtain ⟨hfd, hnd⟩ := List.nodup_cons.mp hnd
    have hlt' : ∀ fd ∈ l, fd < taskOfileNr := fun fd' hm => hlt fd' (by simp [hm])
    cases hp : s.fileTable (parent, fd) with
    | none =>
      have he : copyOpenedFile parent child s fd = s := by
        unfold copyOpenedFile
        rw [hp]
      rw [he]
      exact ih s h hnd hlt' fun fd' hm => hfree fd' (by simp [hm])
    | some f =>
      have he : copyOpenedFile parent child s fd =
          { s with
            ref := Function.update s.ref f (s.ref f + 1)
            fileTable := Function.update s.fileTable (child, fd) (some f) } := by
        unfold copyOpenedFile
        rw [hp]
        rfl
      have hb := h.set hc (hlt fd (by simp)) (hfree fd (by simp)) (h.points _ f hp)
      have hfree' : ∀ fd' ∈ l,
          Function.update s.fileTable (child, fd) (some f) (child, fd') = none := by
        intro fd' hm
        have hne : (child, fd') ≠ (child, fd) := fun hx => hfd ((Prod.mk.inj hx).2 ▸ hm)
        rw [Function.update_of_ne hne]
        exact hfree fd' (by simp [hm])
      rw [he]
      obtain ⟨h₁, h₂, h₃⟩ := ih _ hb hnd hlt' hfree'
      refine ⟨h₁, h₂, fun p hpc => (h₃ p hpc).trans ?_⟩
      exact Function.update_of_ne (fun hx => hpc (by rw [hx])) _ _

theorem FilesInv.sysFork (h : FilesInv s) {parent child : TaskId} (hc : child ∈ allTasks)
    (hdead : s.live child = false) : FilesInv (sysFork s parent child) := by
  -- a dead task has no descriptors for `task_init` to clear
  have hclear : (fun p : TaskId × Nat => if p.1 = child then none else s.fileTable p)
      = s.fileTable := by
    funext p
    by_cases hp : p.1 = child
    · rw [if_pos hp]
      exact (h.dead p.1 p.2 (hp ▸ hdead)).symm
    · rw [if_neg hp]
  unfold Wjos.sysFork copyOpenedFiles
  dsimp only
  rw [hclear]
  obtain ⟨h₁, h₂, h₃⟩ := copyOpenedFiles_loop parent hc (List.range taskOfileNr) s
    h.toFilesBase List.nodup_range (fun fd hm => List.mem_range.mp hm)
    (fun fd _ => h.dead child fd hdead)
  generalize (List.range taskOfileNr).foldl (copyOpenedFile parent child) s = s' at h₁ h₂ h₃ ⊢
  refine ⟨⟨h₁.counted, h₁.points, h₁.range⟩, fun u fd hu => ?_, fun u hu => ?_⟩
  · by_cases huc : u = child
    · dsimp only at hu
      rw [huc, Function.update_self] at hu
      exact absurd hu (by simp)
    · dsimp only at hu ⊢
      rw [Function.update_of_ne huc, h₂] at hu
      rw [h₃ (u, fd) huc]
      exact h.dead u fd hu
  · by_cases huc : u = child
    · exact huc ▸ hc
    · dsimp only at hu
      rw [Function.update_of_ne huc, h₂] at hu
      exact h.known u hu

/-- One descriptor of an exiting task; descriptor 0 is cleared like the
others. -/
theorem sysExitFile_ok (h : FilesInv s) (ht : s.live t = true) {fd : Nat} (hfd : fd < taskOfileNr) :
    ∃ s', sysExitFile t s fd = some s' ∧ FilesInv s' ∧ s'.live = s.live ∧
      s'.fileTable (t, fd) = none ∧
      ∀ p, s.fileTable p = none → s'.fileTable p = none := by
  unfold sysExitFile
  cases hp : s.fileTable (t, fd) with
  | none => exact ⟨s, rfl, h, rfl, hp, fun _ hq => hq⟩
  | some f =>
    dsimp only
    rw [sysClose_open hfd hp (h.ref_pos ht hfd hp), Option.map_some]
    have hshape : ∀ x : Files, { taskRemoveFd x t fd with
        fileTable := Function.update (taskRemoveFd x t fd).fileTable (t, fd) none }
        = { x with fileTable := Function.update x.fileTable (t, fd) none } := by
      intro x
      unfold taskRemoveFd
      split
      · dsimp only
        rw [Int.toNat_natCast, Function.update_idem]
      · rfl
    dsimp only
    rw [hshape]
    refine ⟨_, rfl, ?_, rfl, Function.update_self .., fun p hq => ?_⟩
    · refine h.of_base (h.clear (h.known t ht) hfd hp) rfl ht fun p hpt => ?_
      exact Function.update_of_ne (fun hc => hpt (by rw [hc])) _ _
    · by_cases hpt : p = (t, fd)
      · rw [hpt]
        exact Function.update_self ..
      · exact (Function.update_of_ne hpt _ _).trans hq

/-- The loop of `sys_exit` over the descriptors `l`. -/
theorem sysExit_loop (l : List Nat) : ∀ s : Files, FilesInv s → s.live t = true →
    (∀ fd ∈ l, fd < taskOfileNr) →
    ∃ s', l.foldlM (sysExitFile t) s = some s' ∧ FilesInv s' ∧ s'.live = s.live ∧
      (∀ fd ∈ l, s'.fileTable (t, fd) = none) ∧
      ∀ p, s.fileTable p = none → s'.fileTable p = none := by
  induction l with
  | nil => exact fun s h _ _ => ⟨s, rfl, h, rfl, by simp, fun _ hq => hq⟩
  | cons fd l ih =>
    intro s h ht hlt
    obtain ⟨s₁, he₁, h₁, hl₁, hc₁, hk₁⟩ := sysExitFile_ok h ht (hlt fd (by simp))
    obtain ⟨s₂, he₂, h₂, hl₂, hc₂, hk₂⟩ := ih s₁ h₁ (by rw [hl₁]; exact ht)
      fun fd' hm => hlt fd' (by simp [hm])
    refine ⟨s₂, ?_, h₂, hl₂.trans hl₁, fun fd' hm => ?_, fun p hq => hk₂ p (hk₁ p hq)⟩
    · rw [List.foldlM_cons, he₁]
      exact he₂
    · rcases List.mem_cons.mp hm with rfl | hm
      · exact hk₂ _ hc₁
      · exact hc₂ fd' hm

theorem FilesInv.sysExit (h : FilesInv s) (ht : s.live t = true) :
    ∃ s', sysExit s t = some s' ∧ FilesInv s' := by
  obtain ⟨s₁, he, h₁, hl, hc, -⟩ := sysExit_loop (List.range taskOfileNr) s h ht
    fun fd hm => List.mem_range.mp hm
  unfold Wjos.sysExit
  rw [he, Option.map_some]
  refine ⟨_, rfl, ⟨h₁.counted, h₁.points, h₁.range⟩, fun u fd hu => ?_, fun u hu => ?_⟩
  · by_cases hut : u = t
    · subst hut
      by_cases hfd : fd < taskOfileNr
      · exact hc fd (List.mem_range.mpr hfd)
      · exact h₁.range u fd (by omega)
    · dsimp only at hu
      rw [Function.update_of_ne hut] at hu
      exact h₁.dead u fd hu
  · by_cases hut : u = t
    · dsimp only at hu
      rw [hut, Function.update_self] at hu
      exact absurd hu (by simp)
    · dsimp only at hu
      rw [Function.update_of_ne hut] at hu
      exact h₁.known u hu

/-! ## Runs -/

theorem live_of_fdStep {e : FdEvent} {s' : Files} (he : fdStep s e = some s') :
    s.live e.task = true := by
  unfold fdStep at he
  split at he
  · assumption
  · exact absurd he (by simp)

theorem filesInv_step {e : FdEvent} {s' : Files} (h : FilesInv s) (hsafe : fdSafe s e)
    (he : fdStep s e = some s') : FilesInv s' := by
  have ht := live_of_fdStep he
  unfold fdStep at he
  rw [if_pos ht] at he
  cases e with
  | sysOpen t err =>
    rw [Option.some.injEq] at he
    exact he ▸ h.sysOpen ht hsafe
  | sysDup t fd =>
    rw [Option.some.injEq] at he
    exact he ▸ h.sysDup ht fd
  | sysClose t fd =>
    obtain ⟨s₁, r, hc, h₁, -⟩ := h.sysClose (t := t) ht hsafe
    dsimp only at he
    rw [hc, Option.map_some, Option.some.injEq] at he
    exact he ▸ h₁
  | sysFork t i =>
    dsimp only at he
    split at he
    · rename_i hi
      rw [Option.some.injEq] at he
      exact he ▸ h.sysFork (slot_mem_allTasks hi.1) hi.2
    · exact absurd he (by simp)
  | sysExit t =>
    obtain ⟨s₁, hx, h₁⟩ := h.sysExit (t := t) ht
    dsimp only at he
    rw [hx, Option.some.injEq] at he
    exact he ▸ h₁

/-- The invariant gives what is promised of a state. -/
theorem FilesInv.fdOk (h : FilesInv s) : FdOk s where
  points := fun t fd f ht hfd hopen => ⟨h.points _ f hopen, h.ref_pos ht hfd hopen⟩
  refs := fun f _ => h.counted f
  no_assert := by
    intro t fd ht
    rcases sysClose_cases s t fd with ⟨r, he, -⟩ | ⟨n, hn, f, rfl, hopen⟩
    · rw [he]
      simp
    · rw [sysClose_open hn hopen (h.ref_pos ht hn hopen)]
      simp

/-- A call keeps its promise exactly when it need not give descriptor 0
back. -/
theorem FilesInv.callOk_iff (h : FilesInv s) {e : FdEvent} (ht : s.live e.task = true) :
    CallOk s e ↔ fdSafe s e := by
  cases e with
  | sysDup t fd => exact Iff.rfl
  | sysFork t i => exact Iff.rfl
  | sysExit t => exact Iff.rfl
  | sysClose t fd =>
    constructor
    · intro hok hfd
      subst hfd
      by_contra hne
      obtain ⟨f, hopen⟩ := Option.ne_none_iff_exists'.mp hne
      have hc := sysClose_open (t := t) (by decide) hopen (h.ref_pos ht (by decide) hopen)
      have hnone := hok _ _ hc rfl
      rw [show ((0 : Nat) : Int) = 0 from rfl, taskRemoveFd_zero] at hnone
      unfold taskFile at hnone
      rw [if_pos (by decide)] at hnone
      exact hne hnone
    · intro hsafe s' r he _
      obtain ⟨s₁, r₁, hc, -, hnone⟩ := h.sysClose (t := t) ht hsafe
      rw [he, Option.some.injEq, Prod.mk.injEq] at hc
      rw [hc.1]
      exact hnone
  | sysOpen t err =>
    rcases sysOpen_cases s t err with ⟨he, hsafe⟩ | ⟨herr, file, hfile, fd, hfd, h0, hnone, he⟩ |
      ⟨herr, hnone, file, hfile, h0, he⟩
    · refine ⟨fun _ => hsafe, fun _ _ => ?_⟩
      rw [he]
      exact ⟨rfl, rfl⟩
    · refine ⟨fun _ hneg => absurd hneg (by omega), fun _ hret => ?_⟩
      rw [he] at hret
      dsimp only at hret
      omega
    · constructor
      · intro hok
        have hret : (Wjos.sysOpen s t err).2 = -1 := by rw [he]
        have hsame := (hok hret).1
        rw [he] at hsame
        have hat := congrFun hsame (t, 0)
        dsimp only at hat
        rw [Function.update_self, hnone] at hat
        exact absurd hat (by simp)
      · intro hsafe
        exact absurd hnone (hsafe herr ⟨file, hfile, h0⟩)

/-- In every run the counts are right in every state and every call keeps
its promise exactly when no call has to give descriptor 0 back. -/
theorem fd_refcount_iff (es : List FdEvent) (s : Files) (h : run fdStep filesInit es = some s) :
    (Along fdStep (fun u e => FdOk u ∧ CallOk u e) filesInit es ∧ FdOk s) ↔
      Along fdStep fdSafe filesInit es := by
  have key : ∀ (es : List FdEvent) (u : Files), FilesInv u → run fdStep u es = some s →
      ((Along fdStep (fun v e => FdOk v ∧ CallOk v e) u es ∧ FdOk s) ↔
        Along fdStep fdSafe u es) := by
    intro es
    induction es with
    | nil =>
      intro u hu hr
      rw [run_nil, Option.some.injEq] at hr
      exact ⟨fun _ => trivial, fun _ => ⟨trivial, hr ▸ hu.fdOk⟩⟩
    | cons e es ih =>
      intro u hu hr
      obtain ⟨v, hv, hr⟩ := run_cons_eq_some.mp hr
      have ht := live_of_fdStep hv
      rw [along_cons, along_cons]
      constructor
      · rintro ⟨⟨⟨-, hcall⟩, hrest⟩, hlast⟩
        have hsafe := (hu.callOk_iff ht).mp hcall
        refine ⟨hsafe, fun w hw => ?_⟩
        obtain rfl : v = w := Option.some.inj (hv.symm.trans hw)
        exact (ih v (filesInv_step hu hsafe hv) hr).mp ⟨hrest v hv, hlast⟩
      · rintro ⟨hsafe, hrest⟩
        obtain ⟨h₁, h₂⟩ := (ih v (filesInv_step hu hsafe hv) hr).mpr (hrest v hv)
        refine ⟨⟨⟨hu.fdOk, (hu.callOk_iff ht).mpr hsafe⟩, fun w hw => ?_⟩, h₂⟩
        obtain rfl : v = w := Option.some.inj (hv.symm.trans hw)
        exact h₁
  exact key es filesInit filesInv_init h

theorem fd_refcount_iff_open_close :
    ∃ s, run fdStep filesInit [.sysOpen .first 0, .sysOpen .first 0, .sysClose .first 1] = some s ∧
      ((Along fdStep (fun u e => FdOk u ∧ CallOk u e) filesInit
          [.sysOpen .first 0, .sysOpen .first 0, .sysClose .first 1] ∧ FdOk s) ↔
        Along fdStep fdSafe filesInit
          [.sysOpen .first 0, .sysOpen .first 0, .sysClose .first 1]) :=
  ⟨_, rfl, fd_refcount_iff [.sysOpen .first 0, .sysOpen .first 0, .sysClose .first 1] _ rfl⟩

/-- Closing descriptor 0 leaves it pointing to a slot without holders. -/
theorem close_zero_dangles :
    ∃ s, run fdStep filesInit [.sysOpen .first 0, .sysClose .first 0] = some s ∧ ¬ FdOk s := by
  refine ⟨_, rfl, fun h => ?_⟩
  have hpos := (h.points .first 0 0 rfl (by decide) rfl).2
  exact absurd hpos (by decide)

end Wjos
