/-
Wjos.Core.ExecFiles — the file layer with the descriptors of `kernel/fs/fs.c`
in it.

`Fs.lean` has the descriptor tables and leaves open what the file systems
answer; `Life.lean` takes the whole file layer as a parameter. `openFiles` is
that layer with the tables of `Fs.lean`, over file systems that are a parameter
still: `FsOp` is what they do for a slot of `file_table`, found by its name or
through a descriptor.

Of these calls only `sys_open` and `sys_close` store to a descriptor table.
-/
import Wjos.Core.Life
import Wjos.Fs.FsTheorems

namespace Wjos.Os

open Lib

/-- The functions `fs->op` of the mounted file systems, for a slot of
`file_table`; `none` is a machine that stops. -/
structure FsOp (ψ : Type) where
  /-- The slot and the name. -/
  fsOpen : ψ → Nat → List UInt8 → Option (Int × ψ)
  /-- The result, and what is stored to the buffer. -/
  fsRead : ψ → Nat → Nat → Option ((Int × List UInt8) × ψ)
  fsSeek : ψ → Nat → Nat → Option (Int × ψ)
  fsClose : ψ → Nat → Option ψ
  /-- A read stores no more than it was asked for. -/
  length_le : ∀ x i len r, fsRead x i len = some r → r.1.2.length ≤ len

variable {ψ : Type}

/-- The slot for which `sys_open` calls `fs->op->open`, where it gets that far. -/
def openTarget (s : Files) (t : TaskId) : Option Nat :=
  match fileAlloc s with
  | (_, none) => none
  | (s, some file) => if (taskAllocFd s t file).2 < 0 then none else some file

/-- The slot for which `sys_close` calls `fs->op->close`. -/
def closeTarget (s : Files) (t : TaskId) (fd : Int) : Option Nat :=
  if isFdBed fd then none else (taskFile s t fd).filter fun file => s.ref file = 1

/-- `sys_open`. -/
def openFile (op : FsOp ψ) (s : Files × ψ) (t : TaskId) (name : List UInt8) :
    Option (Int × Files × ψ) :=
  let r := match openTarget s.1 t with
    | none => some (0, s.2)
    | some file => op.fsOpen s.2 file name
  r.map fun (err, x) => ((sysOpen s.1 t err).2, (sysOpen s.1 t err).1, x)

/-- `sys_read`. -/
def readFile (op : FsOp ψ) (s : Files × ψ) (t : TaskId) (fd : Int) (len : Nat) :
    Option ((Int × List UInt8) × Files × ψ) :=
  if isFdBed fd ∨ len = 0 then some ((0, []), s)
  else
    match taskFile s.1 t fd with
    | none => some ((-1, []), s)
    | some file => (op.fsRead s.2 file len).map fun (r, x) => (r, s.1, x)

/-- `sys_lseek` from the beginning of the file. -/
def seekFile (op : FsOp ψ) (s : Files × ψ) (t : TaskId) (fd : Int) (ptr : Nat) :
    Option (Int × Files × ψ) :=
  if isFdBed fd then some (0, s)
  else
    match taskFile s.1 t fd with
    | none => some (-1, s)
    | some file => (op.fsSeek s.2 file ptr).map fun (r, x) => (r, s.1, x)

/-- `sys_close`. -/
def closeFile (op : FsOp ψ) (s : Files × ψ) (t : TaskId) (fd : Int) :
    Option (Int × Files × ψ) :=
  match sysClose s.1 t fd with
  | none => none
  | some (files, r) =>
    match closeTarget s.1 t fd with
    | none => some (r, files, s.2)
    | some file => (op.fsClose s.2 file).map fun x => (r, files, x)

/-- The body of the loop of `sys_exit` over the descriptors. -/
def closeExitFile (op : FsOp ψ) (t : TaskId) (s : Files × ψ) (fd : Nat) : Option (Files × ψ) :=
  match s.1.fileTable (t, fd) with
  | none => some s
  | some _ => (closeFile op s t fd).map fun (_, files, x) =>
      ({ files with fileTable := Function.update files.fileTable (t, fd) none }, x)

theorem readFile_length {op : FsOp ψ} {s : Files × ψ} {t : TaskId} {fd : Int} {len : Nat}
    {r : (Int × List UInt8) × Files × ψ} (h : readFile op s t fd len = some r) :
    r.1.2.length ≤ len := by
  unfold readFile at h
  split at h
  · cases h
    exact Nat.zero_le _
  · split at h
    · cases h
      exact Nat.zero_le _
    · obtain ⟨q, hq, rfl⟩ := Option.map_eq_some_iff.mp h
      exact op.length_le _ _ _ _ hq

/-- The file layer over these file systems. -/
def openFiles (op : FsOp ψ) : FileLayer (Files × ψ) where
  sysOpen := openFile op
  sysRead := readFile op
  sysLseek := seekFile op
  sysClose := closeFile op
  clearFileTable := fun s t =>
    ({ s.1 with fileTable := fun p => if p.1 = t then none else s.1.fileTable p }, s.2)
  copyOpenedFiles := fun s parent child => (copyOpenedFiles s.1 parent child, s.2)
  closeFiles := fun s t => (List.range taskOfileNr).foldlM (closeExitFile op t) s
  length_le := fun _ _ _ _ _ h => readFile_length h

section OpenFiles

variable {op : FsOp ψ} {s s' : Files × ψ} {t : TaskId} {fd r : Int}

theorem readFile_files {len : Nat} {r : Int × List UInt8}
    (h : readFile op s t fd len = some (r, s')) : s'.1 = s.1 := by
  unfold readFile at h
  split at h
  · cases h
    rfl
  · split at h
    · cases h
      rfl
    · obtain ⟨q, -, hq⟩ := Option.map_eq_some_iff.mp h
      cases hq
      rfl

theorem seekFile_files {ptr : Nat} (h : seekFile op s t fd ptr = some (r, s')) : s'.1 = s.1 := by
  unfold seekFile at h
  split at h
  · cases h
    rfl
  · split at h
    · cases h
      rfl
    · obtain ⟨q, -, hq⟩ := Option.map_eq_some_iff.mp h
      cases hq
      rfl

/-- The tables after a close are those of `Fs.lean`. -/
theorem closeFile_files (h : closeFile op s t fd = some (r, s')) :
    sysClose s.1 t fd = some (s'.1, r) := by
  unfold closeFile at h
  split at h
  · cases h
  · next files r' hclose =>
    split at h
    · cases h
      exact hclose
    · obtain ⟨x, -, hx⟩ := Option.map_eq_some_iff.mp h
      cases hx
      exact hclose

/-- A descriptor of `t` is found other than 0, or no slot is free. -/
def OpenKeeps (s : Files) (t : TaskId) : Prop :=
  s.fileTable (t, 0) ≠ none ∨ ∀ i < fileTableSize, s.ref i ≠ 0

/-- An open that is given descriptor 0 leaves it in use, whatever the file
system answers. -/
theorem sysOpen_zero {s : Files} (h : ¬OpenKeeps s t) (err : Int) :
    (sysOpen s t err).2 ≤ 0 ∧ (sysOpen s t err).1.fileTable (t, 0) ≠ none := by
  rw [OpenKeeps, not_or, not_not] at h
  obtain ⟨hnone, hfree⟩ := h
  unfold sysOpen fileAlloc
  cases hf : findSlot (fun i => s.ref i = 0) fileTableSize 0 with
  | none =>
    refine absurd (fun i hi h0 => ?_) hfree
    have hne := findSlot_eq_none.mp hf i (Nat.zero_le i) (by omega)
    simp [h0] at hne
  | some file =>
    dsimp only
    rcases taskAllocFd_cases { s with ref := Function.update s.ref file 1 } t file with
      ⟨-, hfull⟩ | ⟨fd, -, -, hfirst, ha⟩
    · exact absurd hnone (hfull 0 (by decide))
    · obtain rfl : fd = 0 := by
        by_contra hne
        exact hfirst 0 (by omega) hnone
      rw [ha]
      dsimp only
      rw [if_neg (by decide)]
      by_cases herr : err < 0
      · rw [if_pos herr, sysOpenFailed, if_pos (by decide)]
        refine ⟨show (-1 : Int) ≤ 0 by decide, ?_⟩
        dsimp only
        rw [Int.natCast_zero, taskRemoveFd_zero]
        unfold fileFree
        split <;> simp
      · rw [if_neg herr]
        exact ⟨le_rfl, by simp⟩

/-- What an open leaves in the descriptor table: nothing when it fails, one
descriptor more when it does not; descriptor 0 where it was unused. -/
theorem openFile_cases {name : List UInt8} (h : openFile op s t name = some (r, s')) :
    (OpenKeeps s.1 t ∧ r = -1 ∧ s'.1.fileTable = s.1.fileTable) ∨
    (OpenKeeps s.1 t ∧ ∃ fd < taskOfileNr, ∃ file, r = (fd : Int) ∧ fd ≠ 0 ∧
      s.1.fileTable (t, fd) = none ∧ s'.1.ref file = 1 ∧
      s'.1.fileTable = Function.update s.1.fileTable (t, fd) (some file)) ∨
    (¬OpenKeeps s.1 t ∧ r ≤ 0 ∧ s'.1.fileTable (t, 0) ≠ none) := by
  obtain ⟨⟨err, x⟩, -, hr⟩ := Option.map_eq_some_iff.mp h
  cases hr
  by_cases hkeep : OpenKeeps s.1 t
  · have hzero : s.1.fileTable (t, 0) = none → ∀ file < fileTableSize, s.1.ref file ≠ 0 :=
      fun hnone => hkeep.resolve_left (not_not.mpr hnone)
    rcases sysOpen_cases s.1 t err with ⟨he, -⟩ |
      ⟨-, file, hfile, fd, hfd, hfree, hnone, he⟩ | ⟨-, hnone, file, hfile, hfree, -⟩
    · exact .inl ⟨hkeep, by rw [he], by rw [he]⟩
    · refine .inr (.inl ⟨hkeep, fd, hfd, file, by rw [he], ?_, hnone, by simp [he], by rw [he]⟩)
      rintro rfl
      exact hzero hnone file hfile hfree
    · exact absurd hfree (hzero hnone file hfile)
  · exact .inr (.inr ⟨hkeep, sysOpen_zero hkeep err⟩)

/-- A close of that descriptor undoes it. -/
theorem closeFile_undoes {n file : Nat} (hn : n < taskOfileNr) (hpos : n ≠ 0)
    (hopen : s.1.fileTable (t, n) = some file) (hone : s.1.ref file = 1)
    (h : closeFile op s t n = some (r, s')) :
    s'.1.fileTable = Function.update s.1.fileTable (t, n) none := by
  have hclose := closeFile_files h
  rw [sysClose_open hn hopen (by omega), taskRemoveFd_of_pos hn hpos, Option.some.injEq,
    Prod.mk.injEq] at hclose
  rw [← hclose.1]

/-- A close of descriptor 0 leaves it in the table, and so does one of an
answer that is no descriptor. -/
theorem closeFile_keeps (hfd : fd ≤ 0) (h : closeFile op s t fd = some (r, s')) :
    s'.1.fileTable = s.1.fileTable := by
  have hclose := closeFile_files h
  generalize s'.1 = files at hclose ⊢
  unfold sysClose at hclose
  split at hclose
  · cases hclose
    rfl
  · split at hclose
    · cases hclose
      rfl
    · split at hclose
      · cases hclose
        rw [taskRemoveFd, if_neg (by omega)]
        split
        · unfold fileFree
          split <;> rfl
        · rfl
      · cases hclose

end OpenFiles

end Wjos.Os
