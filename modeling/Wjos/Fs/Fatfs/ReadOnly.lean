/-
Wjos.Fs.Fatfs.ReadOnly — what calls through a read-only descriptor do to the
disk.

`fatfs_read` and `fatfs_seek` never write, whatever the geometry, the
contents of the disk and the answers of the device. Two calls do, although
the mode of the file says otherwise: `sys_write` only logs the mode, and
`fatfs_close` tests it with `mode & O_RDONLY`, which is 0 for every mode.
`ReadOnlyKeeps` is the condition on the state before a call under which
these leave the disk alone as well, and `read_only_calls_keep_disk` the
result for whole runs. `late_reader_undoes_write` is the run that the
condition excludes: a reader that closes after a writer.
-/
import Wjos.Lib.Run
import Wjos.Fs.Fatfs.DirMap
import Wjos.Fs.Fatfs.Calls

namespace Wjos

open Lib

/-! ## Functions that do not write -/

section Reads

variable (dev : Dev) (g : Fat) (fuel : Nat) (v : Volume)

@[simp] theorem breadSector_disk (sector : Nat) : (breadSector dev v sector).1.disk = v.disk := by
  unfold breadSector
  split
  · rfl
  · dsimp only [devReadBuffer, devRead]
    split <;> rfl

@[simp] theorem readDirEntry_disk (index : Int) :
    (readDirEntry dev g v index).1.disk = v.disk := by
  unfold readDirEntry
  split
  · rfl
  · dsimp only
    split <;> exact breadSector_disk ..

@[simp] theorem clusterGetNext_disk (curr : Nat) :
    (clusterGetNext dev g v curr).1.disk = v.disk := by
  unfold clusterGetNext
  split
  · rfl
  · dsimp only
    split
    · rfl
    · split <;> exact breadSector_disk ..

@[simp] theorem readCluster_disk (file : File) (buf : Nat → UInt8) (total nbytes : Nat) :
    (readCluster dev g v file buf total nbytes).1.disk = v.disk := by
  unfold readCluster
  dsimp only
  split
  · rfl
  · split <;> rfl

/-- Moving the position without expanding the file. -/
theorem moveFilePos_disk {file : File} {n : Nat} {r : Volume × File × Int}
    (h : moveFilePos dev g fuel v file n false = some r) : r.1.disk = v.disk := by
  unfold moveFilePos at h
  simp only [Bool.false_eq_true, and_false, if_false] at h
  split at h
  · rw [← Option.some.inj h]
    exact clusterGetNext_disk ..
  · rw [← Option.some.inj h]

theorem fatfsReadLoop_disk {n : Nat} : ∀ {v : Volume} {file : File} {buf : Nat → UInt8}
    {total nbytes : Nat} {r : Volume × File × (Nat → UInt8) × Nat},
    fatfsReadLoop dev g fuel n v file buf total nbytes = some r → r.1.disk = v.disk := by
  induction n with
  | zero =>
    intro v file buf total nbytes r h
    rw [fatfsReadLoop] at h
    split at h
    · cases h
    · rw [← Option.some.inj h]
  | succ n ih =>
    intro v file buf total nbytes r h
    have hd := readCluster_disk dev g v file buf total nbytes
    rw [fatfsReadLoop] at h
    generalize readCluster dev g v file buf total nbytes = c at h hd
    split at h
    · dsimp only at h
      split at h
      · rw [← Option.some.inj h]
        exact hd
      · obtain ⟨m, hm, h⟩ := Option.bind_eq_some_iff.mp h
        have hmove := moveFilePos_disk dev g fuel c.1 hm
        split at h
        · rw [← Option.some.inj h]
          exact hmove.trans hd
        · exact (ih h).trans (hmove.trans hd)
    · rw [← Option.some.inj h]

/-- `fatfs_read` leaves the disk alone. -/
theorem fatfsRead_disk {buf : Nat → UInt8} {size : Nat} {file : File}
    {r : Volume × File × (Nat → UInt8) × Nat}
    (h : fatfsRead dev g fuel v buf size file = some r) : r.1.disk = v.disk :=
  fatfsReadLoop_disk dev g fuel h

theorem fatfsSeekLoop_disk {n : Nat} : ∀ {v : Volume} {c pos offset : Nat}
    {r : Volume × Option (Nat × Nat)},
    fatfsSeekLoop dev g n v c pos offset = some r → r.1.disk = v.disk := by
  induction n with
  | zero =>
    intro v c pos offset r h
    rw [fatfsSeekLoop] at h
    split at h
    · cases h
    · rw [← Option.some.inj h]
  | succ n ih =>
    intro v c pos offset r h
    rw [fatfsSeekLoop] at h
    split at h
    · dsimp only at h
      split at h
      · rw [← Option.some.inj h]
      · split at h
        · rw [← Option.some.inj h]
          exact clusterGetNext_disk ..
        · exact (ih h).trans (clusterGetNext_disk ..)
    · rw [← Option.some.inj h]

/-- `fatfs_seek` leaves the disk alone. -/
theorem fatfsSeek_disk {file : File} {offset : Nat} {dir : Int} {r : Volume × File × Int}
    (h : fatfsSeek dev g v file offset dir = some r) : r.1.disk = v.disk := by
  unfold fatfsSeek at h
  split at h
  · rw [← Option.some.inj h]
  · obtain ⟨x, hx, hr⟩ := Option.map_eq_some_iff.mp h
    have hd := fatfsSeekLoop_disk dev g hx
    rw [← hr]
    split <;> exact hd

end Reads

/-! ## Closing a file whose entry is up to date -/

section Close

variable {dev : Dev} {g : Fat} {v : Volume} {file : File}

/-- The sector of the directory that holds the entry of a file. -/
def entrySector (g : Fat) (file : File) : Nat :=
  g.rootStart + file.pIndex.toNat * diritemSize / g.bytesPerSec

/-- The place of the entry in its sector. -/
def entryOffset (g : Fat) (file : File) : Nat :=
  file.pIndex.toNat * diritemSize % g.bytesPerSec

/-- `fat_buffer` once `bread_sector` has it. -/
def sectorBuffer (v : Volume) (sector : Nat) : Nat → UInt8 :=
  if (sector : Int) = v.currSector then v.fatBuffer
  else copyTo v.fatBuffer 0 sectorSize fun i => v.disk (sector * sectorSize + i)

/-- The entry of `file` has the size and the first cluster that the `file_t`
has, and the cache holds its sector, if it does, as it is on the disk. -/
structure EntryStands (g : Fat) (v : Volume) (file : File) : Prop where
  onDisk : ∀ i < sectorSize, sectorBuffer v (entrySector g file) i =
    v.disk (entrySector g file * sectorSize + i)
  size : le32 (sectorBuffer v (entrySector g file)) (entryOffset g file + 28) = file.size
  high : le16 (sectorBuffer v (entrySector g file)) (entryOffset g file + 20) = file.sblk / 65536
  low : le16 (sectorBuffer v (entrySector g file)) (entryOffset g file + 26) = file.sblk % 65536

instance (g : Fat) (v : Volume) (file : File) : Decidable (EntryStands g v file) :=
  decidable_of_iff (_ ∧ _ ∧ _ ∧ _)
    ⟨fun ⟨h₁, h₂, h₃, h₄⟩ => ⟨h₁, h₂, h₃, h₄⟩, fun h => ⟨h.onDisk, h.size, h.high, h.low⟩⟩

/-- `bread_sector` fails, or the buffer holds the sector. -/
theorem breadSector_cases (dev : Dev) (v : Volume) (sector : Nat) :
    (breadSector dev v sector).2 = -1 ∨
      breadSector dev v sector =
        ({ (breadSector dev v sector).1 with
            currSector := sector, fatBuffer := sectorBuffer v sector }, 0) := by
  unfold breadSector sectorBuffer
  split
  next h => exact .inr (by rw [h])
  · dsimp only [devReadBuffer, devRead]
    split
    next h => exact .inr (by simp [h])
    · exact .inl rfl

/-- The entry is written as it was read. -/
theorem putEntry_eq {b : Nat → UInt8} {p : Nat} {file : File} (hsize : le32 b (p + 28) = file.size)
    (hhigh : le16 b (p + 20) = file.sblk / 65536) (hlow : le16 b (p + 26) = file.sblk % 65536) :
    put16 (put16 (put32 b (p + 28) file.size) (p + 20) (file.sblk / 65536)) (p + 26)
      (file.sblk % 65536) = b := by
  rw [← hsize, ← hhigh, ← hlow, put32_le32, put16_le16, put16_le16]

/-- A sector written back as the disk has it. -/
theorem bwriteSector_disk {sector : Nat}
    (h : ∀ i < sectorSize, v.fatBuffer i = v.disk (sector * sectorSize + i)) :
    (bwriteSector dev v sector).1.disk = v.disk := by
  show copyTo v.disk (sector * sectorSize) (min (dev v.calls 1).toNat 1 * sectorSize) v.fatBuffer
    = v.disk
  funext a
  unfold copyTo
  split
  next ha =>
    have hle : min (dev v.calls 1).toNat 1 * sectorSize ≤ 1 * sectorSize :=
      Nat.mul_le_mul_right _ (Nat.min_le_right ..)
    rw [h _ (by omega), Nat.add_sub_cancel' ha.1]
  · rfl

/-- An entry written back as the buffer has it, its sector being cached. -/
theorem writeDirEntry_disk (h₀ : 0 ≤ file.pIndex) (h₁ : file.pIndex < g.rootEntCnt)
    (hc : v.currSector = entrySector g file)
    (h : ∀ i < sectorSize,
      v.fatBuffer i = v.disk (entrySector g file * sectorSize + i)) :
    (writeDirEntry dev g v (itemAt v (entryOffset g file)) file.pIndex).1.disk = v.disk := by
  have hin : ¬(file.pIndex < 0 ∨ file.pIndex ≥ g.rootEntCnt) := by omega
  have hb : breadSector dev v (g.rootStart + file.pIndex.toNat * diritemSize / g.bytesPerSec) =
    (v, 0) := if_pos hc.symm
  have hself : copyTo v.fatBuffer (file.pIndex.toNat * diritemSize % g.bytesPerSec) diritemSize
    (itemAt v (entryOffset g file)) = v.fatBuffer := copyTo_self
  unfold writeDirEntry
  rw [if_neg hin]
  dsimp only
  rw [hb]
  dsimp only
  rw [if_neg (by decide), hself]
  exact bwriteSector_disk h

/-- Closing a file whose entry stands, or that has none, leaves the disk
alone. -/
theorem fatfsClose_disk
    (h : 0 ≤ file.pIndex → file.pIndex < g.rootEntCnt → EntryStands g v file) :
    (fatfsClose dev g v file).disk = v.disk := by
  have hro : ¬file.mode &&& oRdonly ≠ 0 := by simp [oRdonly]
  unfold fatfsClose
  rw [if_neg hro]
  by_cases hout : file.pIndex < 0 ∨ file.pIndex ≥ g.rootEntCnt
  · rw [readDirEntry, if_pos hout]
  have h₀ : 0 ≤ file.pIndex := by omega
  have h₁ : file.pIndex < g.rootEntCnt := by omega
  have hs := h h₀ h₁
  have hr : readDirEntry dev g v file.pIndex =
      if (breadSector dev v (entrySector g file)).2 < 0 then
        ((breadSector dev v (entrySector g file)).1, none)
      else ((breadSector dev v (entrySector g file)).1, some (entryOffset g file)) := by
    rw [readDirEntry, if_neg hout]
    rfl
  have hd : (breadSector dev v (entrySector g file)).1.disk = v.disk := breadSector_disk ..
  rw [hr]
  rcases breadSector_cases dev v (entrySector g file) with hb | hb
  · rw [hb, if_pos (by decide)]
    exact hd
  · generalize breadSector dev v (entrySector g file) = r at hb hd
    rw [hb]
    dsimp only
    rw [if_neg (by decide)]
    dsimp only
    rw [putEntry_eq hs.size hs.high hs.low]
    refine (writeDirEntry_disk h₀ h₁ rfl fun i hi => ?_).trans hd
    dsimp only
    rw [hd]
    exact hs.onDisk i hi

/-- What the buffer holds of the entry `i` is the entry of the image. -/
theorem sectorBuffer_entry {im : Image} {i : Nat} (hg : g.Ok) (h : Shows g v im)
    (hi : i < g.rootEntCnt) :
    (∀ k < 512, sectorBuffer v (g.rootStart + i * 32 / 512) k =
        v.disk ((g.rootStart + i * 32 / 512) * 512 + k)) ∧
      ∀ j < 32, sectorBuffer v (g.rootStart + i * 32 / 512) (i * 32 % 512 + j) = im.dir i j := by
  obtain ⟨-, haddr, hoff⟩ := item_address hg hi
  have hdisk : ∀ k < 512, sectorBuffer v (g.rootStart + i * 32 / 512) k =
      v.disk ((g.rootStart + i * 32 / 512) * 512 + k) := by
    intro k hk
    unfold sectorBuffer
    split
    next hc => exact (h.coherent _ hc.symm).2 k hk
    · exact copyTo_zero_of_lt hk
  refine ⟨hdisk, fun j hj => ?_⟩
  rw [hdisk _ (by omega), ← h.image_eq]
  simp only [image, hi, hj, and_self, if_true]
  rw [← Nat.add_assoc, haddr]

/-- On a working device the close keeps the disk only when the entry stands:
the condition is exact. -/
theorem fatfsClose_disk_iff {im : Image} {i : Nat} (hw : Works dev) (hg : g.Ok)
    (h : Shows g v im) (hp : file.pIndex = i) (hi : i < g.rootEntCnt)
    (hsize : file.size < 4294967296) (hsblk : file.sblk < 4294967296) :
    (fatfsClose dev g v file).disk = v.disk ↔ EntryStands g v file := by
  obtain ⟨hdisk, hentry⟩ := sectorBuffer_entry hg h hi
  have hsector : entrySector g file = g.rootStart + i * 32 / 512 := by
    rw [entrySector, hp, hg.bytesPerSec, diritemSize, Int.toNat_natCast]
  have hoffset : entryOffset g file = i * 32 % 512 := by
    rw [entryOffset, hp, hg.bytesPerSec, diritemSize, Int.toNat_natCast]
  constructor
  · intro hd
    have hshows := (fatfsClose_shows hw hg h hp hi).image_eq
    rw [hd, h.image_eq] at hshows
    have hag : (im.dir i).Agree (closedItem (im.dir i) file) := by
      have := setItem_agree im i (closedItem (im.dir i) file)
      rwa [← hshows] at this
    refine ⟨?_, ?_, ?_, ?_⟩
    · rw [hsector]
      exact hdisk
    · rw [hsector, hoffset, ← closedItem_fileSize (im.dir i) file hsize, ← hag.fileSize]
      refine le32_congr fun j hj => ?_
      rw [Nat.add_assoc, hentry _ (by omega)]
    · have hhi : (im.dir i).fstClusHI = file.sblk / 65536 := by
        rw [hag.fstClusHI, closedItem_fstClusHI, Nat.mod_eq_of_lt (by omega)]
      rw [hsector, hoffset, ← hhi]
      refine le16_congr (hentry 20 (by decide)) ?_
      rw [Nat.add_assoc, hentry _ (by decide)]
    · rw [hsector, hoffset, ← closedItem_fstClusL0 (im.dir i) file, ← hag.fstClusL0]
      refine le16_congr (hentry 26 (by decide)) ?_
      rw [Nat.add_assoc, hentry _ (by decide)]
  · exact fun hs => fatfsClose_disk fun _ _ => hs

end Close

/-! ## Calls through a read-only descriptor -/

section Calls

variable {dev : Dev} {g : Fat} {fuel : Nat} {s s' : SysFs}

/-- `fd` of `t` refers to a file of the volume opened with `O_RDONLY`. -/
def SysFs.ReadOnly (s : SysFs) (t : TaskId) (fd : Int) : Prop :=
  ∃ file, s.fileOf t fd = some file ∧ file.mode = oRdonly

instance (s : SysFs) (t : TaskId) (fd : Int) : Decidable (s.ReadOnly t fd) :=
  decidable_of_iff ((s.fileOf t fd).any fun file => file.mode = oRdonly)
    (by simp [SysFs.ReadOnly, Option.any_eq_true])

/-- A call on a read-only descriptor. -/
def ReadOnlyCall (s : SysFs) : SysEvent → Prop
  | .sysRead t fd _ => s.ReadOnly t fd
  | .sysWrite t fd _ => s.ReadOnly t fd
  | .sysLseek t fd _ _ => s.ReadOnly t fd
  | .sysClose t fd => s.ReadOnly t fd
  | .sysExitFd t fd => s.ReadOnly t fd
  | _ => False

/-- When `fd` is read-only and the last descriptor of its file, the entry of
the file, if it has one, stands. -/
def CloseKeeps (g : Fat) (s : SysFs) (t : TaskId) (fd : Int) : Prop :=
  ∀ i file, s.slotOf t fd = some i → s.fat.files i = some file → file.mode = oRdonly →
    s.desc.ref i = 1 → 0 ≤ file.pIndex → file.pIndex < g.rootEntCnt →
      EntryStands g s.fat.vol file

instance (g : Fat) (s : SysFs) (t : TaskId) (fd : Int) : Decidable (CloseKeeps g s t fd) :=
  match hi : s.slotOf t fd with
  | none => isTrue fun i _ h => by simp [hi] at h
  | some i =>
    match hf : s.fat.files i with
    | none => isTrue fun j _ hj h => by simp_all
    | some file =>
      decidable_of_iff (file.mode = oRdonly → s.desc.ref i = 1 → 0 ≤ file.pIndex →
          file.pIndex < g.rootEntCnt → EntryStands g s.fat.vol file)
        ⟨fun h j f hj hfj => by simp_all, fun h => h i file hi hf⟩

/-- A call that meets this does not reach the two tests of the mode that
fail: nothing is written to a read-only descriptor, and it is closed while
the entry of its file stands. -/
def ReadOnlyKeeps (g : Fat) (s : SysFs) : SysEvent → Prop
  | .sysWrite t fd buf => s.ReadOnly t fd → buf = []
  | .sysClose t fd => CloseKeeps g s t fd
  | .sysExitFd t fd => CloseKeeps g s t fd
  | _ => True

instance (g : Fat) (s : SysFs) : ∀ e, Decidable (ReadOnlyKeeps g s e)
  | .sysWrite t fd buf => inferInstanceAs (Decidable (s.ReadOnly t fd → buf = []))
  | .sysClose t fd => inferInstanceAs (Decidable (CloseKeeps g s t fd))
  | .sysExitFd t fd => inferInstanceAs (Decidable (CloseKeeps g s t fd))
  | .sysOpen .. | .sysOpenDev .. | .sysRead .. | .sysLseek .. | .sysDup .. | .sysFork ..
  | .sysExit .. | .sysUnlink .. => isTrue trivial

/-- The slot and the file behind a read-only descriptor. -/
theorem SysFs.ReadOnly.cases {t : TaskId} {fd : Int} (h : s.ReadOnly t fd) :
    ∃ i file, s.slotOf t fd = some i ∧ s.fat.files i = some file ∧ file.mode = oRdonly := by
  obtain ⟨file, hf, hm⟩ := h
  obtain ⟨i, hi, hfile⟩ := Option.bind_eq_some_iff.mp hf
  exact ⟨i, file, hi, hfile, hm⟩

theorem closeFat_disk {t : TaskId} {fd : Int} {i : Nat} {file : File}
    (hk : CloseKeeps g s t fd) (hi : s.slotOf t fd = some i) (hf : s.fat.files i = some file)
    (hm : file.mode = oRdonly) : (closeFat dev g s i).vol.disk = s.fat.vol.disk := by
  unfold closeFat
  split
  next hr =>
    rw [hf]
    exact fatfsClose_disk (hk i file hi hf hm hr)
  · rfl

theorem sysCloseFile_disk {t : TaskId} {fd : Int} (hro : s.ReadOnly t fd)
    (hk : CloseKeeps g s t fd) (h : sysCloseFile dev g s t fd = some s') :
    s'.fat.vol.disk = s.fat.vol.disk := by
  obtain ⟨i, file, hi, hf, hm⟩ := hro.cases
  rw [sysCloseFile, hi] at h
  obtain ⟨r, -, hr⟩ := Option.map_eq_some_iff.mp h
  rw [← hr]
  exact closeFat_disk hk hi hf hm

/-- One call on a read-only descriptor. -/
theorem sysStep_disk {e : SysEvent} (hro : ReadOnlyCall s e) (hk : ReadOnlyKeeps g s e)
    (h : sysStep dev g fuel s e = some s') : s'.fat.vol.disk = s.fat.vol.disk := by
  unfold sysStep at h
  split at h
  swap
  · cases h
  cases e with
  | sysRead t fd len =>
    obtain ⟨i, file, hi, hf, -⟩ := SysFs.ReadOnly.cases hro
    simp only [sysCall, sysReadFile, hi, hf] at h
    split at h
    · rw [← Option.some.inj h]
    · obtain ⟨r, hr, h⟩ := Option.map_eq_some_iff.mp h
      rw [← h]
      exact fatfsRead_disk dev g fuel _ hr
  | sysWrite t fd buf =>
    obtain ⟨i, file, hi, hf, -⟩ := SysFs.ReadOnly.cases hro
    simp only [sysCall, sysWriteFile, hi, hf, hk hro, if_true] at h
    rw [← Option.some.inj h]
  | sysLseek t fd ptr dir =>
    obtain ⟨i, file, hi, hf, -⟩ := SysFs.ReadOnly.cases hro
    simp only [sysCall, sysLseekFile, hi, hf] at h
    obtain ⟨r, hr, h⟩ := Option.map_eq_some_iff.mp h
    rw [← h]
    exact fatfsSeek_disk dev g _ hr
  | sysClose t fd => exact sysCloseFile_disk hro hk h
  | sysExitFd t fd =>
    simp only [sysCall] at h
    split at h
    · unfold sysExitFd at h
      split at h
      · rw [← Option.some.inj h]
      · obtain ⟨r, hr, h⟩ := Option.map_eq_some_iff.mp h
        have hd : r.fat.vol.disk = s.fat.vol.disk := sysCloseFile_disk hro hk hr
        rw [← h]
        exact hd
    · cases h
  | _ => exact hro.elim

/-- In every run whose calls all meet `ReadOnlyKeeps`, in any order and by any
tasks, no call on a read-only descriptor changes a byte of the disk. -/
theorem read_only_calls_keep_disk {es : List SysEvent}
    (h : Along (sysStep dev g fuel) (ReadOnlyKeeps g) s es) :
    Along (sysStep dev g fuel)
      (fun s e => ReadOnlyCall s e → ∀ s', sysStep dev g fuel s e = some s' →
        s'.fat.vol.disk = s.fat.vol.disk) s es :=
  h.mono fun _ _ hk hro _ hs => sysStep_disk hro hk hs

end Calls

/-- A file written and closed, then read, searched and closed through a
read-only descriptor. -/
def readerRun : List SysEvent :=
  [.sysOpen .first [97] (oCreat ||| oWronly), .sysWrite .first 0 [1, 2, 3], .sysClose .first 0,
    .sysOpen .first [97] oRdonly, .sysRead .first 1 2, .sysLseek .first 1 1 0,
    .sysClose .first 1]

/-- The calls of `readerRun` succeed, and those of the reader keep the disk. -/
theorem read_only_calls_keep_disk_reader :
    (run (sysStep idealDev tinyFat 65537) (sysInit blankFs) readerRun).isSome = true ∧
      Along (sysStep idealDev tinyFat 65537)
        (fun s e => ReadOnlyCall s e → ∀ s', sysStep idealDev tinyFat 65537 s e = some s' →
          s'.fat.vol.disk = s.fat.vol.disk) (sysInit blankFs) readerRun :=
  ⟨by decide +kernel, read_only_calls_keep_disk (by decide +kernel)⟩

/-- A file made by a writer and opened by a reader before the writer writes
and closes it. -/
def staleReaderRun : List SysEvent :=
  [.sysOpen .first [97] (oCreat ||| oWronly), .sysOpen .first [97] oRdonly,
    .sysWrite .first 0 [1, 2, 3], .sysClose .first 0]

/-- The reader of `staleReaderRun` closes: the size that the writer left in
the entry is lost. -/
theorem late_reader_undoes_write :
    ∃ s s', run (sysStep idealDev tinyFat 65537) (sysInit blankFs) staleReaderRun = some s ∧
      ReadOnlyCall s (.sysClose .first 1) ∧
      sysStep idealDev tinyFat 65537 s (.sysClose .first 1) = some s' ∧
      (dirOf tinyFat s.fat 0).fileSize = 3 ∧ (dirOf tinyFat s.fat 0).fstClusL0 = 2 ∧
      (dirOf tinyFat s'.fat 0).fileSize = 0 ∧ (dirOf tinyFat s'.fat 0).fstClusL0 = 65528 := by
  have h : (run (sysStep idealDev tinyFat 65537) (sysInit blankFs) staleReaderRun).any (fun s =>
      decide (s.ReadOnly .first 1 ∧ (dirOf tinyFat s.fat 0).fileSize = 3 ∧
        (dirOf tinyFat s.fat 0).fstClusL0 = 2) &&
      (sysStep idealDev tinyFat 65537 s (.sysClose .first 1)).any fun s' =>
        decide ((dirOf tinyFat s'.fat 0).fileSize = 0 ∧
          (dirOf tinyFat s'.fat 0).fstClusL0 = 65528)) = true := by
    decide +kernel
  obtain ⟨s, hs, h⟩ := (Option.any_eq_true ..).mp h
  rw [Bool.and_eq_true, decide_eq_true_iff] at h
  obtain ⟨⟨hro, hsize, hfirst⟩, h⟩ := h
  obtain ⟨s', hs', h⟩ := (Option.any_eq_true ..).mp h
  exact ⟨s, s', hs, hro, hs', hsize, hfirst, of_decide_eq_true h⟩

end Wjos
