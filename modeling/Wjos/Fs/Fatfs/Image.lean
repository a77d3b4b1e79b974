/-
Wjos.Fs.Fatfs.Image — what a volume says, apart from how it is stored.

An `Image` has a table entry for every cluster, the directory entries and the
bytes of every cluster. `image g disk` reads it off the disk, and
`Shows g v im` relates a volume to its image: the disk reads as `im`
and the sector cache agrees with the disk. The theorems `…_shows` are the
simulation: on a working device each access function of `Volume.lean` does to
the image what its name says, whatever the cache held.

A cluster outside the table has the entry `FAT_CLUSTER_INVALID`, which is
what `cluster_get_next` answers for it.
-/
import Mathlib.Logic.Function.Basic
import Wjos.Fs.Fatfs.Fatfs

namespace Wjos

open Lib

/-- Every call transfers what it is asked for. -/
def Works (dev : Dev) : Prop := ∀ k n, dev k n = n

/-- What `fatfs_mount` computes for a volume with 512-byte sectors, two
tables, a cluster of at most 4096 bytes and a root directory that fills whole
sectors. The last three fields are the widths in the boot sector. -/
structure Fat.Ok (g : Fat) : Prop where
  bytesPerSec : g.bytesPerSec = 512
  tblCnt : g.tblCnt = 2
  secPerCluster : ∃ k ≤ 3, g.secPerCluster = 2 ^ k
  clusterByteSize : g.clusterByteSize = g.secPerCluster * 512
  rootStart : g.rootStart = g.tblStart + g.tblSectors * 2
  rootWhole : g.rootEntCnt % 16 = 0
  dataStart : g.dataStart = g.rootStart + g.rootEntCnt / 16
  tblStart_lt : g.tblStart < 65536
  tblSectors_lt : g.tblSectors < 65536
  rootEntCnt_lt : g.rootEntCnt < 65536

/-- `curr_sector` is a table or directory sector, held in `fat_buffer` as it
is on the disk, or it is no sector. -/
def Coherent (g : Fat) (v : Volume) : Prop :=
  ∀ s : Nat, v.currSector = s →
    s < g.dataStart ∧ ∀ i < 512, v.fatBuffer i = v.disk (s * 512 + i)

/-- A cluster with an entry in the table. -/
def InTable (g : Fat) (c : Nat) : Prop := clusterIsValid c ∧ c < g.cTotal

instance (g : Fat) (c : Nat) : Decidable (InTable g c) := by
  unfold InTable
  infer_instance

structure Image where
  fat : Nat → Nat
  dir : Nat → DirItem
  data : Nat → Nat → UInt8

/-- The image on a disk. -/
def image (g : Fat) (disk : Nat → UInt8) : Image where
  fat c := if InTable g c then le16 disk (g.tblStart * 512 + c * 2) else fatClusterInvalid
  dir i j := if i < g.rootEntCnt ∧ j < 32 then disk (g.rootStart * 512 + i * 32 + j) else 0
  data c o :=
    if 2 ≤ c ∧ o < g.clusterByteSize then
      disk (g.dataStart * 512 + (c - 2) * g.clusterByteSize + o)
    else 0

/-- The volume `v` holds the image `im`. -/
structure Shows (g : Fat) (v : Volume) (im : Image) : Prop where
  image_eq : image g v.disk = im
  coherent : Coherent g v

/-- The table entry of `c` set to `x`. -/
def Image.setNext (g : Fat) (im : Image) (c x : Nat) : Image :=
  { im with fat := if InTable g c then Function.update im.fat c x else im.fat }

/-- The directory entry `i` replaced. -/
def Image.setItem (im : Image) (i : Nat) (item : DirItem) : Image :=
  { im with dir := Function.update im.dir i fun j => if j < 32 then item j else 0 }

/-- `n` bytes stored in cluster `c` from offset `o`. -/
def Image.setData (im : Image) (c o n : Nat) (src : Nat → UInt8) : Image :=
  { im with data := Function.update im.data c (copyTo (im.data c) o n src) }

@[simp] theorem setItem_fat (im : Image) (i : Nat) (item : DirItem) :
    (im.setItem i item).fat = im.fat := rfl

@[simp] theorem setItem_data (im : Image) (i : Nat) (item : DirItem) :
    (im.setItem i item).data = im.data := rfl

theorem setItem_dir_of_ne (im : Image) {i k : Nat} (h : k ≠ i) (item : DirItem) :
    (im.setItem i item).dir k = im.dir k := Function.update_of_ne h _ _

@[simp] theorem setData_fat (im : Image) (c o n : Nat) (src : Nat → UInt8) :
    (im.setData c o n src).fat = im.fat := rfl

@[simp] theorem setData_dir (im : Image) (c o n : Nat) (src : Nat → UInt8) :
    (im.setData c o n src).dir = im.dir := rfl

theorem clusterIsValid_iff {c : Nat} : clusterIsValid c = true ↔ 2 ≤ c ∧ c < 0xFFF8 := by
  simp [clusterIsValid, and_comm]

theorem clusterT_of_lt {c : Nat} (h : c < 65536) : clusterT c = c := Nat.mod_eq_of_lt h

theorem InTable.valid {g : Fat} {c : Nat} (h : InTable g c) : clusterIsValid c = true := h.1

theorem InTable.two_le {g : Fat} {c : Nat} (h : InTable g c) : 2 ≤ c :=
  (clusterIsValid_iff.mp h.1).1

theorem InTable.lt {g : Fat} {c : Nat} (h : InTable g c) : c < 0xFFF8 :=
  (clusterIsValid_iff.mp h.1).2

/-- A free cluster has an entry: the others read as invalid. -/
theorem inTable_of_fat_zero {g : Fat} {v : Volume} {im : Image} (h : Shows g v im) {c : Nat}
    (hc : im.fat c = 0) : InTable g c := by
  by_contra ht
  rw [← h.image_eq] at hc
  simp [image, ht, fatClusterInvalid] at hc

theorem fat_of_not_inTable {g : Fat} {v : Volume} {im : Image} (h : Shows g v im) {c : Nat}
    (hc : ¬InTable g c) : im.fat c = fatClusterInvalid := by
  rw [← h.image_eq]
  simp [image, hc]

theorem fat_lt {g : Fat} {v : Volume} {im : Image} (h : Shows g v im) (c : Nat) :
    im.fat c < 65536 := by
  rw [← h.image_eq]
  show (if InTable g c then le16 v.disk (g.tblStart * 512 + c * 2) else fatClusterInvalid) < 65536
  split
  · exact le16_lt _ _
  · decide

section Sectors

variable {s t a : Nat}

/-- A whole sector lies before a later one. -/
theorem sector_end_le (h : s < t) (ha : t * 512 ≤ a) : s * 512 + 512 ≤ a :=
  calc s * 512 + 512 = (s + 1) * 512 := (Nat.succ_mul s 512).symm
    _ ≤ t * 512 := Nat.mul_le_mul_right 512 h
    _ ≤ a := ha

theorem lt_sector (h : s ≤ t) (ha : a < s * 512) : a < t * 512 :=
  Nat.lt_of_lt_of_le ha (Nat.mul_le_mul_right 512 h)

end Sectors

section Geometry

variable {g : Fat}

theorem Fat.Ok.cTotal_eq (hg : g.Ok) : g.cTotal = g.tblSectors * 256 := by
  have h := hg.tblSectors_lt
  have hu : u32 ((g.tblSectors : Int) * (512 : Nat)) = g.tblSectors * 512 := by
    unfold u32
    omega
  rw [Fat.cTotal, hg.bytesPerSec, hu, clusterSize]
  omega

theorem Fat.Ok.clusterByteSize_pos (hg : g.Ok) : 0 < g.clusterByteSize := by
  obtain ⟨k, -, hk⟩ := hg.secPerCluster
  have h : 0 < g.secPerCluster := hk ▸ Nat.pow_pos (by decide)
  rw [hg.clusterByteSize]
  omega

theorem Fat.Ok.secPerCluster_le (hg : g.Ok) : g.secPerCluster ≤ 8 := by
  obtain ⟨k, hk, he⟩ := hg.secPerCluster
  rw [he]
  exact Nat.pow_le_pow_right (by decide) hk

theorem Fat.Ok.clusterByteSize_le (hg : g.Ok) : g.clusterByteSize ≤ 4096 := by
  have h := hg.secPerCluster_le
  rw [hg.clusterByteSize]
  omega

theorem Fat.Ok.dataStart_lt (hg : g.Ok) : g.dataStart < 2 ^ 18 := by
  have h₁ := hg.tblStart_lt
  have h₂ := hg.tblSectors_lt
  have h₃ := hg.rootEntCnt_lt
  rw [hg.dataStart, hg.rootStart]
  omega

end Geometry

/-! ## A small volume -/

/-- One table sector, sixteen directory entries, clusters of one sector. -/
def tinyFat : Fat where
  tblStart := 1
  tblCnt := 2
  tblSectors := 1
  bytesPerSec := 512
  secPerCluster := 1
  rootEntCnt := 16
  rootStart := 3
  dataStart := 4
  clusterByteSize := 512

theorem tinyFat_ok : tinyFat.Ok where
  bytesPerSec := rfl
  tblCnt := rfl
  secPerCluster := ⟨0, by decide, rfl⟩
  clusterByteSize := rfl
  rootStart := rfl
  rootWhole := rfl
  dataStart := rfl
  tblStart_lt := by decide
  tblSectors_lt := by decide
  rootEntCnt_lt := by decide

/-- A device without failures. -/
def idealDev : Dev := fun _ n => n

theorem idealDev_works : Works idealDev := fun _ _ => rfl

/-- A blank disk, nothing cached, no file open. -/
def blankFs : FatFs where
  vol := { disk := fun _ => 0, fatBuffer := fun _ => 0, currSector := -1, calls := 0,
           stack := fun _ => 0 }
  files := fun _ => none

theorem blankFs_coherent (g : Fat) : Coherent g blankFs.vol := fun s hs =>
  absurd hs (by simp only [blankFs]; omega)

/-! ## The sector cache -/

section Cache

variable {dev : Dev} {g : Fat} {v : Volume} {im : Image} {sector : Nat}

/-- A cached sector, as the disk has it. -/
structure Cached (g : Fat) (v : Volume) (sector : Nat) : Prop where
  curr : v.currSector = sector
  buffer : ∀ i < 512, v.fatBuffer i = v.disk (sector * 512 + i)

theorem breadSector_shows (hw : Works dev) (h : Shows g v im) (hs : sector < g.dataStart) :
    ∃ v', breadSector dev v sector = (v', 0) ∧ Shows g v' im ∧ Cached g v' sector ∧
      v'.disk = v.disk := by
  unfold breadSector
  by_cases hc : (sector : Int) = v.currSector
  · rw [if_pos hc]
    exact ⟨v, rfl, h, ⟨hc.symm, (h.coherent sector hc.symm).2⟩, rfl⟩
  · rw [if_neg hc]
    have hbuf : ∀ i < 512, copyTo v.fatBuffer 0 (min (Int.toNat 1) 1 * sectorSize)
        (fun i => v.disk (sector * sectorSize + i)) i = v.disk (sector * 512 + i) :=
      fun i hi => copyTo_zero_of_lt hi
    simp only [devReadBuffer, devRead, hw v.calls 1, Nat.cast_one, if_pos]
    refine ⟨_, rfl, ⟨h.image_eq, fun s hcs => ?_⟩, ⟨rfl, hbuf⟩, rfl⟩
    obtain rfl : sector = s := Int.ofNat.inj hcs
    exact ⟨hs, hbuf⟩

/-- A sector written from the buffer, in the tables or the directory: the
cache stays coherent. -/
theorem bwriteSector_eq (hw : Works dev) (sector : Nat) (v : Volume) :
    bwriteSector dev v sector =
      ({ v with
          disk := copyTo v.disk (sector * 512) 512 v.fatBuffer
          calls := v.calls + 1 }, 0) := by
  simp only [bwriteSector, devWrite, hw v.calls 1, Nat.cast_one, if_pos]
  rfl

end Cache

/-! ## Table entries -/

section Table

variable {dev : Dev} {g : Fat} {v : Volume} {im : Image} {c x : Nat}

/-- Where the entry of a cluster is. -/
theorem entry_address (hg : g.Ok) (hc : c < g.cTotal) :
    c * 2 / 512 < g.tblSectors ∧ g.tblStart + c * 2 / 512 < g.dataStart ∧
      (g.tblStart + c * 2 / 512) * 512 + c * 2 % 512 = g.tblStart * 512 + c * 2 ∧
      c * 2 % 512 + 1 < 512 := by
  rw [hg.cTotal_eq] at hc
  rw [hg.dataStart, hg.rootStart]
  omega

theorem clusterGetNext_shows (hw : Works dev) (hg : g.Ok) (h : Shows g v im) (c : Nat) :
    ∃ v', clusterGetNext dev g v c = (v', im.fat c) ∧ Shows g v' im := by
  unfold clusterGetNext
  rw [hg.bytesPerSec, clusterSize]
  by_cases hv : clusterIsValid c = false
  · have hn : ¬InTable g c := fun ht => by simp [ht.valid] at hv
    rw [if_pos hv, fat_of_not_inTable h hn]
    exact ⟨v, rfl, h⟩
  rw [if_neg hv]
  dsimp only
  by_cases hs : c * 2 / 512 ≥ g.tblSectors
  · have hn : ¬InTable g c := fun ht => by
      have := (entry_address hg ht.2).1
      omega
    rw [if_pos hs, fat_of_not_inTable h hn]
    exact ⟨v, rfl, h⟩
  · have ht : InTable g c := by
      refine ⟨by simpa using hv, ?_⟩
      rw [hg.cTotal_eq]
      omega
    obtain ⟨-, hlt, haddr, hoff⟩ := entry_address hg ht.2
    obtain ⟨v', hb, hsh, hca, hd⟩ := breadSector_shows hw h hlt
    have hval : le16 v'.fatBuffer (c * 2 % 512) = im.fat c := by
      have him : im.fat c = le16 v.disk (g.tblStart * 512 + c * 2) := by
        rw [← h.image_eq]
        simp [image, ht]
      rw [him, ← hd]
      exact le16_window hca.buffer hoff haddr
    rw [if_neg hs, hb]
    exact ⟨v', by rw [← hval]; rfl, hsh⟩

/-- Both copies of the table sector `s` written from the buffer. -/
theorem writeCopies_eq (hw : Works dev) (hg : g.Ok) (v : Volume) (s : Nat) :
    ∃ v', writeCopies dev g g.tblCnt v s = (v', 0) ∧ v'.currSector = v.currSector ∧
      v'.fatBuffer = v.fatBuffer ∧
      v'.disk = copyTo (copyTo v.disk ((g.tblStart + s) * 512) 512 v.fatBuffer)
        ((g.tblStart + (s + g.tblSectors)) * 512) 512 v.fatBuffer := by
  rw [hg.tblCnt]
  simp only [writeCopies, bwriteSector_eq hw]
  exact ⟨_, rfl, rfl, rfl, rfl⟩

/-- What writing both copies of a table sector does to the image: the
entries of that sector are those of the buffer. -/
theorem image_writeCopies (hg : g.Ok) {disk disk' buf : Nat → UInt8} (hx : x < 65536)
    (hc : InTable g c)
    (hbuf : ∀ i < 512, buf i = disk ((g.tblStart + c * 2 / 512) * 512 + i))
    (hd : disk' = copyTo (copyTo disk ((g.tblStart + c * 2 / 512) * 512) 512
        (put16 buf (c * 2 % 512) x))
      ((g.tblStart + (c * 2 / 512 + g.tblSectors)) * 512) 512 (put16 buf (c * 2 % 512) x)) :
    image g disk' = (image g disk).setNext g c x := by
  obtain ⟨hs, -, -, -⟩ := entry_address hg hc.2
  have hroot := hg.rootStart
  have hdata := hg.dataStart
  have hout : ∀ a, g.rootStart * 512 ≤ a → disk' a = disk a := fun a ha => by
    rw [hd, copyTo_of_ge (sector_end_le (by omega) ha),
      copyTo_of_ge (sector_end_le (by omega) ha)]
  have hfst : ∀ a, a < (g.tblStart + g.tblSectors) * 512 →
      disk' a = copyTo disk ((g.tblStart + c * 2 / 512) * 512) 512
        (put16 buf (c * 2 % 512) x) a := fun a ha => by
    rw [hd, copyTo_of_lt (lt_sector (by omega) ha)]
  have hfat : ∀ d, InTable g d → le16 disk' (g.tblStart * 512 + d * 2) =
      if d = c then x else le16 disk (g.tblStart * 512 + d * 2) := fun d hdt => by
    obtain ⟨hds, -, hda, hdo⟩ := entry_address hg hdt.2
    by_cases hsame : d * 2 / 512 = c * 2 / 512
    · have hwin : ∀ i < 512, put16 buf (c * 2 % 512) x i =
          disk' ((g.tblStart + c * 2 / 512) * 512 + i) := fun i hi => by
        rw [hfst _ (by omega), copyTo_add hi]
      rw [hsame] at hda
      rw [← le16_window hwin hdo hda]
      by_cases hdc : d = c
      · rw [if_pos hdc, hdc, le16_put16, Nat.mod_eq_of_lt hx]
      · rw [if_neg hdc, le16_put16_of_ne (by omega)]
        exact le16_window hbuf hdo hda
    · have hdc : d ≠ c := fun he => hsame (by rw [he])
      rw [if_neg hdc]
      have hkeep : ∀ a, a < (g.tblStart + g.tblSectors) * 512 →
          a < (g.tblStart + c * 2 / 512) * 512 ∨ (g.tblStart + c * 2 / 512) * 512 + 512 ≤ a →
          disk' a = disk a := fun a ha hor => by
        rw [hfst a ha]
        exact hor.elim copyTo_of_lt copyTo_of_ge
      have h₀ := hkeep (g.tblStart * 512 + d * 2) (by omega) (by omega)
      have h₁ := hkeep (g.tblStart * 512 + d * 2 + 1) (by omega) (by omega)
      exact le16_congr h₀ h₁
  unfold Image.setNext
  rw [if_pos hc]
  have h₁ : (image g disk').fat = Function.update (image g disk).fat c x := by
    funext d
    by_cases hdt : InTable g d
    · have hd' := hfat d hdt
      rw [Function.update_apply]
      simpa [image, hdt] using hd'
    · have hne : d ≠ c := fun he => hdt (he ▸ hc)
      rw [Function.update_of_ne hne]
      simp [image, hdt]
  have h₂ : (image g disk').dir = (image g disk).dir := by
    funext i j
    simp only [image]
    split
    · exact hout _ (by omega)
    · rfl
  have h₃ : (image g disk').data = (image g disk).data := by
    funext d o
    simp only [image]
    split
    · exact hout _ (by omega)
    · rfl
  rw [← h₁, ← h₂, ← h₃]

theorem clusterSetNext_shows (hw : Works dev) (hg : g.Ok) (h : Shows g v im) (c : Nat)
    (hx : x < 65536) :
    ∃ v' err, clusterSetNext dev g v c x = (v', err) ∧ Shows g v' (im.setNext g c x) ∧
      (err < 0 ↔ clusterIsValid c = false) ∧ (InTable g c → err = 0) := by
  unfold clusterSetNext
  rw [hg.bytesPerSec, clusterSize]
  by_cases hv : clusterIsValid c = false
  · have hn : ¬InTable g c := fun ht => by simp [ht.valid] at hv
    refine ⟨v, -1, if_pos hv, ?_, by simp [hv], fun ht => absurd ht hn⟩
    rw [Image.setNext, if_neg hn]
    exact h
  rw [if_neg hv]
  dsimp only
  by_cases hs : c * 2 / 512 ≥ g.tblSectors
  · have hn : ¬InTable g c := fun ht => by
      have := (entry_address hg ht.2).1
      omega
    refine ⟨v, fatClusterInvalid, if_pos hs, ?_, ?_, fun ht => absurd ht hn⟩
    · rw [Image.setNext, if_neg hn]
      exact h
    · simp [hv, fatClusterInvalid]
  · have ht : InTable g c := by
      refine ⟨by simpa using hv, ?_⟩
      rw [hg.cTotal_eq]
      omega
    obtain ⟨hsec, hlt, -, -⟩ := entry_address hg ht.2
    obtain ⟨v₁, hb, hsh, hca, hd⟩ := breadSector_shows hw h hlt
    rw [if_neg hs, hb]
    dsimp only
    rw [if_neg (by decide)]
    obtain ⟨v₂, hwr, hcs, hbu, hdi⟩ := writeCopies_eq hw hg
      { v₁ with fatBuffer := put16 v₁.fatBuffer (c * 2 % 512) x } (c * 2 / 512)
    refine ⟨v₂, 0, hwr, ⟨?_, fun s hs' => ?_⟩, by simp [hv], fun _ => rfl⟩
    · rw [image_writeCopies hg hx ht hca.buffer hdi, hsh.image_eq]
    · have hse : g.tblStart + c * 2 / 512 = s :=
        Int.ofNat.inj ((hca.curr.symm.trans hcs.symm).trans hs')
      refine ⟨hse ▸ hlt, fun i hi => ?_⟩
      rw [hdi, copyTo_of_lt (by omega), copyTo_of_mem (by omega) (by omega), hbu]
      congr 1
      omega

end Table

end Wjos
