/-
Wjos.Fs.Fatfs.Mount — which volumes `fatfs_mount` accepts.

`fatfsMountCall` is the whole call over what the functions it calls answer;
`fatfsMount` of the table module is its test of the boot sector. The label
`mount_failed` ends the function without a `return`, so there a caller reads
no value at all: `ret` is `none`.

The call tests the number of tables and the type string. Every other field
goes into the geometry as it is, and `fatfs_mount_iff` says for which boot
sectors that geometry can be used: sectors of the device's own size, a
cluster of 1, 2, 4 or 8 of them, and a root directory of whole sectors.
`data_start` rounds the directory down, so one entry too many already puts
the first data sector into the directory.
-/
import Mathlib
import Wjos.Core.AddrAlloc
import Wjos.Fs.Fatfs.Table

namespace Wjos

open Lib

/-! ## The call -/

/-- What the functions that `fatfs_mount` calls return. -/
structure MountEnv where
  devOpen : Int
  allocPage : UInt32
  devRead : Int

/-- What `fatfs_mount` leaves: `ret` is `none` where it returns no value. -/
structure MountResult where
  ret : Option Int
  fat : Option Fat
  freed : Bool
  closed : Bool
  deriving DecidableEq

/-- The label `mount_failed`; `page` is the buffer. -/
def mountFailed (page : UInt32) : MountResult where
  ret := none
  fat := none
  freed := page ≠ 0
  closed := true

/-- `fatfs_mount`; `dbr` is what the device holds in sector 0. -/
def fatfsMountCall (env : MountEnv) (dbr : Nat → UInt8) : MountResult :=
  if env.devOpen < 0 then { ret := some (-1), fat := none, freed := false, closed := false }
  else if env.allocPage = 0 then mountFailed env.allocPage
  else if env.devRead < 1 then mountFailed env.allocPage
  else
    match fatfsMount dbr with
    | none => mountFailed env.allocPage
    | some g => { ret := some 0, fat := some g, freed := false, closed := false }

/-- A call that does not mount gives back the device and the page it took. -/
theorem fatfsMountCall_gives_back {env : MountEnv} {dbr : Nat → UInt8}
    (h : (fatfsMountCall env dbr).ret ≠ some 0) (hopen : 0 ≤ env.devOpen) :
    (fatfsMountCall env dbr).closed = true ∧
      ((fatfsMountCall env dbr).freed = true ↔ env.allocPage ≠ 0) := by
  unfold fatfsMountCall at h ⊢
  rw [if_neg (by omega)] at h ⊢
  split
  · simp [mountFailed]
  next hpage =>
    rw [if_neg hpage] at h
    split
    · simp [mountFailed]
    next hread =>
      rw [if_neg hread] at h
      cases hm : fatfsMount dbr with
      | none => simp [mountFailed]
      | some g => simp [hm] at h

/-! ## The regions of a volume -/

inductive Region where
  | table (k : Nat)
  | root
  | data
  deriving DecidableEq, Repr

/-- The sectors of a region: those of a copy of the table, those that hold a
directory entry, and all from `data_start` on. -/
def Fat.sectors (g : Fat) : Region → Set Nat
  | .table k =>
    {s | k < g.tblCnt ∧ g.tblStart + k * g.tblSectors ≤ s ∧
      s < g.tblStart + (k + 1) * g.tblSectors}
  | .root => {s | ∃ i < g.rootEntCnt, s = g.rootStart + i * diritemSize / g.bytesPerSec}
  | .data => {s | g.dataStart ≤ s}

/-- A geometry that the operations can be run on. -/
structure UsableGeometry (g : Fat) : Prop where
  bytesPerSec : g.bytesPerSec ≠ 0
  secPerCluster : g.secPerCluster ≠ 0
  powerOfTwo : g.clusterByteSize.isPowerOfTwo
  cluster_le : g.clusterByteSize ≤ memPageSize.toNat
  dirSector : g.bytesPerSec = sectorSize
  disjoint : ∀ r r', r ≠ r' → Disjoint (g.sectors r) (g.sectors r')

/-- `fatfs_mount` returns 0 on usable geometry only, and a negative value
where it does not return 0. -/
def MountSound (env : MountEnv) (dbr : Nat → UInt8) : Prop :=
  ((fatfsMountCall env dbr).ret = some 0 →
    ∃ g, (fatfsMountCall env dbr).fat = some g ∧ UsableGeometry g) ∧
  ((fatfsMountCall env dbr).ret ≠ some 0 → ∃ r < 0, (fatfsMountCall env dbr).ret = some r)

/-- A boot sector that passes both tests and has sectors of 512 bytes, one,
two, four or eight to a cluster, and a directory of whole sectors. -/
structure PlainBootSector (dbr : Nat → UInt8) : Prop where
  numFats : (dbr 16).toNat = 2
  fileSysType : (List.range 5).map (fun i => dbr (54 + i)) = fat16Name
  bytesPerSec : le16 dbr 11 = 512
  secPerClus : (dbr 13).toNat = 1 ∨ (dbr 13).toNat = 2 ∨ (dbr 13).toNat = 4 ∨ (dbr 13).toNat = 8
  rootEntCnt : le16 dbr 17 % 16 = 0

/-! ## The geometry of an accepted boot sector -/

/-- What `fatfs_mount` takes from the boot sector. -/
structure MountedFrom (dbr : Nat → UInt8) (g : Fat) : Prop where
  bytesPerSec : g.bytesPerSec = le16 dbr 11
  secPerCluster : g.secPerCluster = (dbr 13).toNat
  rootEntCnt : g.rootEntCnt = le16 dbr 17
  tblCnt : g.tblCnt = 2
  clusterByteSize : g.clusterByteSize = g.secPerCluster * g.bytesPerSec
  rootStart : g.rootStart = g.tblStart + g.tblSectors * 2
  dataStart : g.dataStart = g.rootStart + g.rootEntCnt * 32 / 512

theorem fatfsMount_eq_some {dbr : Nat → UInt8} {g : Fat} (h : fatfsMount dbr = some g) :
    MountedFrom dbr g ∧ (dbr 16).toNat = 2 ∧
      (List.range 5).map (fun i => dbr (54 + i)) = fat16Name := by
  simp only [fatfsMount] at h
  split at h
  · exact absurd h (by simp)
  next hcnt =>
    split at h
    · exact absurd h (by simp)
    next hname =>
      obtain rfl := Option.some.inj h
      have hcnt := not_not.mp hcnt
      exact ⟨⟨rfl, rfl, rfl, hcnt, rfl, by rw [hcnt], rfl⟩, hcnt, not_not.mp hname⟩

theorem fatfsMount_of_tests {dbr : Nat → UInt8} (hcnt : (dbr 16).toNat = 2)
    (hname : (List.range 5).map (fun i => dbr (54 + i)) = fat16Name) :
    ∃ g, fatfsMount dbr = some g := by
  simp only [fatfsMount]
  rw [if_neg (not_not.mpr hcnt), if_neg (not_not.mpr hname)]
  exact ⟨_, rfl⟩

/-- A power of two below the page, in sectors. -/
theorem isPowerOfTwo_sectors {n : Nat} :
    ((n * 512).isPowerOfTwo ∧ n * 512 ≤ 4096) ↔ n = 1 ∨ n = 2 ∨ n = 4 ∨ n = 8 := by
  constructor
  · rintro ⟨⟨k, hk⟩, hle⟩
    have hk12 : k ≤ 12 := by
      by_contra hgt
      have := Nat.pow_le_pow_right (show 0 < 2 by decide) (show 13 ≤ k by omega)
      omega
    interval_cases k <;> omega
  · rintro (rfl | rfl | rfl | rfl)
    · exact ⟨⟨9, rfl⟩, by decide⟩
    · exact ⟨⟨10, rfl⟩, by decide⟩
    · exact ⟨⟨11, rfl⟩, by decide⟩
    · exact ⟨⟨12, rfl⟩, by decide⟩

section Layout

variable {dbr : Nat → UInt8} {g : Fat}

/-- Two copies of the table share no sector. -/
theorem tables_disjoint {j k : Nat} (h : j ≠ k) :
    Disjoint (g.sectors (.table j)) (g.sectors (.table k)) := by
  refine Set.disjoint_left.mpr fun s hj hk => ?_
  rcases Nat.lt_or_gt_of_ne h with hlt | hlt
  · have := Nat.mul_le_mul_right g.tblSectors (show j + 1 ≤ k from hlt)
    exact absurd hk.2.1 (by have := hj.2.2; omega)
  · have := Nat.mul_le_mul_right g.tblSectors (show k + 1 ≤ j from hlt)
    exact absurd hj.2.1 (by have := hk.2.2; omega)

/-- The tables end where the directory starts. -/
theorem MountedFrom.table_lt (hm : MountedFrom dbr g) {k s : Nat} (hs : s ∈ g.sectors (.table k)) :
    s < g.rootStart := by
  obtain ⟨hk, -, hlt⟩ := hs
  rw [hm.tblCnt] at hk
  have hle := Nat.mul_le_mul_right g.tblSectors (show k + 1 ≤ 2 from hk)
  rw [hm.rootStart]
  omega

/-- The directory ends before the data when it fills whole sectors. -/
theorem MountedFrom.root_disjoint_data (hm : MountedFrom dbr g) (h512 : g.bytesPerSec = 512) :
    Disjoint (g.sectors .root) (g.sectors .data) ↔ g.rootEntCnt % 16 = 0 := by
  have hstart := hm.dataStart
  constructor
  · intro hd
    by_contra hne
    have hroot : g.rootStart + (g.rootEntCnt - 1) * 32 / 512 ∈ g.sectors .root :=
      ⟨g.rootEntCnt - 1, by omega, by rw [h512]; rfl⟩
    have hdata : g.rootStart + (g.rootEntCnt - 1) * 32 / 512 ∈ g.sectors .data := by
      change g.dataStart ≤ _
      omega
    exact Set.disjoint_left.mp hd hroot hdata
  · intro h16
    refine Set.disjoint_left.mpr fun s hroot hdata => ?_
    obtain ⟨i, hi, rfl⟩ := hroot
    change g.dataStart ≤ _ at hdata
    rw [h512, diritemSize] at hdata
    omega

/-- Which accepted geometry can be used. -/
theorem MountedFrom.usable_iff (hm : MountedFrom dbr g) :
    UsableGeometry g ↔ g.bytesPerSec = 512 ∧
      (g.secPerCluster = 1 ∨ g.secPerCluster = 2 ∨ g.secPerCluster = 4 ∨ g.secPerCluster = 8) ∧
      g.rootEntCnt % 16 = 0 := by
  have hpage : memPageSize.toNat = 4096 := by decide
  constructor
  · intro hu
    have h512 : g.bytesPerSec = 512 := hu.dirSector
    have hbytes : g.clusterByteSize = g.secPerCluster * 512 := by rw [hm.clusterByteSize, h512]
    refine ⟨h512, isPowerOfTwo_sectors.mp ⟨hbytes ▸ hu.powerOfTwo, ?_⟩,
      (hm.root_disjoint_data h512).mp (hu.disjoint .root .data (by simp))⟩
    rw [← hbytes, ← hpage]
    exact hu.cluster_le
  · rintro ⟨h512, hspc, h16⟩
    have hbytes : g.clusterByteSize = g.secPerCluster * 512 := by rw [hm.clusterByteSize, h512]
    obtain ⟨hpow, hle⟩ := isPowerOfTwo_sectors.mpr hspc
    have htable : ∀ k, Disjoint (g.sectors (.table k)) (g.sectors .root) ∧
        Disjoint (g.sectors (.table k)) (g.sectors .data) := by
      refine fun k => ⟨Set.disjoint_left.mpr fun s ht hr => ?_,
        Set.disjoint_left.mpr fun s ht hd => ?_⟩
      · obtain ⟨i, -, rfl⟩ := hr
        exact absurd (hm.table_lt ht) (Nat.not_lt_of_le (Nat.le_add_right _ _))
      · have hlt := hm.table_lt ht
        have hdata : g.dataStart ≤ s := hd
        have := hm.dataStart
        omega
    have hroot := (hm.root_disjoint_data h512).mpr h16
    refine ⟨by omega, by omega, hbytes ▸ hpow, by omega, h512, fun r r' hne => ?_⟩
    cases r with
    | table j =>
      cases r' with
      | table k => exact tables_disjoint fun h => hne (by rw [h])
      | root => exact (htable j).1
      | data => exact (htable j).2
    | root =>
      cases r' with
      | table k => exact (htable k).1.symm
      | root => exact absurd rfl hne
      | data => exact hroot
    | data =>
      cases r' with
      | table k => exact (htable k).2.symm
      | root => exact hroot.symm
      | data => exact absurd rfl hne

end Layout

/-! ## Sound mounts -/

/-- `fatfs_mount` is sound exactly when the device does not open, which it
reports, or when it reads a plain boot sector. -/
theorem fatfs_mount_iff (env : MountEnv) (dbr : Nat → UInt8) :
    MountSound env dbr ↔
      env.devOpen < 0 ∨ (env.allocPage ≠ 0 ∧ 1 ≤ env.devRead ∧ PlainBootSector dbr) := by
  unfold MountSound fatfsMountCall
  by_cases hopen : env.devOpen < 0
  · rw [if_pos hopen]
    exact iff_of_true ⟨fun h => absurd h (by simp), fun _ => ⟨-1, by decide, rfl⟩⟩ (.inl hopen)
  have hfailed : ∀ page, ¬(((mountFailed page).ret = some 0 →
        ∃ g, (mountFailed page).fat = some g ∧ UsableGeometry g) ∧
      ((mountFailed page).ret ≠ some 0 → ∃ r < 0, (mountFailed page).ret = some r)) := by
    rintro page ⟨-, h⟩
    obtain ⟨r, -, hr⟩ := h (by simp [mountFailed])
    cases hr
  rw [if_neg hopen]
  by_cases hpage : env.allocPage = 0
  · rw [if_pos hpage]
    refine iff_of_false (hfailed _) ?_
    rintro (h | h)
    · exact hopen h
    · exact h.1 hpage
  rw [if_neg hpage]
  by_cases hread : env.devRead < 1
  · rw [if_pos hread]
    refine iff_of_false (hfailed _) ?_
    rintro (h | h)
    · exact hopen h
    · exact absurd h.2.1 (by omega)
  rw [if_neg hread]
  have hright : (env.devOpen < 0 ∨ (env.allocPage ≠ 0 ∧ 1 ≤ env.devRead ∧ PlainBootSector dbr)) ↔
      PlainBootSector dbr := by
    simp [hopen, hpage, show 1 ≤ env.devRead by omega]
  rw [hright]
  cases hm : fatfsMount dbr with
  | none =>
    refine iff_of_false (hfailed _) fun hp => ?_
    obtain ⟨g, hg⟩ := fatfsMount_of_tests hp.numFats hp.fileSysType
    rw [hm] at hg
    cases hg
  | some g =>
    obtain ⟨hfrom, hcnt, hname⟩ := fatfsMount_eq_some hm
    have husable := hfrom.usable_iff
    rw [hfrom.bytesPerSec, hfrom.secPerCluster, hfrom.rootEntCnt] at husable
    constructor
    · intro h
      obtain ⟨g', hg', hu⟩ := h.1 rfl
      obtain rfl := Option.some.inj hg'
      obtain ⟨h512, hspc, h16⟩ := husable.mp hu
      exact ⟨hcnt, hname, h512, hspc, h16⟩
    · intro hp
      exact ⟨fun _ => ⟨g, rfl, husable.mpr ⟨hp.bytesPerSec, hp.secPerClus, hp.rootEntCnt⟩⟩,
        fun h => absurd rfl h⟩

/-- A FAT16 boot sector whose sectors have no bytes is mounted. -/
theorem zero_sector_size_mounted :
    ¬MountSound { devOpen := 0, allocPage := memPageSize, devRead := 1 } (bootSector 0 1) := by
  rintro ⟨h, -⟩
  obtain ⟨g, hg, hu⟩ := h (by decide +kernel)
  have hzero : (fatfsMountCall { devOpen := 0, allocPage := memPageSize, devRead := 1 }
      (bootSector 0 1)).fat.map Fat.bytesPerSec = some 0 := by decide +kernel
  rw [hg] at hzero
  exact hu.bytesPerSec (Option.some.inj hzero)

end Wjos
