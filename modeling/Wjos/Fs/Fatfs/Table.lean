/-
Wjos.Fs.Fatfs.Table — the file allocation tables of any volume that
`fatfs_mount` accepts.

The sector size in the boot sector may be any 16-bit number, the device moves
512 bytes. `tableEntry g disk k c` is the entry of `c` in copy `k` as the
functions address it; the entries of a table are those below `c_total`.
`Fits` says that each of them lies inside the 512 bytes that are moved with
its sector, and `fits_iff` for which volumes that is so.

`Tables g v f₁ f₂` relates a volume to its two tables. `clusterGetNext_tables`
and `clusterSetNext_tables` are the simulation. A write replaces the whole
sector of the second copy by that of the first (`mirror`).

The functions that follow or build a chain only use `cluster_get_next` and
`cluster_set_next`. `Simulates` is what these two do to some description `a`
of the volume with the table `fat a`; a result that is proved from it holds
for the two tables here as for the image of a whole volume.
-/
import Wjos.Fs.Fatfs.Image
import Wjos.Lib.Chain

namespace Wjos

open Lib

/-! ## Mounting -/

/-- The bytes of "FAT16". -/
def fat16Name : List UInt8 := [70, 65, 84, 49, 54]

/-- `fatfs_mount` of the boot sector `dbr`: the geometry, if it accepts it. -/
def fatfsMount (dbr : Nat → UInt8) : Option Fat :=
  let bytesPerSec := le16 dbr 11
  let secPerCluster := (dbr 13).toNat
  let tblStart := le16 dbr 14
  let tblCnt := (dbr 16).toNat
  let rootEntCnt := le16 dbr 17
  let tblSectors := le16 dbr 22
  let rootStart := tblStart + tblSectors * tblCnt
  if tblCnt ≠ 2 then none
  else if (List.range 5).map (fun i => dbr (54 + i)) ≠ fat16Name then none
  else
    some
      { bytesPerSec := bytesPerSec
        tblStart := tblStart
        tblSectors := tblSectors
        tblCnt := tblCnt
        rootEntCnt := rootEntCnt
        secPerCluster := secPerCluster
        clusterByteSize := secPerCluster * bytesPerSec
        rootStart := rootStart
        dataStart := rootStart + rootEntCnt * 32 / sectorSize }

/-- A geometry that `fatfs_mount` accepts. -/
def Mounted (g : Fat) : Prop := ∃ dbr, fatfsMount dbr = some g

/-- The bounds that the boot sector gives the fields. -/
structure Fat.Bounds (g : Fat) : Prop where
  tblCnt : g.tblCnt = 2
  bytesPerSec : g.bytesPerSec < 65536
  tblSectors : g.tblSectors < 65536
  tblStart : g.tblStart < 65536

theorem Mounted.bounds {g : Fat} (h : Mounted g) : g.Bounds := by
  obtain ⟨dbr, hm⟩ := h
  simp only [fatfsMount] at hm
  split at hm
  · exact absurd hm (by simp)
  next hcnt =>
    split at hm
    · exact absurd hm (by simp)
    · obtain rfl := Option.some.inj hm
      exact ⟨not_not.mp hcnt, le16_lt _ _, le16_lt _ _, le16_lt _ _⟩

/-- A boot sector with one reserved sector, sixteen directory entries and
clusters of one sector. -/
def bootSector (bytesPerSec tblSectors : Nat) : Nat → UInt8 :=
  let base : Nat → UInt8 := fun i =>
    if 54 ≤ i ∧ i < 59 then fat16Name.getD (i - 54) 0 else if i = 13 then 1 else if i = 16 then 2
    else 0
  put16 (put16 (put16 (put16 base 11 bytesPerSec) 14 1) 17 16) 22 tblSectors

theorem tinyFat_mounted : Mounted tinyFat := ⟨bootSector 512 1, by decide +kernel⟩

/-! ## Where the entries are -/

/-- The byte address of the entry of `c` in copy `k`. -/
def Fat.entryAddr (g : Fat) (k c : Nat) : Nat :=
  (g.tblStart + k * g.tblSectors + c * clusterSize / g.bytesPerSec) * sectorSize +
    c * clusterSize % g.bytesPerSec

/-- The entry of `c` in copy `k`. -/
def tableEntry (g : Fat) (disk : Nat → UInt8) (k c : Nat) : Nat := le16 disk (g.entryAddr k c)

/-- Each entry lies in the table and in the part of its sector that is moved. -/
structure Fits (g : Fat) : Prop where
  tblCnt : g.tblCnt = 2
  sector_lt : ∀ c < g.cTotal, c * 2 / g.bytesPerSec < g.tblSectors
  offset_lt : ∀ c < g.cTotal, c * 2 % g.bytesPerSec + 1 < 512

section Geometry

variable {g : Fat}

theorem Fat.Bounds.cTotal_eq (hb : g.Bounds) : g.cTotal = g.tblSectors * g.bytesPerSec / 2 := by
  have hle : g.tblSectors * g.bytesPerSec ≤ 65535 * 65535 :=
    Nat.mul_le_mul (Nat.le_of_lt_succ hb.tblSectors) (Nat.le_of_lt_succ hb.bytesPerSec)
  have hu : u32 ((g.tblSectors : Int) * g.bytesPerSec) = g.tblSectors * g.bytesPerSec := by
    rw [← Nat.cast_mul, u32_natCast (by omega)]
  rw [Fat.cTotal, hu, clusterSize]

/-- The entries lie in the sectors of the table. -/
theorem Fat.Bounds.sector_lt (hb : g.Bounds) {c : Nat} (hc : c < g.cTotal) :
    c * 2 / g.bytesPerSec < g.tblSectors := by
  rw [hb.cTotal_eq] at hc
  refine Nat.div_lt_of_lt_mul ?_
  rw [Nat.mul_comm g.bytesPerSec]
  omega

/-- The sectors are no larger than what is moved, or one such part holds all
entries. -/
theorem fits_iff (hb : g.Bounds) : Fits g ↔ g.bytesPerSec ≤ 512 ∨ g.cTotal ≤ 256 := by
  constructor
  · intro hf
    by_contra hno
    obtain ⟨hbps, htotal⟩ := not_or.mp hno
    have hoff := hf.offset_lt 256 (by omega)
    rw [Nat.mod_eq_of_lt (by omega)] at hoff
    omega
  · intro h
    refine ⟨hb.tblCnt, fun c hc => hb.sector_lt hc, fun c hc => ?_⟩
    rcases h with hbps | htotal
    · have hpos : 0 < g.bytesPerSec := by
        by_contra hz
        rw [hb.cTotal_eq, Nat.eq_zero_of_not_pos hz] at hc
        omega
      have hlt := Nat.mod_lt (c * 2) hpos
      by_cases h512 : g.bytesPerSec = 512
      · rw [h512]
        omega
      · omega
    · have hle := Nat.mod_le (c * 2) g.bytesPerSec
      omega

end Geometry

/-! ## The two copies -/

/-- The tables on the disk, and what the cache holds. -/
structure Tables (g : Fat) (v : Volume) (f₁ f₂ : Nat → Nat) : Prop where
  fst : ∀ c < g.cTotal, tableEntry g v.disk 0 c = f₁ c
  snd : ∀ c < g.cTotal, tableEntry g v.disk 1 c = f₂ c
  cached : ∀ s : Nat, v.currSector = s → ∀ i < 512, v.fatBuffer i = v.disk (s * 512 + i)

/-- The second copy after the sector of `c` was written. -/
def mirror (g : Fat) (f₁ f₂ : Nat → Nat) (c : Nat) : Nat → Nat :=
  fun d => if d * 2 / g.bytesPerSec = c * 2 / g.bytesPerSec then f₁ d else f₂ d

section Sectors

variable {disk disk' buf : Nat → UInt8} {m n i : Nat}

/-- A byte of a disk on which one sector was written. -/
theorem copyTo_sector (hi : i < 512) :
    copyTo disk (n * 512) 512 buf (m * 512 + i) = if m = n then buf i else disk (m * 512 + i) := by
  split
  next h => rw [h, copyTo_add hi]
  next h =>
    rcases Nat.lt_or_gt_of_ne h with hlt | hgt
    · exact copyTo_of_lt (by omega)
    · exact copyTo_of_ge (by omega)

/-- An entry depends on the 512 bytes that are moved with its sector only. -/
theorem tableEntry_eq {g : Fat} {k c : Nat} (hoff : c * 2 % g.bytesPerSec + 1 < 512)
    (h : ∀ i < 512, buf i =
      disk ((g.tblStart + k * g.tblSectors + c * 2 / g.bytesPerSec) * 512 + i)) :
    tableEntry g disk k c = le16 buf (c * 2 % g.bytesPerSec) :=
  (le16_window h hoff rfl).symm

theorem tableEntry_congr {g : Fat} {k c : Nat} (hoff : c * 2 % g.bytesPerSec + 1 < 512)
    (h : ∀ i < 512,
      disk' ((g.tblStart + k * g.tblSectors + c * 2 / g.bytesPerSec) * 512 + i) =
        disk ((g.tblStart + k * g.tblSectors + c * 2 / g.bytesPerSec) * 512 + i)) :
    tableEntry g disk' k c = tableEntry g disk k c := by
  rw [tableEntry_eq hoff fun i hi => (h i hi).symm]
  exact (tableEntry_eq hoff fun i _ => rfl).symm

end Sectors

section Simulation

variable {dev : Dev} {g : Fat} {v : Volume} {f₁ f₂ : Nat → Nat} {c x : Nat}

theorem breadSector_cached (hw : Works dev)
    (hc : ∀ s : Nat, v.currSector = s → ∀ i < 512, v.fatBuffer i = v.disk (s * 512 + i))
    (sector : Nat) :
    ∃ v', breadSector dev v sector = (v', 0) ∧ v'.disk = v.disk ∧ v'.currSector = sector ∧
      ∀ i < 512, v'.fatBuffer i = v.disk (sector * 512 + i) := by
  unfold breadSector
  by_cases hs : (sector : Int) = v.currSector
  · rw [if_pos hs]
    exact ⟨v, rfl, rfl, hs.symm, hc sector hs.symm⟩
  · rw [if_neg hs]
    simp only [devReadBuffer, devRead, hw v.calls 1, Nat.cast_one, if_pos]
    have hbuf : ∀ i < 512, copyTo v.fatBuffer 0 (min (Int.toNat 1) 1 * sectorSize)
        (fun i => v.disk (sector * sectorSize + i)) i = v.disk (sector * 512 + i) :=
      fun i hi => copyTo_zero_of_lt hi
    exact ⟨_, rfl, rfl, rfl, hbuf⟩

theorem clusterGetNext_tables (hw : Works dev) (hg : Fits g) (h : Tables g v f₁ f₂)
    (hc : InTable g c) :
    ∃ v', clusterGetNext dev g v c = (v', f₁ c) ∧ Tables g v' f₁ f₂ := by
  obtain ⟨v', hb, hd, hcs, hbuf⟩ :=
    breadSector_cached hw h.cached (g.tblStart + c * 2 / g.bytesPerSec)
  have hval : le16 v'.fatBuffer (c * 2 % g.bytesPerSec) = f₁ c := by
    rw [← h.fst c hc.2]
    refine (tableEntry_eq (hg.offset_lt c hc.2) fun i hi => ?_).symm
    rw [hbuf i hi, Nat.zero_mul, Nat.add_zero]
  refine ⟨v', ?_, ?_, ?_, ?_⟩
  · rw [clusterGetNext, if_neg (by simp [hc.valid]), clusterSize]
    simp only [if_neg (Nat.not_le.mpr (hg.sector_lt c hc.2)), hb, hval]
    rfl
  · rw [hd]
    exact h.fst
  · rw [hd]
    exact h.snd
  · intro s hs i hi
    rw [hcs] at hs
    rw [hbuf i hi, hd, Int.ofNat.inj hs]

/-- The entries after both copies of the sector of `c` were written with `x` as
its entry. -/
theorem tables_write (hg : Fits g) (hc : c < g.cTotal) (hx : x < 65536)
    {disk disk' buf : Nat → UInt8}
    (hbuf : ∀ i < 512, buf i = disk ((g.tblStart + c * 2 / g.bytesPerSec) * 512 + i))
    (hd : disk' = copyTo
      (copyTo disk ((g.tblStart + c * 2 / g.bytesPerSec) * 512) 512
        (put16 buf (c * 2 % g.bytesPerSec) x))
      ((g.tblStart + (c * 2 / g.bytesPerSec + g.tblSectors)) * 512) 512
      (put16 buf (c * 2 % g.bytesPerSec) x)) {d : Nat} (hdt : d < g.cTotal) :
    tableEntry g disk' 0 d = Function.update (tableEntry g disk 0) c x d ∧
    tableEntry g disk' 1 d = mirror g (Function.update (tableEntry g disk 0) c x)
      (tableEntry g disk 1) c d := by
  have hsc := hg.sector_lt c hc
  have hsd := hg.sector_lt d hdt
  have hoff := hg.offset_lt d hdt
  generalize hbuf' : put16 buf (c * 2 % g.bytesPerSec) x = buf' at hd
  have hbyte : ∀ m, ∀ i < 512, disk' (m * 512 + i) =
      if m = g.tblStart + c * 2 / g.bytesPerSec ∨
        m = g.tblStart + (c * 2 / g.bytesPerSec + g.tblSectors) then buf' i
      else disk (m * 512 + i) := by
    intro m i hi
    rw [hd, copyTo_sector hi, copyTo_sector hi]
    split
    next h₂ => rw [if_pos (.inr h₂)]
    next h₂ =>
      split
      next h₁ => rw [if_pos (.inl h₁)]
      next h₁ => rw [if_neg (by tauto)]
  -- an entry of the written sector is the one in the buffer
  have hsame : d * 2 / g.bytesPerSec = c * 2 / g.bytesPerSec →
      le16 buf' (d * 2 % g.bytesPerSec) = Function.update (tableEntry g disk 0) c x d := by
    intro hs
    by_cases hdc : d = c
    · rw [hdc, Function.update_self, ← hbuf', le16_put16, Nat.mod_eq_of_lt hx]
    · have h₁ := Nat.div_add_mod (d * 2) g.bytesPerSec
      have h₂ := Nat.div_add_mod (c * 2) g.bytesPerSec
      rw [hs] at h₁
      rw [Function.update_of_ne hdc, ← hbuf', le16_put16_of_ne (by omega)]
      refine (tableEntry_eq hoff fun i hi => ?_).symm
      rw [hbuf i hi, hs, Nat.zero_mul, Nat.add_zero]
  have hne : d * 2 / g.bytesPerSec ≠ c * 2 / g.bytesPerSec → d ≠ c := by
    rintro hs rfl
    exact hs rfl
  unfold mirror
  by_cases hs : d * 2 / g.bytesPerSec = c * 2 / g.bytesPerSec
  · rw [if_pos hs, ← hsame hs]
    constructor
    · refine tableEntry_eq hoff fun i hi => ?_
      rw [hbyte _ i hi, if_pos (.inl (by rw [hs]; omega))]
    · refine tableEntry_eq hoff fun i hi => ?_
      rw [hbyte _ i hi, if_pos (.inr (by rw [hs]; omega))]
  · rw [if_neg hs, Function.update_of_ne (hne hs)]
    constructor
    · refine tableEntry_congr hoff fun i hi => (hbyte _ i hi).trans (if_neg ?_)
      generalize d * 2 / g.bytesPerSec = q at hs hsd
      generalize c * 2 / g.bytesPerSec = r at hs hsc
      omega
    · refine tableEntry_congr hoff fun i hi => (hbyte _ i hi).trans (if_neg ?_)
      generalize d * 2 / g.bytesPerSec = q at hs hsd
      generalize c * 2 / g.bytesPerSec = r at hs hsc
      omega

/-- The cache after both copies of its sector were written. -/
theorem cached_write {disk buf : Nat → UInt8} {n m : Nat} (i : Nat) (hi : i < 512) :
    buf i = copyTo (copyTo disk (n * 512) 512 buf) (m * 512) 512 buf (n * 512 + i) := by
  rw [copyTo_sector hi, copyTo_sector hi, if_pos rfl, ite_self]

/-- `cluster_set_next` after its sector is loaded. -/
theorem clusterSetNext_loaded (hw : Works dev) (hg : Fits g) (hc : InTable g c) {v₁ : Volume}
    (hb : breadSector dev v (g.tblStart + c * 2 / g.bytesPerSec) = (v₁, 0))
    (hd₁ : v₁.disk = v.disk) :
    clusterSetNext dev g v c x =
      ({ v₁ with
          fatBuffer := put16 v₁.fatBuffer (c * 2 % g.bytesPerSec) x
          disk := copyTo (copyTo v.disk ((g.tblStart + c * 2 / g.bytesPerSec) * 512) 512
              (put16 v₁.fatBuffer (c * 2 % g.bytesPerSec) x))
            ((g.tblStart + (c * 2 / g.bytesPerSec + g.tblSectors)) * 512) 512
            (put16 v₁.fatBuffer (c * 2 % g.bytesPerSec) x)
          calls := v₁.calls + 1 + 1 }, 0) := by
  have hsec := hg.sector_lt c hc.2
  unfold clusterSetNext
  rw [if_neg (by simp [hc.valid]), clusterSize]
  simp only [if_neg (Nat.not_le.mpr hsec), hb]
  rw [if_neg (by decide), hg.tblCnt]
  simp only [writeCopies, bwriteSector_eq hw, hd₁]
  rfl

theorem clusterSetNext_tables (hw : Works dev) (hg : Fits g) (h : Tables g v f₁ f₂)
    (hc : InTable g c) (hx : x < 65536) :
    ∃ v', clusterSetNext dev g v c x = (v', 0) ∧
      Tables g v' (Function.update f₁ c x) (mirror g (Function.update f₁ c x) f₂ c) := by
  obtain ⟨v₁, hb, hd₁, hcs₁, hbuf₁⟩ :=
    breadSector_cached hw h.cached (g.tblStart + c * 2 / g.bytesPerSec)
  have hset := clusterSetNext_loaded (x := x) hw hg hc hb hd₁
  have hwrite := fun d hd => tables_write hg hc.2 hx hbuf₁ rfl (d := d) hd
  have hf₁ : ∀ d < g.cTotal,
      Function.update (tableEntry g v.disk 0) c x d = Function.update f₁ c x d := by
    intro d hd
    rw [Function.update_apply, Function.update_apply, h.fst d hd]
  refine ⟨_, hset, fun d hd => ?_, fun d hd => ?_, fun s hs i hi => ?_⟩
  · exact (hwrite d hd).1.trans (hf₁ d hd)
  · refine (hwrite d hd).2.trans ?_
    unfold mirror
    rw [hf₁ d hd, h.snd d hd]
  · obtain rfl : g.tblStart + c * 2 / g.bytesPerSec = s := Int.ofNat.inj (hcs₁.symm.trans hs)
    exact cached_write i hi

end Simulation

/-! ## Any description of a volume -/

/-- The volumes that `R` relates to `a` have the table `fat a`, and setting an
entry leads to `upd a`. -/
structure Simulates {α : Type*} (dev : Dev) (g : Fat) (R : Volume → α → Prop)
    (fat : α → Nat → Nat) (upd : α → Nat → Nat → α) : Prop where
  get : ∀ {v a c}, R v a → InTable g c →
    ∃ v', clusterGetNext dev g v c = (v', fat a c) ∧ R v' a
  set : ∀ {v a c x}, R v a → InTable g c → x < 65536 →
    ∃ v', clusterSetNext dev g v c x = (v', 0) ∧ R v' (upd a c x)
  fat_upd : ∀ {a c x}, InTable g c → fat (upd a c x) = Function.update (fat a) c x

/-- The tables `t`, where each entry is the same in both copies or as it was
in the tables `f₁` and `f₂`. -/
def Mirrored (g : Fat) (f₁ f₂ : Nat → Nat) (v : Volume) (t : (Nat → Nat) × (Nat → Nat)) : Prop :=
  Tables g v t.1 t.2 ∧ ∀ c < g.cTotal, t.2 c = t.1 c ∨ t.1 c = f₁ c ∧ t.2 c = f₂ c

/-- The entry of `c` set in both copies. -/
def setBoth (g : Fat) (t : (Nat → Nat) × (Nat → Nat)) (c x : Nat) : (Nat → Nat) × (Nat → Nat) :=
  (Function.update t.1 c x, mirror g (Function.update t.1 c x) t.2 c)

section Instances

variable {dev : Dev} {g : Fat}

theorem tables_simulates (hw : Works dev) (hg : Fits g) :
    Simulates dev g (fun v t => Tables g v t.1 t.2) Prod.fst (setBoth g) where
  get := fun h hc => clusterGetNext_tables hw hg h hc
  set := fun h hc hx => clusterSetNext_tables hw hg h hc hx
  fat_upd := fun _ => rfl

theorem mirrored_simulates (hw : Works dev) (hg : Fits g) (f₁ f₂ : Nat → Nat) :
    Simulates dev g (Mirrored g f₁ f₂) Prod.fst (setBoth g) where
  get := fun h hc => by
    obtain ⟨v', hget, h'⟩ := clusterGetNext_tables hw hg h.1 hc
    exact ⟨v', hget, h', h.2⟩
  set := fun {v t c x} h hc hx => by
    obtain ⟨v', hset, h'⟩ := clusterSetNext_tables hw hg h.1 hc hx
    refine ⟨v', hset, h', fun d hd => ?_⟩
    simp only [setBoth, mirror]
    split
    · exact .inl rfl
    next hs =>
      have hdc : d ≠ c := by
        rintro rfl
        exact hs rfl
      rw [Function.update_of_ne hdc]
      exact h.2 d hd
  fat_upd := fun _ => rfl

theorem shows_simulates (hw : Works dev) (hg : g.Ok) :
    Simulates dev g (Shows g) Image.fat (Image.setNext g) where
  get := fun h _ => clusterGetNext_shows hw hg h _
  set := fun h hc hx => by
    obtain ⟨v', err, hset, h', -, herr⟩ := clusterSetNext_shows hw hg h _ hx
    rw [herr hc] at hset
    exact ⟨v', hset, h'⟩
  fat_upd := fun hc => if_pos hc

end Instances

section Invalid

variable {dev : Dev} {g : Fat} {v : Volume} {c : Nat}

/-- A cluster that is not valid has no entry. -/
theorem clusterGetNext_of_not_valid (hc : clusterIsValid c = false) :
    clusterGetNext dev g v c = (v, fatClusterInvalid) := by
  unfold clusterGetNext
  rw [if_pos hc]

theorem clusterSetNext_of_not_valid (hc : clusterIsValid c = false) (x : Nat) :
    clusterSetNext dev g v c x = (v, -1) := by
  unfold clusterSetNext
  rw [if_pos hc]

theorem clusterFreeChain_of_not_valid {start : Nat} (hv : clusterIsValid start = false)
    (fuel : Nat) (v : Volume) : clusterFreeChain dev g fuel v start = some v := by
  cases fuel <;> simp [clusterFreeChain, hv]

/-- Nor has one behind the last sector of the table. -/
theorem clusterGetNext_of_ge (hs : g.tblSectors ≤ c * 2 / g.bytesPerSec) :
    clusterGetNext dev g v c = (v, fatClusterInvalid) := by
  unfold clusterGetNext
  split
  · rfl
  · exact if_pos hs

theorem clusterSetNext_of_ge (hs : g.tblSectors ≤ c * 2 / g.bytesPerSec) (x : Nat) :
    (clusterSetNext dev g v c x).1 = v := by
  unfold clusterSetNext
  split
  · rfl
  · exact congrArg Prod.fst (if_pos hs)

end Invalid

end Wjos
