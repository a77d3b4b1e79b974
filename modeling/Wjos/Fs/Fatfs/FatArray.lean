/-
Wjos.Fs.Fatfs.FatArray — the table behind the sector cache as one array.

`fatArray g disk` is the first copy of the table and the directory as they
lie on the disk, for any volume with 512-byte sectors that `fatfs_mount`
accepts. `Mirrored512 g v` is what the access functions rely on and keep: the
copies of the table are equal sector by sector, and `fat_buffer` is the disk's
sector `curr_sector` unless that is `-1`.

An item that is passed to `write_dir_entry` may lie in `fat_buffer` itself,
where it moves under the call that loads another sector; `ItemArg.buffer p`
is such a pointer, and `kernel_memcpy` then copies byte by byte inside the
buffer. What it copies does not matter here: the bytes of one entry change,
in the buffer and then on the disk, and no others.

`fatCall_step` is one call and `cached_fat_is_array` any sequence of calls:
the table is the array that `lastSet` computes from the calls alone.
-/
import Wjos.Fs.Fatfs.Table

namespace Wjos

open Lib

/-! ## The calls -/

/-- `kernel_memcpy` inside one memory. -/
def memcpyBytes (m : Nat → UInt8) : (dest src size : Nat) → Nat → UInt8
  | _, _, 0 => m
  | d, s, size + 1 => memcpyBytes (Function.update m d (m s)) (d + 1) (s + 1) size

/-- The item of `write_dir_entry`: bytes elsewhere, or an offset in
`fat_buffer`. -/
inductive ItemArg where
  | bytes (item : DirItem)
  | buffer (p : Nat)

/-- The `kernel_memcpy` of `write_dir_entry`, to `offset` in the buffer. -/
def ItemArg.copy (buffer : Nat → UInt8) (offset : Nat) : ItemArg → Nat → UInt8
  | .bytes item => copyTo buffer offset diritemSize item
  | .buffer p => memcpyBytes buffer offset p diritemSize

/-- `write_dir_entry`, with an item that may lie in the buffer. -/
def writeDirEntryArg (dev : Dev) (g : Fat) (v : Volume) (item : ItemArg) (index : Int) :
    Volume × Int :=
  if index < 0 ∨ index ≥ g.rootEntCnt then (v, -1)
  else
    let offset := index.toNat * diritemSize
    let sector := g.rootStart + offset / g.bytesPerSec
    let (v, err) := breadSector dev v sector
    if err < 0 then (v, -1)
    else
      bwriteSector dev { v with fatBuffer := item.copy v.fatBuffer (offset % g.bytesPerSec) } sector

inductive FatCall where
  | getNext (curr : UInt16)
  | setNext (curr next : UInt16)
  | readDirEntry (index : Int)
  | writeDirEntry (item : ItemArg) (index : Int)

def fatCall (dev : Dev) (g : Fat) (v : Volume) : FatCall → Volume
  | .getNext curr => (clusterGetNext dev g v curr.toNat).1
  | .setNext curr next => (clusterSetNext dev g v curr.toNat next.toNat).1
  | .readDirEntry index => (readDirEntry dev g v index).1
  | .writeDirEntry item index => (writeDirEntryArg dev g v item index).1

/-- What a call does to an array. -/
def setCall (g : Fat) (next : Nat → Nat) : FatCall → Nat → Nat
  | .setNext curr x =>
    if InTable g curr.toNat then Function.update next curr.toNat x.toNat else next
  | _ => next

/-- The value last set for each cluster, or the one in `init`. -/
def lastSet (g : Fat) (init : Nat → Nat) (calls : List FatCall) : Nat → Nat :=
  calls.foldl (setCall g) init

/-! ## The arrays on the disk -/

/-- The bytes of an entry of the directory. -/
def dirEntry (g : Fat) (disk : Nat → UInt8) (i j : Nat) : UInt8 :=
  disk (g.rootStart * 512 + i * 32 + j)

/-- The copies agree, and the cache holds what the disk does. -/
structure Mirrored512 (g : Fat) (v : Volume) : Prop where
  copies : ∀ s < g.tblSectors, ∀ i < 512,
    v.disk ((g.tblStart + s) * 512 + i) = v.disk ((g.tblStart + g.tblSectors + s) * 512 + i)
  cache : v.currSector = -1 ∨
    ∃ s : Nat, v.currSector = s ∧ ∀ i < 512, v.fatBuffer i = v.disk (s * 512 + i)

/-- A mounted volume with sectors of 512 bytes. -/
structure Mounted512 (g : Fat) : Prop where
  mounted : Mounted g
  bytesPerSec : g.bytesPerSec = 512

section Geometry

variable {g : Fat} {c : Nat}

theorem Mounted.rootStart {g : Fat} (h : Mounted g) :
    g.rootStart = g.tblStart + g.tblSectors * 2 := by
  obtain ⟨dbr, hm⟩ := h
  simp only [fatfsMount] at hm
  split at hm
  · cases hm
  next hcnt =>
    split at hm
    · cases hm
    · obtain rfl := Option.some.inj hm
      simp [not_not.mp hcnt]

theorem Mounted512.fits (hg : Mounted512 g) : Fits g :=
  (fits_iff hg.mounted.bounds).mpr (.inl (by simp [hg.bytesPerSec]))

theorem Mounted512.cTotal_eq (hg : Mounted512 g) : g.cTotal = g.tblSectors * 256 := by
  rw [hg.mounted.bounds.cTotal_eq, hg.bytesPerSec]
  omega

/-- The test of `cluster_get_next` and `cluster_set_next` lets the clusters
of the table pass. -/
theorem Mounted512.sector_lt_iff (hg : Mounted512 g) :
    c * 2 / g.bytesPerSec < g.tblSectors ↔ c < g.cTotal := by
  rw [hg.cTotal_eq, hg.bytesPerSec]
  omega

end Geometry

/-! ## Writing part of a sector -/

section Patch

variable {disk buf new : Nat → UInt8} {b n off len : Nat}

/-- Writing back a block with a few bytes replaced is replacing these bytes. -/
theorem copyTo_patch (hbuf : ∀ i < n, buf i = disk (b + i)) (hlen : off + len ≤ n) :
    copyTo disk b n (copyTo buf off len new) = copyTo disk (b + off) len new := by
  funext a
  rcases Nat.lt_or_ge a b with hlt | hge
  · rw [copyTo_of_lt hlt, copyTo_of_lt (by omega)]
  obtain ⟨i, rfl⟩ := Nat.exists_eq_add_of_le hge
  rcases Nat.lt_or_ge i n with hi | hi
  · rw [copyTo_add hi]
    rcases Nat.lt_or_ge i off with hlt | hge
    · rw [copyTo_of_lt hlt, copyTo_of_lt (by omega), hbuf i hi]
    · rcases Nat.lt_or_ge i (off + len) with hin | hout
      · rw [copyTo_of_mem hge hin, copyTo_of_mem (by omega) (by omega)]
        exact congrArg new (by omega)
      · rw [copyTo_of_ge hout, copyTo_of_ge (by omega), hbuf i hi]
  · rw [copyTo_of_ge (by omega), copyTo_of_ge (by omega)]

/-- `kernel_memcpy` stores nothing outside its destination. -/
theorem memcpyBytes_of_not_mem {m : Nat → UInt8} {d s a : Nat} {size : Nat}
    (h : a < d ∨ d + size ≤ a) : memcpyBytes m d s size a = m a := by
  induction size generalizing m d s with
  | zero => rfl
  | succ size ih =>
    rw [memcpyBytes, ih (by omega), Function.update_of_ne (by omega)]

/-- Either kind of item replaces the bytes of one entry. -/
theorem ItemArg.copy_eq (item : ItemArg) (buffer : Nat → UInt8) (offset : Nat) :
    ∃ new, item.copy buffer offset = copyTo buffer offset diritemSize new := by
  cases item with
  | bytes item => exact ⟨item, rfl⟩
  | buffer p =>
    refine ⟨fun j => memcpyBytes buffer offset p diritemSize (offset + j), ?_⟩
    funext a
    unfold copyTo
    split
    next h => exact congrArg (memcpyBytes buffer offset p diritemSize) (by omega)
    next h => exact memcpyBytes_of_not_mem (by omega)

end Patch

/-! ## One call -/

section Step

variable {dev : Dev} {g : Fat} {v : Volume}

/-- The cache in the form that the access functions use. -/
theorem Mirrored512.cached (h : Mirrored512 g v) (s : Nat) (hs : v.currSector = s) :
    ∀ i < 512, v.fatBuffer i = v.disk (s * 512 + i) := by
  rcases h.cache with hc | ⟨t, ht, hbuf⟩
  · omega
  · obtain rfl : t = s := by omega
    exact hbuf

/-- Loading a sector. -/
theorem breadSector_mirrored (hw : Works dev) (h : Mirrored512 g v) (sector : Nat) :
    ∃ v', breadSector dev v sector = (v', 0) ∧ v'.disk = v.disk ∧ Mirrored512 g v' ∧
      v'.currSector = sector ∧ ∀ i < 512, v'.fatBuffer i = v.disk (sector * 512 + i) := by
  obtain ⟨v', hb, hd, hcs, hbuf⟩ := breadSector_cached hw h.cached sector
  refine ⟨v', hb, hd, ⟨?_, .inr ⟨sector, hcs, ?_⟩⟩, hcs, hbuf⟩
  · rw [hd]
    exact h.copies
  · rw [hd]
    exact hbuf

/-- `cluster_get_next` reads the first copy. -/
theorem clusterGetNext_mirrored (hw : Works dev) (hg : Mounted512 g) (h : Mirrored512 g v)
    (c : Nat) :
    ∃ v' x, clusterGetNext dev g v c = (v', x) ∧ v'.disk = v.disk ∧ Mirrored512 g v' ∧
      (InTable g c → x = tableEntry g v.disk 0 c) := by
  by_cases hv : clusterIsValid c = false
  · refine ⟨v, _, clusterGetNext_of_not_valid hv, rfl, h, fun hc => ?_⟩
    simp [hc.valid] at hv
  by_cases hs : c * 2 / g.bytesPerSec < g.tblSectors
  · obtain ⟨v', hb, hd, h', -, hbuf⟩ :=
      breadSector_mirrored hw h (g.tblStart + c * 2 / g.bytesPerSec)
    refine ⟨v', le16 v'.fatBuffer (c * 2 % g.bytesPerSec), ?_, hd, h', fun hc => ?_⟩
    · rw [clusterGetNext, if_neg hv, clusterSize]
      simp only [if_neg (Nat.not_le.mpr hs), hb]
      rfl
    · refine (tableEntry_eq (hg.fits.offset_lt c hc.2) fun i hi => ?_).symm
      rw [hbuf i hi, Nat.zero_mul, Nat.add_zero]
  · refine ⟨v, _, clusterGetNext_of_ge (Nat.not_lt.mp hs), rfl, h, fun hc => ?_⟩
    exact absurd (hg.sector_lt_iff.mpr hc.2) hs

/-- `read_dir_entry` points into the directory sector, or nowhere. -/
theorem readDirEntry_mirrored (hw : Works dev) (hg : Mounted512 g) (h : Mirrored512 g v)
    (index : Int) :
    ∃ v' p, readDirEntry dev g v index = (v', p) ∧ v'.disk = v.disk ∧ Mirrored512 g v' ∧
      ∀ q, p = some q → ∀ j < 32, itemAt v' q j = dirEntry g v.disk index.toNat j := by
  unfold readDirEntry
  split
  · exact ⟨v, none, rfl, rfl, h, fun q hq => absurd hq (by simp)⟩
  · obtain ⟨v', hb, hd, h', -, hbuf⟩ :=
      breadSector_mirrored hw h (g.rootStart + index.toNat * diritemSize / g.bytesPerSec)
    dsimp only
    rw [hb]
    refine ⟨v', _, rfl, hd, h', fun q hq j hj => ?_⟩
    obtain rfl := Option.some.inj hq
    rw [hg.bytesPerSec, diritemSize] at hbuf ⊢
    rw [itemAt, hbuf _ (by omega), dirEntry]
    exact congrArg v.disk (by omega)

/-- A directory entry in its sector. -/
theorem dirEntry_sector (g : Fat) (disk : Nat → UInt8) (i j : Nat) :
    dirEntry g disk i j = disk ((g.rootStart + i / 16) * 512 + (i % 16 * 32 + j)) := by
  unfold dirEntry
  rw [Nat.add_mul, Nat.add_assoc, Nat.add_assoc]
  have hi := Nat.div_add_mod i 16
  congr 2
  rw [Nat.mul_comm (i / 16) 512]
  omega

/-- `cluster_set_next` sets the entry in both copies and leaves the others
and the directory alone. -/
theorem clusterSetNext_mirrored (hw : Works dev) (hg : Mounted512 g) (h : Mirrored512 g v)
    (c : Nat) {x : Nat} (hx : x < 65536) :
    Mirrored512 g (clusterSetNext dev g v c x).1 ∧
      (∀ d < g.cTotal, tableEntry g (clusterSetNext dev g v c x).1.disk 0 d =
        if InTable g c then Function.update (tableEntry g v.disk 0) c x d
        else tableEntry g v.disk 0 d) ∧
      ∀ i j, j < 32 →
        dirEntry g (clusterSetNext dev g v c x).1.disk i j = dirEntry g v.disk i j := by
  by_cases hc : InTable g c
  · obtain ⟨v₁, hb, hd₁, -, hcs, hbuf⟩ :=
      breadSector_mirrored hw h (g.tblStart + c * 2 / g.bytesPerSec)
    have hroot := hg.mounted.rootStart
    have hsec := hg.fits.sector_lt c hc.2
    have hwrite := fun d hd => tables_write hg.fits hc.2 hx hbuf rfl (d := d) hd
    rw [clusterSetNext_loaded hw hg.fits hc hb hd₁]
    generalize hs : c * 2 / g.bytesPerSec = s at *
    refine ⟨⟨fun t ht i hi => ?_, .inr ⟨_, hcs, fun i hi => cached_write i hi⟩⟩,
      fun d hd => ?_, fun i j hj => ?_⟩
    · dsimp only
      rw [copyTo_sector hi, copyTo_sector hi, copyTo_sector hi, copyTo_sector hi]
      by_cases hts : t = s
      · simp [hts, Nat.add_assoc, Nat.add_comm s]
      · rw [if_neg (by omega), if_neg (by omega), if_neg (by omega), if_neg (by omega)]
        exact h.copies t ht i hi
    · rw [if_pos hc]
      exact (hwrite d hd).1
    · have hin : i % 16 * 32 + j < 512 := by omega
      rw [dirEntry_sector, dirEntry_sector]
      dsimp only
      rw [copyTo_sector hin, copyTo_sector hin,
        if_neg (by omega), if_neg (by omega)]
  · have hsame : (clusterSetNext dev g v c x).1 = v := by
      by_cases hv : clusterIsValid c = false
      · rw [clusterSetNext_of_not_valid hv]
      · refine clusterSetNext_of_ge (Nat.not_lt.mp fun hlt => hc ?_) x
        exact ⟨by simpa using hv, hg.sector_lt_iff.mp hlt⟩
    rw [hsame]
    exact ⟨h, fun d _ => (if_neg hc).symm, fun _ _ _ => rfl⟩

/-- `write_dir_entry` replaces one entry of the directory, if any, and leaves
the table alone. -/
theorem writeDirEntryArg_mirrored (hw : Works dev) (hg : Mounted512 g) (h : Mirrored512 g v)
    (item : ItemArg) (index : Int) :
    Mirrored512 g (writeDirEntryArg dev g v item index).1 ∧
      (∀ d < g.cTotal, tableEntry g (writeDirEntryArg dev g v item index).1.disk 0 d =
        tableEntry g v.disk 0 d) ∧
      ∀ i j : Nat, (i : Int) ≠ index → j < 32 →
        dirEntry g (writeDirEntryArg dev g v item index).1.disk i j = dirEntry g v.disk i j := by
  unfold writeDirEntryArg
  split
  · exact ⟨h, fun _ _ => rfl, fun _ _ _ _ => rfl⟩
  next hindex =>
    obtain ⟨v₁, hb, hd₁, -, hcs, hbuf⟩ :=
      breadSector_mirrored hw h (g.rootStart + index.toNat * diritemSize / g.bytesPerSec)
    obtain ⟨new, hnew⟩ := item.copy_eq v₁.fatBuffer (index.toNat * diritemSize % g.bytesPerSec)
    have hroot := hg.mounted.rootStart
    have hoff : index.toNat * diritemSize % g.bytesPerSec + diritemSize ≤ 512 := by
      rw [hg.bytesPerSec, diritemSize]
      omega
    dsimp only
    rw [hb]
    dsimp only
    rw [if_neg (by decide), bwriteSector_eq hw, hnew, hd₁]
    have hge : g.rootStart ≤ g.rootStart + index.toNat * diritemSize / g.bytesPerSec :=
      Nat.le_add_right _ _
    refine ⟨⟨fun t ht i hi => ?_, .inr ⟨_, hcs, fun i hi => (copyTo_add hi).symm⟩⟩,
      fun d hd => ?_, fun i j hi hj => ?_⟩
    · dsimp only
      rw [copyTo_sector hi, copyTo_sector hi, if_neg (by omega), if_neg (by omega)]
      exact h.copies t ht i hi
    · refine tableEntry_congr (hg.fits.offset_lt d hd) fun i hi => ?_
      have hlt := hg.fits.sector_lt d hd
      dsimp only
      rw [copyTo_sector hi, if_neg ?_]
      generalize d * 2 / g.bytesPerSec = q at hlt
      omega
    · have hne : i ≠ index.toNat := by omega
      rw [copyTo_patch hbuf hoff, hg.bytesPerSec, diritemSize, dirEntry, dirEntry]
      rcases Nat.lt_or_gt_of_ne hne with hlt | hgt
      · exact copyTo_of_lt (by omega)
      · exact copyTo_of_ge (by omega)

/-- One call. -/
theorem fatCall_step (hw : Works dev) (hg : Mounted512 g) (h : Mirrored512 g v) (call : FatCall) :
    Mirrored512 g (fatCall dev g v call) ∧ ∀ d < g.cTotal,
      tableEntry g (fatCall dev g v call).disk 0 d = setCall g (tableEntry g v.disk 0) call d := by
  cases call with
  | getNext curr =>
    obtain ⟨v', x, hget, hd, h', -⟩ := clusterGetNext_mirrored hw hg h curr.toNat
    simp only [fatCall, setCall, hget, hd]
    exact ⟨h', fun _ _ => trivial⟩
  | setNext curr x =>
    obtain ⟨h', hset, -⟩ := clusterSetNext_mirrored hw hg h curr.toNat x.toNat_lt
    refine ⟨h', fun d hd => ?_⟩
    simp only [fatCall, setCall, hset d hd]
    split <;> rfl
  | readDirEntry index =>
    obtain ⟨v', p, hread, hd, h', -⟩ := readDirEntry_mirrored hw hg h index
    simp only [fatCall, setCall, hread, hd]
    exact ⟨h', fun _ _ => trivial⟩
  | writeDirEntry item index =>
    obtain ⟨h', hkeep, -⟩ := writeDirEntryArg_mirrored hw hg h item index
    exact ⟨h', hkeep⟩

end Step

/-! ## Sequences of calls -/

/-- The volume behaves as the array `next`: `cluster_get_next` reads it,
`cluster_set_next` changes one entry of it and nothing in the directory, the
copies agree and so does the cache. -/
structure BehavesAsArray (dev : Dev) (g : Fat) (next : Nat → Nat) (v : Volume) : Prop where
  mirrored : Mirrored512 g v
  get : ∀ c : UInt16, InTable g c.toNat → (clusterGetNext dev g v c.toNat).2 = next c.toNat
  set_others : ∀ c x : UInt16, ∀ d, InTable g d → d ≠ c.toNat →
    tableEntry g (clusterSetNext dev g v c.toNat x.toNat).1.disk 0 d = tableEntry g v.disk 0 d
  set_directory : ∀ c x : UInt16, ∀ i < g.rootEntCnt, ∀ j < 32,
    dirEntry g (clusterSetNext dev g v c.toNat x.toNat).1.disk i j = dirEntry g v.disk i j

section Runs

variable {dev : Dev} {g : Fat} {v : Volume}

theorem Mirrored512.behaves (hw : Works dev) (hg : Mounted512 g) (h : Mirrored512 g v)
    {next : Nat → Nat} (hnext : ∀ d < g.cTotal, tableEntry g v.disk 0 d = next d) :
    BehavesAsArray dev g next v where
  mirrored := h
  get := by
    intro c hc
    obtain ⟨v', x, hget, -, -, hx⟩ := clusterGetNext_mirrored hw hg h c.toNat
    rw [hget]
    exact (hx hc).trans (hnext _ hc.2)
  set_others := by
    intro c x d hd hne
    rw [(clusterSetNext_mirrored hw hg h c.toNat x.toNat_lt).2.1 d hd.2, Function.update_of_ne hne,
      ite_self]
  set_directory := fun c x i _ j hj =>
    (clusterSetNext_mirrored hw hg h c.toNat x.toNat_lt).2.2 i j hj

/-- After any calls the table is the array of what they set. -/
theorem cached_fat_is_array (hw : Works dev) (hg : Mounted512 g) (h : Mirrored512 g v)
    (calls : List FatCall) :
    BehavesAsArray dev g (lastSet g (tableEntry g v.disk 0) calls)
      (calls.foldl (fatCall dev g) v) := by
  suffices hrun : ∀ next : Nat → Nat, (∀ d < g.cTotal, tableEntry g v.disk 0 d = next d) →
      BehavesAsArray dev g (lastSet g next calls) (calls.foldl (fatCall dev g) v) from
    hrun _ fun _ _ => rfl
  induction calls generalizing v with
  | nil => exact fun next hnext => h.behaves hw hg hnext
  | cons call calls ih =>
    intro next hnext
    obtain ⟨h', hset⟩ := fatCall_step hw hg h call
    refine ih h' (setCall g next call) fun d hd => ?_
    rw [hset d hd]
    cases call with
    | setNext curr x =>
      simp only [setCall]
      split
      · rw [Function.update_apply, Function.update_apply, hnext d hd]
      · exact hnext d hd
    | getNext curr => exact hnext d hd
    | readDirEntry index => exact hnext d hd
    | writeDirEntry item index => exact hnext d hd

theorem blankFs_mirrored (g : Fat) : Mirrored512 g blankFs.vol where
  copies := fun _ _ _ _ => by simp [blankFs]
  cache := .inl rfl

/-- A chain is set, a directory entry is copied over another inside the
buffer, and the chain is read. -/
theorem cached_fat_is_array_tiny :
    BehavesAsArray idealDev tinyFat
      (lastSet tinyFat (tableEntry tinyFat blankFs.vol.disk 0)
        [.setNext 2 3, .readDirEntry 0, .writeDirEntry (.buffer 0) 1, .getNext 2])
      ([FatCall.setNext 2 3, .readDirEntry 0, .writeDirEntry (.buffer 0) 1, .getNext 2].foldl
        (fatCall idealDev tinyFat) blankFs.vol) :=
  cached_fat_is_array idealDev_works ⟨tinyFat_mounted, rfl⟩ (blankFs_mirrored tinyFat) _

end Runs

end Wjos
