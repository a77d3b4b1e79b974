/-
Wjos.Fs.Fatfs.Counts — the byte counts of `fatfs_read` and `fatfs_write`.

`disk_read` and `disk_write` of `kernel/dev/disk.c` return the number of
sectors that were moved before `disk_wait_data` reported an error. The loops
of `fatfs.c` only test whether the answer is negative: a round whose transfer
fell short, even by all sectors, is counted in full. `fatfs_read` does not test
either whether the lookup of the next cluster failed, and goes on to read
`FAT_CLUSTER_INVALID`.

`readRounds` and `writeRounds` list the rounds that are counted, with the
sectors that each of them moved. They tile the bytes of the count
(`fatfsReadLoop_rounds`, `fatfsWriteLoop_rounds`), so `counts_true_iff` can be
read off one round: the counts are those of the bytes moved exactly when every
round moved all the sectors it needed and, of a read, stood in the cluster of
the file. `readRounds_valid_iff` says that on a volume whose cache is as the
disk has it a round stands there when its cluster is a valid one.
-/
import Wjos.Lib.Tiling
import Wjos.Fs.Fatfs.CacheFaults
import Wjos.Fs.Fatfs.SeekRead
import Wjos.Fs.Fatfs.Transfers

namespace Wjos

open Lib

/-! ## The disk -/

/-- The loop of `disk_read` and of `disk_write`, with `n` sectors to go;
`waitData` is what `disk_wait_data` returns for each of them. -/
def diskLoop (waitData : Nat → Int) : Nat → (count : Nat) → Nat
  | 0, count => count
  | n + 1, count => if waitData count < 0 then count else diskLoop waitData n (count + 1)

/-- A disk whose `k`-th request waits with the results `waitData k`. -/
def diskDev (waitData : Nat → Nat → Int) : Dev := fun k n => diskLoop (waitData k) n 0

theorem diskLoop_le (waitData : Nat → Int) (n : Nat) :
    ∀ count, diskLoop waitData n count ≤ count + n := by
  induction n with
  | zero => exact fun count => Nat.le_refl _
  | succ n ih =>
    intro count
    have h := ih (count + 1)
    rw [diskLoop]
    split <;> omega

theorem diskDev_atMost (waitData : Nat → Nat → Int) : AtMost (diskDev waitData) := by
  intro k n
  have h := diskLoop_le (waitData k) n 0
  unfold diskDev
  omega

/-! ## The rounds that are counted -/

/-- A round of a loop: the file at its start, the bytes counted before it and
in it, the sectors moved, and the volume behind the transfer. -/
structure Round where
  file : File
  total : Nat
  part : Nat
  sectors : Nat
  vol : Volume

/-- The rounds of `fatfs_read` that are counted. -/
def readRounds (dev : Dev) (g : Fat) (fuel : Nat) :
    Nat → Volume → File → (Nat → UInt8) → (total nbytes : Nat) → List Round
  | 0, _, _, _, _, _ => []
  | n + 1, v, file, buf, total, nbytes =>
    if nbytes > 0 then
      let (v, buf, err, currRead) := readCluster dev g v file buf total nbytes
      if err < 0 then []
      else
        { file := file, total := total, part := currRead
          sectors := min err.toNat g.secPerCluster, vol := v } ::
        match moveFilePos dev g fuel v file currRead false with
        | none => []
        | some (v, file, err) =>
          if err < 0 then []
          else readRounds dev g fuel n v file buf (total + currRead) (nbytes - currRead)
    else []

/-- The rounds of `fatfs_write` that are counted. -/
def writeRounds (dev : Dev) (g : Fat) (fuel : Nat) (buf : Nat → UInt8) :
    Nat → Volume → File → (total nbytes : Nat) → List Round
  | 0, _, _, _, _ => []
  | n + 1, v, file, total, nbytes =>
    if nbytes > 0 then
      let (v, err, currWrite) := writeCluster dev g v file buf total nbytes
      if err < 0 then []
      else
        { file := file, total := total, part := currWrite
          sectors := min err.toNat g.secPerCluster, vol := v } ::
        let file := { file with size := u32 (file.size + currWrite) }
        match moveFilePos dev g fuel v file currWrite true with
        | none => []
        | some (v, file, err) =>
          if err < 0 then []
          else writeRounds dev g fuel buf n v file (total + currWrite) (nbytes - currWrite)
    else []

/-- The rounds of a call of `fatfs_read`. -/
def fatfsReadRounds (dev : Dev) (g : Fat) (fuel : Nat) (v : Volume) (buf : Nat → UInt8)
    (size : Nat) (file : File) : List Round :=
  readRounds dev g fuel (readLen file size) v file buf 0 (readLen file size)

/-- The rounds of a call of `fatfs_write`. -/
def fatfsWriteRounds (dev : Dev) (g : Fat) (fuel : Nat) (v : Volume) (buf : Nat → UInt8)
    (size : Nat) (file : File) : List Round :=
  if u32 (file.pos + size) > file.size then
    match expandFile dev g fuel v file (cInt (file.pos + size - file.size)) with
    | none => []
    | some (v, file, err) => if err < 0 then [] else writeRounds dev g fuel buf size v file 0 size
  else writeRounds dev g fuel buf size v file 0 size

/-! ## What the counts promise -/

/-- Where the bytes of a round start in their cluster. -/
def Round.offset (g : Fat) (r : Round) : Nat := r.file.pos % g.clusterByteSize

/-- Byte `i` of the request lies in the sectors that the round moved. -/
def Round.Moved (g : Fat) (r : Round) (i : Nat) : Prop :=
  r.offset g + (i - r.total) < r.sectors * sectorSize

/-- Byte `i` of the request on the disk, where the round has it. -/
def Round.addr (g : Fat) (r : Round) (i : Nat) : Nat :=
  startSector g r.file * sectorSize + (r.offset g + (i - r.total))

/-- All bytes of the round lie in the sectors it moved. -/
def Round.Whole (g : Fat) (r : Round) : Prop := r.offset g + r.part ≤ r.sectors * sectorSize

/-- Byte `i` of a request belongs to the round. -/
abbrev Round.Has (r : Round) (i : Nat) : Prop := Covers Round.total Round.part r i

/-- The cluster of byte `i` from the position of a file on. -/
def clusterAt (g : Fat) (im : Image) (f : File) (i : Nat) : Nat :=
  im.fat^[(f.pos % g.clusterByteSize + i) / g.clusterByteSize] f.cblk

/-- The contents of byte `i` from the position of a file on. -/
def byteAt (g : Fat) (im : Image) (f : File) (i : Nat) : UInt8 :=
  im.data (clusterAt g im f i) ((f.pos % g.clusterByteSize + i) % g.clusterByteSize)

/-- The round stands in the cluster of the file that its bytes are in. -/
def Round.InFile (g : Fat) (im : Image) (f : File) (r : Round) : Prop :=
  clusterIsValid r.file.cblk = true ∧ r.file.cblk = clusterAt g im f r.total

/-- Byte `i` of the destination is the byte of the file, and the round moved it
from the cluster of the file. -/
structure Round.Reads (g : Fat) (im : Image) (f : File) (buf : Nat → UInt8) (r : Round) (i : Nat) :
    Prop where
  moved : r.Moved g i
  valid : clusterIsValid r.file.cblk = true
  cluster : r.file.cblk = clusterAt g im f i
  byte : buf i = byteAt g im f i

/-- Byte `i` of the source was moved, and the disk has it. -/
structure Round.Writes (g : Fat) (buf : Nat → UInt8) (r : Round) (i : Nat) : Prop where
  moved : r.Moved g i
  byte : r.vol.disk (r.addr g i) = buf i

instance (g : Fat) (r : Round) : Decidable (r.Whole g) := by
  unfold Round.Whole
  infer_instance

instance (g : Fat) (im : Image) (f : File) (r : Round) : Decidable (r.InFile g im f) := by
  unfold Round.InFile
  infer_instance

/-- Every byte that `fatfs_read` counts was read from the file. -/
def ReadCountTrue (dev : Dev) (g : Fat) (fuel : Nat) (v : Volume) (buf : Nat → UInt8) (size : Nat)
    (file : File) : Prop :=
  ∀ v' file' buf' total, fatfsRead dev g fuel v buf size file = some (v', file', buf', total) →
    ∀ i < total, ∃ r ∈ fatfsReadRounds dev g fuel v buf size file,
      r.Has i ∧ r.Reads g (image g v.disk) file buf' i

/-- Every byte that `fatfs_write` counts reached the disk. -/
def WriteCountTrue (dev : Dev) (g : Fat) (fuel : Nat) (v : Volume) (buf : Nat → UInt8) (size : Nat)
    (file : File) : Prop :=
  ∀ v' file' total, fatfsWrite dev g fuel v buf size file = some (v', file', total) →
    ∀ i < total, ∃ r ∈ fatfsWriteRounds dev g fuel v buf size file, r.Has i ∧ r.Writes g buf i

/-- From within the file these are its bytes. -/
theorem byteAt_standing {g : Fat} {im : Image} {f : File} (hq : 0 < g.clusterByteSize)
    (h : Standing g im f) (hs : 0 < f.size) (i : Nat) :
    byteAt g im f i = fileByte g im f.sblk (f.pos + i) := by
  have hmod : (f.pos % g.clusterByteSize + i) % g.clusterByteSize =
      (f.pos + i) % g.clusterByteSize := Nat.mod_add_mod _ _ _
  have hdiv : (f.pos + i) / g.clusterByteSize =
      (f.pos % g.clusterByteSize + i) / g.clusterByteSize + f.pos / g.clusterByteSize := by
    have hsum := Nat.div_add_mod f.pos g.clusterByteSize
    rw [← Nat.add_mul_div_left _ _ hq]
    congr 1
    omega
  rw [byteAt, clusterAt, fileByte, h.cblk hs, hmod, hdiv, Function.iterate_add_apply]

/-! ## One round -/

section Rounds

variable {dev : Dev} {g : Fat} {v v' : Volume} {f : File} {buf buf' : Nat → UInt8}
  {total nbytes w : Nat} {err : Int}

theorem pieceLen_pos (hq : 0 < g.clusterByteSize) (pos : Nat) (hn : 0 < nbytes) :
    0 < pieceLen g pos nbytes := by
  have hmod := Nat.mod_lt pos hq
  unfold pieceLen currPart
  split
  · exact hq
  · split <;> omega

/-- A transfer of `fatfs_read` leaves the bytes before it alone. -/
theorem readCluster_frame (hr : readCluster dev g v f buf total nbytes = (v', buf', err, w))
    {a : Nat} (ha : a < total) : buf' a = buf a := by
  unfold readCluster at hr
  dsimp only at hr
  split at hr
  · obtain ⟨-, rfl, -⟩ := Prod.mk.inj hr
    exact if_neg (Nat.not_le_of_lt ha)
  · split at hr
    · obtain ⟨-, rfl, -⟩ := Prod.mk.inj hr
      rfl
    · obtain ⟨-, rfl, -⟩ := Prod.mk.inj hr
      exact copyTo_of_lt ha

/-- What a transfer of `fatfs_read` brings, whatever the device answers. -/
theorem readCluster_moves (hr : readCluster dev g v f buf total nbytes = (v', buf', err, w))
    (he : 0 ≤ err) :
    w = pieceLen g f.pos nbytes ∧ v'.disk = v.disk ∧
      ∀ j < w, f.pos % g.clusterByteSize + j < min err.toNat g.secPerCluster * sectorSize →
        buf' (total + j) =
          v.disk (startSector g f * sectorSize + (f.pos % g.clusterByteSize + j)) := by
  unfold readCluster at hr
  unfold pieceLen
  dsimp only at hr
  split at hr
  next hwhole =>
    simp only [devRead, Prod.mk.injEq] at hr
    obtain ⟨rfl, rfl, rfl, rfl⟩ := hr
    refine ⟨(if_pos hwhole).symm, rfl, fun j _ hj => ?_⟩
    rw [hwhole.1, Nat.zero_add] at hj ⊢
    dsimp only
    rw [if_pos (Nat.le_add_right _ _), Nat.add_sub_cancel_left, copyTo_zero_of_lt hj]
  next hwhole =>
    rw [if_neg hwhole]
    split at hr
    next hneg =>
      obtain ⟨-, -, rfl, -⟩ := hr
      exact absurd hneg (Int.not_lt.mpr he)
    next =>
      obtain ⟨rfl, rfl, rfl, rfl⟩ := hr
      refine ⟨rfl, rfl, fun j hjw hj => ?_⟩
      rw [copyTo_add hjw]
      dsimp only [devReadBuffer, devRead] at hj ⊢
      exact copyTo_zero_of_lt hj

/-- What a transfer of `fatfs_write` leaves on the disk. -/
theorem writeCluster_moves (hr : writeCluster dev g v f buf total nbytes = (v', err, w))
    (he : 0 ≤ err) :
    w = pieceLen g f.pos nbytes ∧
      ∀ j < w, f.pos % g.clusterByteSize + j < min err.toNat g.secPerCluster * sectorSize →
        v'.disk (startSector g f * sectorSize + (f.pos % g.clusterByteSize + j)) =
          buf (total + j) := by
  unfold writeCluster at hr
  unfold pieceLen
  dsimp only at hr
  split at hr
  next hwhole =>
    simp only [devWrite, Prod.mk.injEq] at hr
    obtain ⟨rfl, rfl, rfl⟩ := hr
    refine ⟨(if_pos hwhole).symm, fun j _ hj => ?_⟩
    rw [hwhole.1, Nat.zero_add] at hj ⊢
    dsimp only
    exact copyTo_add hj
  next hwhole =>
    rw [if_neg hwhole]
    split at hr
    next hneg =>
      obtain ⟨-, rfl, -⟩ := hr
      exact absurd hneg (Int.not_lt.mpr he)
    next =>
      obtain ⟨rfl, rfl, rfl⟩ := hr
      refine ⟨rfl, fun j hjw hj => ?_⟩
      exact (copyTo_add hj).trans (copyTo_add hjw)

/-- The move behind a transfer of `fatfs_read` never fails. -/
theorem moveFilePos_goes (dev : Dev) (g : Fat) (fuel : Nat) (v : Volume) (f : File) (w : Nat) :
    ∃ v' c, moveFilePos dev g fuel v f w false =
        some (v', { f with cblk := c, pos := u32 (f.pos + w : Nat) }, 0) ∧
      v'.disk = v.disk := by
  unfold moveFilePos
  simp only [Bool.false_eq_true, and_false, if_false, Nat.cast_add]
  split
  · exact ⟨_, _, rfl, clusterGetNext_disk ..⟩
  · exact ⟨v, f.cblk, rfl, rfl⟩

/-! ## The rounds tile the count -/

/-- `fatfs_read` returns; its rounds tile the bytes it counts, each goes on where
the one before ended, and brings what it moved. -/
theorem fatfsReadLoop_rounds (dev : Dev) (hg : g.Ok) (fuel n : Nat) :
    ∀ {v : Volume} {f : File} (buf : Nat → UInt8) (total nbytes : Nat), nbytes ≤ n →
      ∃ v' f' buf' total', fatfsReadLoop dev g fuel n v f buf total nbytes =
          some (v', f', buf', total') ∧
        Tiles Round.total Round.part (readRounds dev g fuel n v f buf total nbytes) total total' ∧
        (∀ a < total, buf' a = buf a) ∧
        ∀ r ∈ readRounds dev g fuel n v f buf total nbytes,
          r.offset g = (f.pos + (r.total - total)) % g.clusterByteSize ∧
          r.sectors ≤ g.secPerCluster ∧
          ∀ i, r.Has i → r.Moved g i → buf' i = v.disk (r.addr g i) := by
  have hq := hg.clusterByteSize_pos
  induction n with
  | zero =>
    intro v f buf total nbytes hle
    obtain rfl := Nat.le_zero.mp hle
    exact ⟨v, f, buf, total, rfl, rfl, fun _ _ => rfl, fun r hr => absurd hr List.not_mem_nil⟩
  | succ n ih =>
    intro v f buf total nbytes hle
    rw [readRounds, fatfsReadLoop]
    rcases Nat.eq_zero_or_pos nbytes with rfl | hpos
    · rw [if_neg (Nat.lt_irrefl 0), if_neg (Nat.lt_irrefl 0)]
      exact ⟨v, f, buf, total, rfl, rfl, fun _ _ => rfl, fun r hr => absurd hr List.not_mem_nil⟩
    · rw [if_pos hpos, if_pos hpos]
      generalize hrc : readCluster dev g v f buf total nbytes = c
      obtain ⟨v₁, buf₁, err, w⟩ := c
      dsimp only
      split
      · exact ⟨v₁, f, buf₁, total, rfl, rfl, fun a ha => readCluster_frame hrc ha,
          fun r hr => absurd hr List.not_mem_nil⟩
      next hneg =>
        obtain ⟨hw, hdisk, hnew⟩ := readCluster_moves hrc (Int.not_lt.mp hneg)
        have hwpos : 0 < w := hw ▸ pieceLen_pos hq f.pos hpos
        obtain ⟨v₂, c, hmove, hdisk₂⟩ := moveFilePos_goes dev g fuel v₁ f w
        rw [hmove, Option.bind_some]
        dsimp only
        rw [if_neg (Int.lt_irrefl 0), if_neg (Int.lt_irrefl 0)]
        obtain ⟨v', f', buf', total', hloop, htiles, hold', hrounds⟩ :=
          ih (v := v₂) (f := { f with cblk := c, pos := u32 (f.pos + w : Nat) }) buf₁ (total + w)
            (nbytes - w) (by omega)
        refine ⟨v', f', buf', total', hloop, ⟨rfl, hwpos, htiles⟩, fun a ha => ?_,
          fun r hr => ?_⟩
        · rw [hold' a (by omega), readCluster_frame hrc ha]
        · rcases List.mem_cons.mp hr with rfl | hr
          · refine ⟨by simp [Round.offset], Nat.min_le_right _ _, fun i hi hm => ?_⟩
            obtain ⟨j, rfl⟩ := Nat.exists_eq_add_of_le hi.1
            have hj : j < w := Nat.lt_of_add_lt_add_left hi.2
            unfold Round.Moved at hm
            rw [Nat.add_sub_cancel_left] at hm
            dsimp only at hm ⊢
            rw [hold' _ (by omega), hnew j hj hm, Round.addr, Nat.add_sub_cancel_left]
            rfl
          · obtain ⟨hoff, hsec, hbyte⟩ := hrounds r hr
            have hlo := (htiles.bounds hr).1
            refine ⟨?_, hsec, fun i hi hm => ?_⟩
            · rw [hoff]
              dsimp only
              rw [u32_nat, Nat.add_mod, mod_clusterByteSize hg, ← Nat.add_mod]
              congr 1
              omega
            · rw [hbyte i hi hm, hdisk₂, hdisk]

/-- The rounds of `fatfs_write` tile the bytes it counts, and what each of them
moved is on the disk. -/
theorem fatfsWriteLoop_rounds (hq : 0 < g.clusterByteSize) (fuel n : Nat)
    {r : Volume × File × Nat} :
    ∀ {v : Volume} {f : File} {total nbytes : Nat},
      fatfsWriteLoop dev g fuel buf n v f total nbytes = some r →
      Tiles Round.total Round.part (writeRounds dev g fuel buf n v f total nbytes) total r.2.2 ∧
        ∀ x ∈ writeRounds dev g fuel buf n v f total nbytes,
          ∀ i, x.Has i → x.Moved g i → x.vol.disk (x.addr g i) = buf i := by
  induction n with
  | zero =>
    intro v f total nbytes hr
    rw [fatfsWriteLoop] at hr
    split at hr
    · cases hr
    · obtain rfl := Option.some.inj hr
      exact ⟨rfl, fun x hx => absurd hx List.not_mem_nil⟩
  | succ n ih =>
    intro v f total nbytes hr
    rw [fatfsWriteLoop] at hr
    rw [writeRounds]
    split at hr
    next hpos =>
      rw [if_pos hpos]
      generalize hwc : writeCluster dev g v f buf total nbytes = c at hr
      obtain ⟨v₁, err, w⟩ := c
      dsimp only at hr ⊢
      split at hr
      next hneg =>
        obtain rfl := Option.some.inj hr
        rw [if_pos hneg]
        exact ⟨rfl, fun x hx => absurd hx List.not_mem_nil⟩
      next hneg =>
        rw [if_neg hneg]
        obtain ⟨hw, hnew⟩ := writeCluster_moves hwc (Int.not_lt.mp hneg)
        have hwpos : 0 < w := hw ▸ pieceLen_pos hq f.pos hpos
        obtain ⟨⟨v₂, f₂, err₂⟩, hmove, hr⟩ := Option.bind_eq_some_iff.mp hr
        rw [hmove]
        dsimp only at hr ⊢
        have hfirst : ∀ i, total ≤ i ∧ i < total + w →
            f.pos % g.clusterByteSize + (i - total) <
              min err.toNat g.secPerCluster * sectorSize →
            v₁.disk (startSector g f * sectorSize +
              (f.pos % g.clusterByteSize + (i - total))) = buf i := by
          intro i hi hm
          rw [hnew _ (by omega) hm, Nat.add_sub_cancel' hi.1]
        split at hr
        next hneg₂ =>
          obtain rfl := Option.some.inj hr
          rw [if_pos hneg₂]
          refine ⟨⟨rfl, hwpos, rfl⟩, fun x hx => ?_⟩
          obtain rfl := List.mem_singleton.mp hx
          exact hfirst
        next hneg₂ =>
          rw [if_neg hneg₂]
          obtain ⟨htiles, hrest⟩ := ih hr
          refine ⟨⟨rfl, hwpos, htiles⟩, fun x hx => ?_⟩
          rcases List.mem_cons.mp hx with rfl | hx
          · exact hfirst
          · exact hrest x hx
    next hpos =>
      obtain rfl := Option.some.inj hr
      rw [if_neg hpos]
      exact ⟨rfl, fun x hx => absurd hx List.not_mem_nil⟩

end Rounds

/-! ## Which counts are true -/

section Counts

variable {dev : Dev} {g : Fat} {fuel size : Nat} {v : Volume} {f : File} {buf : Nat → UInt8}
  {r : Round}

/-- All bytes of a round lie in the sectors it moved when the last one does. -/
theorem Round.moved_iff (hpos : 0 < r.part) : (∀ i, r.Has i → r.Moved g i) ↔ r.Whole g := by
  constructor
  · intro h
    have hlast := h (r.total + (r.part - 1)) ⟨by omega, by omega⟩
    unfold Round.Moved at hlast
    unfold Round.Whole
    omega
  · intro h i hi
    unfold Round.Whole at h
    unfold Round.Moved
    have hlt := hi.2
    omega

theorem fatfsWrite_rounds (hq : 0 < g.clusterByteSize) {result : Volume × File × Nat}
    (hr : fatfsWrite dev g fuel v buf size f = some result) :
    Tiles Round.total Round.part (fatfsWriteRounds dev g fuel v buf size f) 0 result.2.2 ∧
      ∀ r ∈ fatfsWriteRounds dev g fuel v buf size f,
        ∀ i, r.Has i → r.Moved g i → r.vol.disk (r.addr g i) = buf i := by
  unfold fatfsWriteRounds
  unfold fatfsWrite at hr
  split at hr
  next hgrow =>
    rw [if_pos hgrow]
    obtain ⟨⟨v₁, f₁, err⟩, he, hr⟩ := Option.bind_eq_some_iff.mp hr
    rw [he]
    dsimp only at hr ⊢
    split at hr
    next hneg =>
      obtain rfl := Option.some.inj hr
      rw [if_pos hneg]
      exact ⟨rfl, fun x hx => absurd hx List.not_mem_nil⟩
    next hneg =>
      rw [if_neg hneg]
      exact fatfsWriteLoop_rounds hq fuel size hr
  next hgrow =>
    rw [if_neg hgrow]
    exact fatfsWriteLoop_rounds hq fuel size hr

/-- `fatfs_write` counts what reached the disk exactly when every round that it
counts moved all the sectors its bytes lie in. -/
theorem writeCountTrue_iff (hq : 0 < g.clusterByteSize) {result : Volume × File × Nat}
    (hr : fatfsWrite dev g fuel v buf size f = some result) :
    WriteCountTrue dev g fuel v buf size f ↔
      ∀ r ∈ fatfsWriteRounds dev g fuel v buf size f, r.Whole g := by
  obtain ⟨htiles, hbytes⟩ := fatfsWrite_rounds hq hr
  have hcount : WriteCountTrue dev g fuel v buf size f ↔ ∀ i, 0 ≤ i → i < result.2.2 →
      ∃ r ∈ fatfsWriteRounds dev g fuel v buf size f, r.Has i ∧ r.Writes g buf i := by
    constructor
    · exact fun h i _ hi => h result.1 result.2.1 result.2.2 hr i hi
    · intro h v' f' total hr' i hi
      obtain rfl := Option.some.inj (hr.symm.trans hr')
      exact h i (Nat.zero_le i) hi
  rw [hcount, htiles.forall_iff (P := fun r i => r.Writes g buf i)]
  refine forall₂_congr fun r hmem => ?_
  rw [← Round.moved_iff (htiles.bounds hmem).2.1]
  exact ⟨fun h i hi => (h i hi).moved, fun h i hi => ⟨h i hi, hbytes r hmem i hi (h i hi)⟩⟩

/-- The bytes of a round that stands in the cluster of the file. -/
theorem Round.reads_iff (hg : g.Ok) {disk buf' : Nat → UInt8} (hpos : 0 < r.part)
    (hoff : r.offset g = (f.pos + r.total) % g.clusterByteSize)
    (hsec : r.sectors ≤ g.secPerCluster)
    (hbyte : ∀ i, r.Has i → r.Moved g i → buf' i = disk (r.addr g i)) :
    (∀ i, r.Has i → r.Reads g (image g disk) f buf' i) ↔
      r.InFile g (image g disk) f ∧ r.Whole g := by
  constructor
  · intro h
    have hfst := h r.total ⟨Nat.le_refl _, Nat.lt_add_of_pos_right hpos⟩
    exact ⟨⟨hfst.valid, hfst.cluster⟩, (Round.moved_iff hpos).mp fun i hi => (h i hi).moved⟩
  · rintro ⟨⟨hvalid, hcluster⟩, hwhole⟩ i hi
    have hmoved := (Round.moved_iff hpos).mpr hwhole i hi
    obtain ⟨j, rfl⟩ := Nat.exists_eq_add_of_le hi.1
    have hlt : r.offset g + j < g.clusterByteSize := by
      have hle : r.sectors * 512 ≤ g.secPerCluster * 512 := Nat.mul_le_mul_right 512 hsec
      have hcbs := hg.clusterByteSize
      unfold Round.Moved sectorSize at hmoved
      omega
    -- the place in the file, counted from the start of the current cluster
    have hstart : (f.pos % g.clusterByteSize + r.total) % g.clusterByteSize = r.offset g := by
      rw [hoff, Nat.mod_add_mod]
    have hin : (f.pos % g.clusterByteSize + r.total) % g.clusterByteSize + j <
        g.clusterByteSize := by
      rw [hstart]
      exact hlt
    have hsame : clusterAt g (image g disk) f (r.total + j) =
        clusterAt g (image g disk) f r.total := by
      unfold clusterAt
      rw [← Nat.add_assoc, add_div_of_lt hin]
    rw [clusterIsValid_iff] at hvalid
    refine ⟨hmoved, clusterIsValid_iff.mpr hvalid, hcluster.trans hsame.symm, ?_⟩
    rw [hbyte _ hi hmoved, byteAt, hsame, ← hcluster, ← Nat.add_assoc, add_mod_of_lt hin, hstart,
      Round.addr, startSector_address hg hvalid.1 (by omega), Nat.add_sub_cancel_left]
    simp [image, hvalid.1, hlt]

/-- `fatfs_read` counts what it read from the file exactly when every round that
it counts stood in the cluster of the file and moved all the sectors its bytes
lie in. -/
theorem readCountTrue_iff (hg : g.Ok) :
    ReadCountTrue dev g fuel v buf size f ↔
      ∀ r ∈ fatfsReadRounds dev g fuel v buf size f,
        r.InFile g (image g v.disk) f ∧ r.Whole g := by
  obtain ⟨v', f', buf', total, hr, htiles, -, hrounds⟩ :=
    fatfsReadLoop_rounds dev (v := v) (f := f) hg fuel (readLen f size) buf 0 (readLen f size)
      (Nat.le_refl _)
  have hcount : ReadCountTrue dev g fuel v buf size f ↔ ∀ i, 0 ≤ i → i < total →
      ∃ r ∈ fatfsReadRounds dev g fuel v buf size f,
        r.Has i ∧ r.Reads g (image g v.disk) f buf' i := by
    constructor
    · exact fun h i _ hi => h v' f' buf' total hr i hi
    · intro h w' h' b' n hr' i hi
      obtain ⟨-, -, rfl, rfl⟩ := Prod.mk.inj (Option.some.inj (hr.symm.trans hr'))
      exact h i (Nat.zero_le i) hi
  rw [hcount]
  unfold fatfsReadRounds
  rw [htiles.forall_iff (P := fun r i => r.Reads g (image g v.disk) f buf' i)]
  refine forall₂_congr fun r hmem => ?_
  obtain ⟨hoff, hsec, hbyte⟩ := hrounds r hmem
  exact Round.reads_iff hg (htiles.bounds hmem).2.1 hoff hsec hbyte

end Counts

/-! ## Failed lookups -/

section Lookups

variable {dev : Dev} {g : Fat} {v : Volume} {im : Image} {f : File} {buf : Nat → UInt8}

/-- Loading a sector of the tables or the directory. -/
theorem breadSector_coherent (hd : AtMost dev) (h : Coherent g v) {sector : Nat}
    (hs : sector < g.dataStart) : Coherent g (breadSector dev v sector).1 := by
  by_cases herr : (breadSector dev v sector).2 < 0
  · rw [breadSector_failed hd herr]
    exact h
  · intro s hcs
    rw [breadSector_loaded herr] at hcs
    obtain rfl := Int.ofNat.inj hcs
    refine ⟨hs, fun i hi => ?_⟩
    rw [breadSector_disk]
    exact breadSector_buffer (fun s hs => (h s hs).2) herr hi

/-- `cluster_get_next` answers what the table has, or fails. -/
theorem clusterGetNext_answers (hd : AtMost dev) (hg : g.Ok) (h : Shows g v im) (c : Nat) :
    Shows g (clusterGetNext dev g v c).1 im ∧
      ((clusterGetNext dev g v c).2 = im.fat c ∨
        (clusterGetNext dev g v c).2 = fatClusterInvalid) := by
  unfold clusterGetNext
  rw [hg.bytesPerSec, clusterSize]
  split
  · exact ⟨h, .inr rfl⟩
  next hvalid =>
    dsimp only
    split
    · exact ⟨h, .inr rfl⟩
    next hsector =>
      have ht : InTable g c := by
        refine ⟨by simpa using hvalid, ?_⟩
        rw [hg.cTotal_eq]
        omega
      obtain ⟨-, hlt, haddr, hoff⟩ := entry_address hg ht.2
      have h₁ : Shows g (breadSector dev v (g.tblStart + c * 2 / 512)).1 im :=
        ⟨(congrArg (image g) (breadSector_disk ..)).trans h.image_eq,
          breadSector_coherent hd h.coherent hlt⟩
      split
      · exact ⟨h₁, .inr rfl⟩
      next herr =>
        refine ⟨h₁, .inl ?_⟩
        have him : im.fat c = le16 v.disk (g.tblStart * 512 + c * 2) := by
          rw [← h.image_eq]
          simp [image, ht]
        rw [him]
        exact le16_window (fun i hi => breadSector_buffer (fun s hs => (h.coherent s hs).2) herr hi)
          hoff haddr

/-- A transfer of `fatfs_read` changes nothing on the disk and empties the cache,
or leaves it alone. -/
theorem readCluster_image (dev : Dev) (h : Shows g v im) (f : File) (buf : Nat → UInt8)
    (total nbytes : Nat) : Shows g (readCluster dev g v f buf total nbytes).1 im := by
  refine ⟨(congrArg (image g) (readCluster_disk ..)).trans h.image_eq, ?_⟩
  unfold readCluster
  dsimp only
  split
  · exact h.coherent
  · split <;> exact coherent_uncached rfl

/-- The file as the first round finds it. -/
theorem exists_first_round {fuel n total nbytes : Nat} {r : Round}
    (hr : r ∈ readRounds dev g fuel n v f buf total nbytes) :
    ∃ r₀ ∈ readRounds dev g fuel n v f buf total nbytes, r₀.file = f := by
  cases n with
  | zero => exact absurd hr List.not_mem_nil
  | succ n =>
    rw [readRounds] at hr ⊢
    split at hr
    next hpos =>
      rw [if_pos hpos]
      dsimp only at hr ⊢
      split at hr
      · exact absurd hr List.not_mem_nil
      next hneg =>
        rw [if_neg hneg]
        exact ⟨_, List.mem_cons_self, rfl⟩
    · exact absurd hr List.not_mem_nil

theorem readRounds_zero (fuel n total : Nat) : readRounds dev g fuel n v f buf total 0 = [] := by
  cases n <;> rfl

/-- At the end of its cluster `fatfs_read` takes what `cluster_get_next` answers. -/
theorem moveFilePos_cross (hg : g.Ok) (fuel : Nat) {w : Nat}
    (hend : f.pos % g.clusterByteSize + w = g.clusterByteSize) :
    moveFilePos dev g fuel v f w false =
      some ((clusterGetNext dev g v (clusterT f.cblk)).1,
        { f with
            cblk := (clusterGetNext dev g v (clusterT f.cblk)).2
            pos := u32 (f.pos + w : Nat) }, 0) := by
  have hle := hg.clusterByteSize_le
  unfold moveFilePos
  dsimp only
  rw [u32_add (by omega), if_pos (Nat.le_of_eq hend.symm)]
  exact if_neg (by simp)

/-- As long as the clusters are valid, the rounds follow the chain of the file. -/
theorem readRounds_follow (hd : AtMost dev) (hg : g.Ok) (fuel n : Nat) :
    ∀ {v : Volume} {f : File} (buf : Nat → UInt8) (total nbytes : Nat), Shows g v im →
      nbytes < 4294967296 →
      (∀ r ∈ readRounds dev g fuel n v f buf total nbytes, clusterIsValid r.file.cblk = true) →
      ∀ r ∈ readRounds dev g fuel n v f buf total nbytes,
        total ≤ r.total ∧ r.file.cblk = clusterAt g im f (r.total - total) := by
  have hq := hg.clusterByteSize_pos
  have hstart : ∀ f : File, f.cblk = clusterAt g im f 0 := by
    intro f
    rw [clusterAt, Nat.add_zero, Nat.div_eq_of_lt (Nat.mod_lt _ hq)]
    rfl
  induction n with
  | zero => exact fun _ _ _ _ _ _ r hr => absurd hr List.not_mem_nil
  | succ n ih =>
    intro v f buf total nbytes h hlt
    rw [readRounds]
    split
    next hpos =>
      have h₁ := readCluster_image dev h f buf total nbytes
      generalize hrc : readCluster dev g v f buf total nbytes = c at h₁
      obtain ⟨v₁, buf₁, err, w⟩ := c
      dsimp only at h₁ ⊢
      split
      · exact fun _ r hr => absurd hr List.not_mem_nil
      next hneg =>
        obtain ⟨hw, -, -⟩ := readCluster_moves hrc (Int.not_lt.mp hneg)
        have hcases := @pieceLen_cases g f.pos nbytes hg hpos hlt
        rw [← hw] at hcases
        intro hvalid r hr
        have hcur := clusterIsValid_iff.mp (hvalid _ List.mem_cons_self)
        dsimp only at hcur
        rcases List.mem_cons.mp hr with rfl | hmem
        · refine ⟨Nat.le_refl _, ?_⟩
          rw [Nat.sub_self]
          exact hstart f
        rcases hcases with ⟨hall, hin⟩ | ⟨hend, hwn, -⟩
        · -- the last round
          rw [hall, moveFilePos_within fuel v₁ false hin, Nat.sub_self] at hmem
          dsimp only at hmem
          rw [readRounds_zero, ite_self] at hmem
          exact absurd hmem List.not_mem_nil
        · have hct : clusterT f.cblk = f.cblk := clusterT_of_lt (by omega)
          obtain ⟨h₂, hnext⟩ := clusterGetNext_answers hd hg h₁ f.cblk
          rw [moveFilePos_cross hg fuel hend, hct] at hvalid hmem
          generalize clusterGetNext dev g v₁ f.cblk = x at h₂ hnext hvalid hmem
          dsimp only at hvalid hmem
          rw [if_neg (Int.lt_irrefl 0)] at hvalid hmem
          -- the lookup did not fail, as the next round is in a valid cluster
          obtain ⟨r₀, hr₀, hfile⟩ := exists_first_round hmem
          have hx : x.2 = im.fat f.cblk := by
            refine hnext.resolve_right fun hbad => ?_
            have hv := hvalid r₀ (List.mem_cons_of_mem _ hr₀)
            rw [hfile] at hv
            exact absurd (show clusterIsValid fatClusterInvalid = true from hbad ▸ hv) (by decide)
          obtain ⟨hle, hcluster⟩ := ih buf₁ (total + w) (nbytes - w) h₂ (by omega)
            (fun r hr => hvalid r (List.mem_cons_of_mem _ hr)) r hmem
          obtain ⟨k, hk⟩ := Nat.exists_eq_add_of_le hle
          have hmod : u32 (f.pos + w : Nat) % g.clusterByteSize = 0 := by
            rw [u32_nat, mod_clusterByteSize hg]
            exact add_mod_of_eq hend
          have hoff : f.pos % g.clusterByteSize + (r.total - total) = g.clusterByteSize + k := by
            omega
          refine ⟨by omega, ?_⟩
          rw [hcluster, clusterAt, clusterAt, hmod, hoff, Nat.add_div_left _ hq,
            Function.iterate_succ_apply, hk, Nat.add_sub_cancel_left, Nat.zero_add, hx]
    · exact fun _ r hr => absurd hr List.not_mem_nil

/-- On a volume whose cache is as the disk has it, the rounds stand in the
clusters of the file when their clusters are valid. -/
theorem readRounds_valid_iff (hd : AtMost dev) (hg : g.Ok) (hc : Coherent g v) (fuel : Nat)
    {size : Nat} (hs : size < 4294967296) :
    (∀ r ∈ fatfsReadRounds dev g fuel v buf size f, r.InFile g (image g v.disk) f) ↔
      ∀ r ∈ fatfsReadRounds dev g fuel v buf size f, clusterIsValid r.file.cblk = true := by
  have hlen : readLen f size < 4294967296 := by
    unfold readLen
    split
    · exact u32_lt _
    · exact hs
  constructor
  · exact fun h r hr => (h r hr).1
  · intro h r hr
    obtain ⟨-, hcluster⟩ := readRounds_follow hd hg fuel _ buf 0 _ ⟨rfl, hc⟩ hlen h r hr
    exact ⟨h r hr, hcluster⟩

end Lookups

/-! ## Both calls -/

/-- The count of `fatfs_read` is that of bytes read from the file exactly when
every round that it counts stood in the cluster of the file, which on a volume
whose cache is as the disk has it means in a valid one, and moved all the
sectors its bytes lie in. The count of `fatfs_write` is that of bytes that
reached the disk exactly when every round moved all these sectors. -/
theorem counts_true_iff (dev : Dev) {g : Fat} (hg : g.Ok) (fuel size : Nat) (v : Volume)
    (buf : Nat → UInt8) (f : File) :
    (ReadCountTrue dev g fuel v buf size f ↔
      ∀ r ∈ fatfsReadRounds dev g fuel v buf size f,
        r.InFile g (image g v.disk) f ∧ r.Whole g) ∧
    (AtMost dev → Coherent g v → size < 4294967296 →
      (ReadCountTrue dev g fuel v buf size f ↔
        ∀ r ∈ fatfsReadRounds dev g fuel v buf size f,
          clusterIsValid r.file.cblk = true ∧ r.Whole g)) ∧
    ∀ result, fatfsWrite dev g fuel v buf size f = some result →
      (WriteCountTrue dev g fuel v buf size f ↔
        ∀ r ∈ fatfsWriteRounds dev g fuel v buf size f, r.Whole g) := by
  refine ⟨readCountTrue_iff hg, fun hd hc hs => ?_,
    fun result hr => writeCountTrue_iff hg.clusterByteSize_pos hr⟩
  rw [readCountTrue_iff hg, forall₂_and, forall₂_and, readRounds_valid_iff hd hg hc fuel hs]

/-- A disk that reports an error for the first sector of its `k`-th request. -/
def errorAt (k : Nat) : Dev := diskDev fun i _ => if i = k then -1 else 0

theorem counts_true_two :
    ReadCountTrue (errorAt 9) tinyFat 0 twoClusterVol (fun _ => 0) 600 twoClusterFile ∧
      WriteCountTrue (errorAt 9) tinyFat 0 twoClusterVol (bufOf [1, 2, 3]) 3 twoClusterFile := by
  have hsome : (fatfsWrite (errorAt 9) tinyFat 0 twoClusterVol (bufOf [1, 2, 3]) 3
      twoClusterFile).isSome = true := by decide +kernel
  obtain ⟨result, hr⟩ := Option.isSome_iff_exists.mp hsome
  have hread := counts_true_iff (errorAt 9) tinyFat_ok 0 600 twoClusterVol (fun _ => 0)
    twoClusterFile
  have hwrite := counts_true_iff (errorAt 9) tinyFat_ok 0 3 twoClusterVol (bufOf [1, 2, 3])
    twoClusterFile
  exact ⟨hread.1.mpr (by decide +kernel), (hwrite.2.2 result hr).mpr (by decide +kernel)⟩

/-- The disk reports an error for the only sector of a request. `fatfs_read` returns
100 with nothing read, `fatfs_write` 3 with nothing written. -/
theorem short_transfer_counted :
    (∃ v' f' buf', fatfsRead (errorAt 0) tinyFat 0 twoClusterVol (fun _ => 0) 100 twoClusterFile =
        some (v', f', buf', 100) ∧ buf' 0 = 0 ∧
      fileByte tinyFat (image tinyFat twoClusterVol.disk) twoClusterFile.sblk 0 = 65) ∧
    ¬ReadCountTrue (errorAt 0) tinyFat 0 twoClusterVol (fun _ => 0) 100 twoClusterFile ∧
    (∃ v' f', fatfsWrite (errorAt 1) tinyFat 0 twoClusterVol (bufOf [1, 2, 3]) 3 twoClusterFile =
        some (v', f', 3) ∧
      fileByte tinyFat (image tinyFat v'.disk) twoClusterFile.sblk 0 = 65) ∧
    ¬WriteCountTrue (errorAt 1) tinyFat 0 twoClusterVol (bufOf [1, 2, 3]) 3 twoClusterFile := by
  have hread : (fatfsRead (errorAt 0) tinyFat 0 twoClusterVol (fun _ => 0) 100
      twoClusterFile).map (fun r => (r.2.2.1 0, r.2.2.2)) = some (0, 100) := by decide +kernel
  have hwrite : (fatfsWrite (errorAt 1) tinyFat 0 twoClusterVol (bufOf [1, 2, 3]) 3
      twoClusterFile).map (fun r => (fileByte tinyFat (image tinyFat r.1.disk)
        twoClusterFile.sblk 0, r.2.2)) = some (65, 3) := by decide +kernel
  obtain ⟨⟨v', f', buf', n⟩, hr, he⟩ := Option.map_eq_some_iff.mp hread
  obtain ⟨hbyte, rfl⟩ := Prod.mk.inj he
  obtain ⟨⟨w', h', m⟩, hw, he⟩ := Option.map_eq_some_iff.mp hwrite
  obtain ⟨hold, rfl⟩ := Prod.mk.inj he
  refine ⟨⟨v', f', buf', hr, hbyte, by decide +kernel⟩, fun h => ?_, ⟨w', h', hw, hold⟩,
    fun h => ?_⟩
  · exact absurd ((readCountTrue_iff tinyFat_ok).mp h) (by decide +kernel)
  · exact absurd ((writeCountTrue_iff (by decide) hw).mp h) (by decide +kernel)

end Wjos
