/-
Wjos.Fs.Fatfs.CacheFaults — what failing transfers do to the sector cache.

`CacheHonest` says that the cached sector, if there is one, is as the disk has
it. A call of the device that fails transfers fewer sectors than it was asked
for. `bread_sector` is safe against that: it moves `curr_sector` only once the
sector is there. The writers are not. `cluster_set_next`, `write_dir_entry` and
`fatfs_close` change `fat_buffer` in place before they write it, and when the
write fails the change stays in the cache, under the sector it was never
written to. `fatfs_write` of a whole cluster goes past the cache, and the
first cluster of a directory entry may put it on any sector.

`cacheRisks` lists the writes of a call that may part the cache from the disk,
with the volume before each, and `CacheRisk.Safe` says which of them do not:
`bwriteSector_honest_iff` and `devWrite_honest_iff` show that it is exact for
each write. `cache_never_lies` is the result for whole runs, and
`failed_create_found` the run that the condition excludes: a file that was
never written to the disk is opened.
-/
import Wjos.Fs.Fatfs.FreeChain
import Wjos.Fs.Fatfs.ReadOnly

namespace Wjos

open Lib

/-- `curr_sector` is `-1`, or the first sector of `fat_buffer` is as the disk
has it. -/
def CacheHonest (v : Volume) : Prop :=
  v.currSector = -1 ∨ 0 ≤ v.currSector ∧
    ∀ i < sectorSize, v.fatBuffer i = v.disk (v.currSector.toNat * sectorSize + i)

instance (v : Volume) : Decidable (CacheHonest v) := by
  unfold CacheHonest
  infer_instance

/-- No call transfers more than it was asked for; one that fails, less. -/
def AtMost (dev : Dev) : Prop := ∀ k n : Nat, dev k n ≤ n

/-! ## The writes that may part the cache from the disk -/

/-- `bwrite_sector` of the cached sector, or `dev_write` of a whole cluster
from the buffer of the caller, in the volume before it. -/
inductive CacheRisk where
  | sector (v : Volume)
  | cluster (v : Volume) (addr : Nat) (buf : Nat → UInt8)

/-- The buffer is written, or is what the disk has; a whole cluster brings the
cached sector, where it is among those written, what the cache has. -/
def CacheRisk.Safe (dev : Dev) (g : Fat) : CacheRisk → Prop
  | .sector v => CacheHonest v ∨ dev v.calls 1 = 1
  | .cluster v addr buf => 0 ≤ v.currSector → addr ≤ v.currSector.toNat →
      v.currSector.toNat < addr + (dev v.calls g.secPerCluster).toNat →
      ∀ i < sectorSize, buf ((v.currSector.toNat - addr) * sectorSize + i) = v.fatBuffer i

instance (dev : Dev) (g : Fat) (r : CacheRisk) : Decidable (r.Safe dev g) := by
  cases r <;> unfold CacheRisk.Safe <;> infer_instance

/-- `cluster_set_next`: the first copy is the cached sector. -/
def setNextRisks (dev : Dev) (g : Fat) (v : Volume) (curr next : Nat) : List CacheRisk :=
  if clusterIsValid curr = false then []
  else
    let offset := curr * clusterSize
    let sector := offset / g.bytesPerSec
    if sector ≥ g.tblSectors then []
    else
      let (v, err) := breadSector dev v (g.tblStart + sector)
      if err < 0 then []
      else [.sector { v with fatBuffer := put16 v.fatBuffer (offset % g.bytesPerSec) next }]

/-- `write_dir_entry`. -/
def writeDirRisks (dev : Dev) (g : Fat) (v : Volume) (item : DirItem) (index : Int) :
    List CacheRisk :=
  if index < 0 ∨ index ≥ g.rootEntCnt then []
  else
    let offset := index.toNat * diritemSize
    let (v, err) := breadSector dev v (g.rootStart + offset / g.bytesPerSec)
    if err < 0 then []
    else
      let buffer := copyTo v.fatBuffer (offset % g.bytesPerSec) diritemSize item
      [.sector { v with fatBuffer := buffer }]

/-- `cluster_free_chain`. -/
def freeChainRisks (dev : Dev) (g : Fat) : Nat → Volume → Nat → List CacheRisk
  | 0, _, _ => []
  | fuel + 1, v, start =>
    if clusterIsValid start then
      let (v, next) := clusterGetNext dev g v start
      setNextRisks dev g v start fatClusterFree ++
        freeChainRisks dev g fuel (clusterSetNext dev g v start fatClusterFree).1 next
    else []

/-- What `cluster_alloc_free` does after its loop. -/
def allocEndRisks (dev : Dev) (g : Fat) (fuel : Nat) (v : Volume) (pre start cnt : Nat) :
    List CacheRisk :=
  if cnt = 0 then
    setNextRisks dev g v pre fatClusterInvalid ++
      let (v, err) := clusterSetNext dev g v pre fatClusterInvalid
      if err = 0 then [] else freeChainRisks dev g fuel v start
  else freeChainRisks dev g fuel v start

/-- The loop of `cluster_alloc_free`, with what follows it. -/
def allocLoopRisks (dev : Dev) (g : Fat) (fuel : Nat) :
    Nat → Volume → (pre start curr cnt : Nat) → List CacheRisk
  | 0, _, _, _, _, _ => []
  | n + 1, v, pre, start, curr, cnt =>
    if cnt ≠ 0 ∧ curr < g.cTotal then
      let (v, free) := clusterGetNext dev g v curr
      if free = fatClusterFree then
        let start := if clusterIsValid start then start else curr
        (if clusterIsValid pre then setNextRisks dev g v pre curr else []) ++
          let (v, err) := if clusterIsValid pre then clusterSetNext dev g v pre curr else (v, 0)
          if err < 0 then freeChainRisks dev g fuel v start
          else allocLoopRisks dev g fuel n v curr start ((curr + 1) % 65536) (cnt - 1)
      else allocLoopRisks dev g fuel n v pre start ((curr + 1) % 65536) cnt
    else allocEndRisks dev g fuel v pre start cnt

/-- `cluster_alloc_free`. -/
def allocFreeRisks (dev : Dev) (g : Fat) (fuel : Nat) (v : Volume) (cnt : Nat) : List CacheRisk :=
  allocLoopRisks dev g fuel fuel v fatClusterInvalid fatClusterInvalid 2 cnt

/-- `expand_file`. -/
def expandRisks (dev : Dev) (g : Fat) (fuel : Nat) (v : Volume) (file : File) (incrBytes : Int) :
    List CacheRisk :=
  match expandCnt g file.size incrBytes with
  | none => []
  | some clusterCnt =>
    allocFreeRisks dev g fuel v clusterCnt ++
      match clusterAllocFree dev g fuel v clusterCnt with
      | none => []
      | some (v, start) =>
        if clusterIsValid start = false then []
        else if clusterIsValid (clusterT file.sblk) = false then []
        else setNextRisks dev g v (clusterT file.cblk) start

/-- `move_file_pos`. -/
def moveRisks (dev : Dev) (g : Fat) (fuel : Nat) (v : Volume) (file : File) (moveBytes : Nat)
    (expand : Bool) : List CacheRisk :=
  let cOffset := file.pos % g.clusterByteSize
  if u32 (cOffset + moveBytes) ≥ g.clusterByteSize then
    let (v, next) := clusterGetNext dev g v (clusterT file.cblk)
    if next = fatClusterInvalid ∧ expand then expandRisks dev g fuel v file g.clusterByteSize
    else []
  else []

/-- One transfer of `fatfs_write`: a cluster that goes through the cache leaves
`curr_sector` at `-1`. -/
def writeClusterRisks (g : Fat) (v : Volume) (file : File) (buf : Nat → UInt8)
    (total nbytes : Nat) : List CacheRisk :=
  if file.pos % g.clusterByteSize = 0 ∧ nbytes = g.clusterByteSize then
    [.cluster v (startSector g file) fun i => buf (total + i)]
  else []

/-- The loop of `fatfs_write`. -/
def writeLoopRisks (dev : Dev) (g : Fat) (fuel : Nat) (buf : Nat → UInt8) :
    Nat → Volume → File → (total nbytes : Nat) → List CacheRisk
  | 0, _, _, _, _ => []
  | n + 1, v, file, total, nbytes =>
    if nbytes > 0 then
      writeClusterRisks g v file buf total nbytes ++
        let (v, err, currWrite) := writeCluster dev g v file buf total nbytes
        if err < 0 then []
        else
          let file := { file with size := u32 (file.size + currWrite) }
          moveRisks dev g fuel v file currWrite true ++
            match moveFilePos dev g fuel v file currWrite true with
            | none => []
            | some (v, file, err) =>
              if err < 0 then []
              else writeLoopRisks dev g fuel buf n v file (total + currWrite) (nbytes - currWrite)
    else []

/-- `fatfs_write`. -/
def fatfsWriteRisks (dev : Dev) (g : Fat) (fuel : Nat) (v : Volume) (buf : Nat → UInt8)
    (size : Nat) (file : File) : List CacheRisk :=
  if u32 (file.pos + size) > file.size then
    expandRisks dev g fuel v file (cInt (file.pos + size - file.size)) ++
      match expandFile dev g fuel v file (cInt (file.pos + size - file.size)) with
      | none => []
      | some (v, file, err) =>
        if err < 0 then [] else writeLoopRisks dev g fuel buf size v file 0 size
  else writeLoopRisks dev g fuel buf size v file 0 size

/-- `fatfs_open`. -/
def fatfsOpenRisks (dev : Dev) (g : Fat) (fuel : Nat) (v : Volume) (path : List UInt8)
    (file : File) : List CacheRisk :=
  match openScan dev g path g.rootEntCnt v 0 (-1) with
  | (_, none) => []
  | (v, some (some p, pIndex)) =>
    let file := readFromDiritem file (itemAt v p) pIndex
    if file.mode &&& oTrunc ≠ 0 then freeChainRisks dev g fuel v (clusterT file.sblk) else []
  | (v, some (none, pIndex)) =>
    if file.mode &&& oCreat ≠ 0 then
      writeDirRisks dev g v (diritemInit v.stack 0 path) pIndex
    else []

/-- `fatfs_close`. -/
def fatfsCloseRisks (dev : Dev) (g : Fat) (v : Volume) (file : File) : List CacheRisk :=
  if file.mode &&& oRdonly ≠ 0 then []
  else
    match readDirEntry dev g v file.pIndex with
    | (_, none) => []
    | (v, some p) =>
      let buffer := put32 v.fatBuffer (p + 28) file.size
      let buffer := put16 buffer (p + 20) (file.sblk / 65536)
      let buffer := put16 buffer (p + 26) (file.sblk % 65536)
      let v := { v with fatBuffer := buffer }
      writeDirRisks dev g v (itemAt v p) file.pIndex

/-- The loop of `fatfs_unlink`. -/
def unlinkRisks (dev : Dev) (g : Fat) (fuel : Nat) (path : List UInt8) :
    Nat → Volume → (i : Nat) → List CacheRisk
  | 0, _, _ => []
  | n + 1, v, i =>
    match readDirEntry dev g v i with
    | (_, none) => []
    | (v, some p) =>
      let item := itemAt v p
      if item 0 = diritemNameEnd then []
      else if item 0 = diritemNameFree then unlinkRisks dev g fuel path n v (i + 1)
      else if diritemNameMatch item path then
        let cluster := item.fstClusHI * 65536 + item.fstClusL0
        freeChainRisks dev g fuel v (clusterT cluster) ++
          match clusterFreeChain dev g fuel v (clusterT cluster) with
          | none => []
          | some v => writeDirRisks dev g v (fun _ => 0) i
      else unlinkRisks dev g fuel path n v (i + 1)

/-- The writes of a call that may part the cache from the disk; the other
calls only read. -/
def cacheRisks (dev : Dev) (g : Fat) (fuel : Nat) (s : FatFs) : FatEvent → List CacheRisk
  | .fatfsOpen h path mode =>
    match s.files h with
    | some _ => []
    | none => fatfsOpenRisks dev g fuel s.vol path (fileNew mode)
  | .fatfsWrite h buf =>
    match s.files h with
    | none => []
    | some file => fatfsWriteRisks dev g fuel s.vol (bufOf buf) buf.length file
  | .fatfsClose h =>
    match s.files h with
    | none => []
    | some file => fatfsCloseRisks dev g s.vol file
  | .fatfsUnlink path => unlinkRisks dev g fuel path g.rootEntCnt s.vol 0
  | _ => []

/-- All of them are safe. -/
def AllSafe (dev : Dev) (g : Fat) (rs : List CacheRisk) : Prop := ∀ r ∈ rs, r.Safe dev g

instance (dev : Dev) (g : Fat) (rs : List CacheRisk) : Decidable (AllSafe dev g rs) := by
  unfold AllSafe
  infer_instance

@[simp] theorem allSafe_nil (dev : Dev) (g : Fat) : AllSafe dev g [] := fun _ h => nomatch h

@[simp] theorem allSafe_singleton {dev : Dev} {g : Fat} {r : CacheRisk} :
    AllSafe dev g [r] ↔ r.Safe dev g := by
  simp [AllSafe]

@[simp] theorem allSafe_append {dev : Dev} {g : Fat} {rs rs' : List CacheRisk} :
    AllSafe dev g (rs ++ rs') ↔ AllSafe dev g rs ∧ AllSafe dev g rs' := by
  simp [AllSafe, or_imp, forall_and]

/-! ## One sector -/

section Sectors

variable {dev : Dev} {g : Fat} {v : Volume} {sector : Nat}

/-- What `min cnt.toNat n` is for an answer that is not too large. -/
theorem min_answer {cnt : Int} {n : Nat} (h : cnt ≤ n) : min cnt.toNat n = cnt.toNat := by
  omega

/-- Where `bread_sector` fails, nothing was transferred. -/
theorem breadSector_failed (hd : AtMost dev) (h : (breadSector dev v sector).2 < 0) :
    (breadSector dev v sector).1 = { v with calls := v.calls + 1 } := by
  have hle := hd v.calls 1
  unfold breadSector at h ⊢
  dsimp only [devReadBuffer, devRead] at h ⊢
  split at h
  · exact absurd h (Int.lt_irrefl 0)
  next hne =>
    split at h
    · exact absurd h (Int.lt_irrefl 0)
    next hcnt =>
      rw [if_neg hne, if_neg hcnt, show (dev v.calls 1).toNat = 0 by omega]
      simp only [Nat.zero_min, Nat.zero_mul, copyTo_none]

/-- Where `bread_sector` does not fail, the sector is cached. -/
theorem breadSector_loaded (h : ¬(breadSector dev v sector).2 < 0) :
    (breadSector dev v sector).1.currSector = sector := by
  rcases breadSector_cases dev v sector with hb | hb
  · rw [hb] at h
    exact absurd (by decide) h
  · rw [hb]

/-- And the buffer holds it. -/
theorem breadSector_buffer (h : CacheOk v) (herr : ¬(breadSector dev v sector).2 < 0) {i : Nat}
    (hi : i < sectorSize) :
    (breadSector dev v sector).1.fatBuffer i = v.disk (sector * sectorSize + i) := by
  rcases breadSector_cases dev v sector with hb | hb
  · rw [hb] at herr
    exact absurd (by decide) herr
  · rw [hb]
    dsimp only [sectorBuffer]
    split
    next hc => exact h sector hc.symm i hi
    · exact copyTo_zero_of_lt hi

theorem CacheHonest.ok (h : CacheHonest v) : CacheOk v := by
  intro s hs i hi
  have hbuf := (h.resolve_left (by omega)).2 i hi
  rwa [hs, Int.toNat_natCast] at hbuf

/-- A loaded sector is the cached one, as the disk has it. -/
theorem breadSector_honest (hd : AtMost dev) (h : CacheHonest v) (sector : Nat) :
    CacheHonest (breadSector dev v sector).1 := by
  by_cases herr : (breadSector dev v sector).2 < 0
  · rw [breadSector_failed hd herr]
    exact h
  · refine .inr ⟨?_, fun i hi => ?_⟩
    · rw [breadSector_loaded herr]
      exact Int.natCast_nonneg sector
    · rw [breadSector_loaded herr, Int.toNat_natCast, breadSector_disk]
      exact breadSector_buffer h.ok herr hi

/-- A failed write, or the whole sector. -/
theorem bwriteSector_disk_cases (hd : AtMost dev) (v : Volume) (sector : Nat) :
    dev v.calls 1 = 1 ∧ (bwriteSector dev v sector).1.disk =
        copyTo v.disk (sector * sectorSize) sectorSize v.fatBuffer ∨
      dev v.calls 1 ≠ 1 ∧ (bwriteSector dev v sector).1.disk = v.disk := by
  have hle := hd v.calls 1
  dsimp only [bwriteSector, devWrite]
  by_cases h : dev v.calls 1 = 1
  · rw [h]
    exact .inl ⟨rfl, rfl⟩
  · refine .inr ⟨h, ?_⟩
    rw [show (dev v.calls 1).toNat = 0 by omega]
    exact copyTo_none ..

/-- `bwrite_sector` of the cached sector: the condition is exact. -/
theorem bwriteSector_honest_iff (hd : AtMost dev) (hc : v.currSector = sector) :
    CacheHonest (bwriteSector dev v sector).1 ↔ (CacheRisk.sector v).Safe dev g := by
  have hcurr : (bwriteSector dev v sector).1.currSector = v.currSector := rfl
  have hbuf : (bwriteSector dev v sector).1.fatBuffer = v.fatBuffer := rfl
  rcases bwriteSector_disk_cases hd v sector with ⟨hcnt, hdisk⟩ | ⟨hcnt, hdisk⟩
  · refine iff_of_true (.inr ⟨?_, fun i hi => ?_⟩) (.inr hcnt)
    · rw [hcurr, hc]
      exact Int.natCast_nonneg sector
    · rw [hcurr, hbuf, hdisk, hc, Int.toNat_natCast, copyTo_add hi]
  · simp only [CacheHonest, hcurr, hbuf, hdisk, CacheRisk.Safe, hcnt, or_false]

theorem CacheRisk.Safe.bwrite (h : (CacheRisk.sector v).Safe dev g) (hd : AtMost dev)
    (hc : v.currSector = sector) : CacheHonest (bwriteSector dev v sector).1 :=
  (bwriteSector_honest_iff hd hc).mpr h

/-- `bwrite_sector` of another sector. -/
theorem bwriteSector_honest_of_ne (hd : AtMost dev) (h : CacheHonest v)
    (hc : v.currSector ≠ sector) : CacheHonest (bwriteSector dev v sector).1 := by
  rcases bwriteSector_disk_cases hd v sector with ⟨-, hdisk⟩ | ⟨-, hdisk⟩
  · refine h.imp_right fun ⟨hn, hbuf⟩ => ⟨hn, fun i hi => (hbuf i hi).trans ?_⟩
    rw [hdisk]
    have hne : v.currSector.toNat ≠ sector := by omega
    exact ((copyTo_sector hi).trans (if_neg hne)).symm
  · unfold CacheHonest
    rw [hdisk]
    exact h

/-- `dev_write` of a whole cluster: the condition is exact. -/
theorem devWrite_honest_iff (hd : AtMost dev) (h : CacheHonest v) {addr : Nat}
    {buf : Nat → UInt8} :
    CacheHonest (devWrite dev v addr buf g.secPerCluster).1 ↔
      (CacheRisk.cluster v addr buf).Safe dev g := by
  have hmin := min_answer (hd v.calls g.secPerCluster)
  have hdisk : (devWrite dev v addr buf g.secPerCluster).1.disk =
      copyTo v.disk (addr * sectorSize) ((dev v.calls g.secPerCluster).toNat * sectorSize) buf := by
    rw [← hmin]
    rfl
  have hcurr : (devWrite dev v addr buf g.secPerCluster).1.currSector = v.currSector := rfl
  have hbuf : (devWrite dev v addr buf g.secPerCluster).1.fatBuffer = v.fatBuffer := rfl
  simp only [CacheHonest, CacheRisk.Safe, hdisk, hcurr, hbuf, sectorSize] at h ⊢
  generalize (dev v.calls g.secPerCluster).toNat = n
  constructor
  · intro h' hn h₁ h₂ i hi
    have hold := (h'.resolve_left (by omega)).2 i hi
    rw [copyTo_of_mem (by omega) (by omega)] at hold
    rw [hold]
    congr 1
    omega
  · intro hs
    refine h.imp_right fun hcached => ⟨hcached.1, fun i hi => ?_⟩
    have hn := hcached.1
    have hold := hcached.2
    by_cases hin : addr ≤ v.currSector.toNat ∧ v.currSector.toNat < addr + n
    · rw [copyTo_of_mem (by omega) (by omega), ← hs hn hin.1 hin.2 i hi]
      congr 1
      omega
    · rw [hold i hi]
      rcases Nat.lt_or_ge v.currSector.toNat addr with hlt | hge
      · exact (copyTo_of_lt (by omega)).symm
      · exact (copyTo_of_ge (by omega)).symm

end Sectors

/-! ## Calls that only read -/

section Readers

variable {dev : Dev} {g : Fat} {fuel : Nat} {v : Volume}

theorem readDirEntry_honest (hd : AtMost dev) (h : CacheHonest v) (index : Int) :
    CacheHonest (readDirEntry dev g v index).1 := by
  unfold readDirEntry
  split
  · exact h
  · dsimp only
    split <;> exact breadSector_honest hd h _

theorem clusterGetNext_honest (hd : AtMost dev) (h : CacheHonest v) (curr : Nat) :
    CacheHonest (clusterGetNext dev g v curr).1 := by
  unfold clusterGetNext
  split
  · exact h
  · dsimp only
    split
    · exact h
    · split <;> exact breadSector_honest hd h _

theorem openScan_honest (hd : AtMost dev) (path : List UInt8) (n : Nat) :
    ∀ {v : Volume} (i : Nat) (pIndex : Int), CacheHonest v →
      CacheHonest (openScan dev g path n v i pIndex).1 := by
  induction n with
  | zero => exact fun _ _ h => h
  | succ n ih =>
    intro v i pIndex h
    have hr := readDirEntry_honest (g := g) hd h i
    rw [openScan]
    generalize readDirEntry dev g v i = r at hr
    obtain ⟨v₁, _ | p⟩ := r
    · exact hr
    · dsimp only
      split
      · exact hr
      · split
        · exact ih _ _ hr
        · split
          · exact hr
          · exact ih _ _ hr

theorem readdirLoop_honest (hd : AtMost dev) (dirent : Dirent) (n : Nat) :
    ∀ {v : Volume} (index : Nat), CacheHonest v →
      CacheHonest (readdirLoop dev g dirent n v index).1 := by
  induction n with
  | zero => exact fun _ h => h
  | succ n ih =>
    intro v index h
    have hr := readDirEntry_honest (g := g) hd h index
    rw [readdirLoop]
    generalize readDirEntry dev g v index = r at hr
    obtain ⟨v₁, _ | p⟩ := r
    · exact hr
    · dsimp only
      split
      · exact hr
      · split
        · exact hr
        · exact ih _ hr

theorem fatfsSeekLoop_honest (hd : AtMost dev) (n : Nat) :
    ∀ {v : Volume} {c pos offset : Nat} {r : Volume × Option (Nat × Nat)}, CacheHonest v →
      fatfsSeekLoop dev g n v c pos offset = some r → CacheHonest r.1 := by
  induction n with
  | zero =>
    intro v c pos offset r h hr
    rw [fatfsSeekLoop] at hr
    split at hr
    · cases hr
    · exact Option.some.inj hr ▸ h
  | succ n ih =>
    intro v c pos offset r h hr
    have hnext := clusterGetNext_honest (g := g) hd h c
    rw [fatfsSeekLoop] at hr
    split at hr
    · dsimp only at hr
      split at hr
      · exact Option.some.inj hr ▸ h
      · split at hr
        · exact Option.some.inj hr ▸ hnext
        · exact ih hnext hr
    · exact Option.some.inj hr ▸ h

theorem fatfsSeek_honest (hd : AtMost dev) (h : CacheHonest v) {file : File} {offset : Nat}
    {dir : Int} {r : Volume × File × Int} (hr : fatfsSeek dev g v file offset dir = some r) :
    CacheHonest r.1 := by
  unfold fatfsSeek at hr
  split at hr
  · exact Option.some.inj hr ▸ h
  · obtain ⟨x, hx, rfl⟩ := Option.map_eq_some_iff.mp hr
    have hloop := fatfsSeekLoop_honest hd _ h hx
    split <;> exact hloop

/-- A cluster that goes to the caller leaves the cache alone, one that goes
through it empties it. -/
theorem readCluster_honest (dev : Dev) (g : Fat) (h : CacheHonest v) (file : File)
    (buf : Nat → UInt8) (total nbytes : Nat) :
    CacheHonest (readCluster dev g v file buf total nbytes).1 := by
  unfold readCluster
  dsimp only
  split
  · exact h
  · split <;> exact .inl rfl

end Readers

/-! ## The tables -/

section Chains

variable {dev : Dev} {g : Fat} {fuel : Nat} {v v' : Volume} {file file' : File}

/-- The copies of the table behind the cached one. -/
theorem writeCopies_honest (hd : AtMost dev) (n : Nat) :
    ∀ {v : Volume} {sector : Nat}, CacheHonest v → v.currSector < (g.tblStart + sector : Nat) →
      CacheHonest (writeCopies dev g n v sector).1 := by
  induction n with
  | zero => exact fun h _ => h
  | succ n ih =>
    intro v sector h hlt
    have hw := bwriteSector_honest_of_ne hd h (Int.ne_of_lt hlt)
    simp only [writeCopies]
    split
    · exact hw
    · refine ih hw ?_
      show v.currSector < (g.tblStart + (sector + g.tblSectors) : Nat)
      omega

theorem clusterSetNext_honest (hd : AtMost dev) (hcnt : g.tblCnt = 2) (h : CacheHonest v)
    {curr next : Nat} (hs : AllSafe dev g (setNextRisks dev g v curr next)) :
    CacheHonest (clusterSetNext dev g v curr next).1 := by
  unfold setNextRisks at hs
  unfold clusterSetNext
  split
  · exact h
  next hvalid =>
    rw [if_neg hvalid] at hs
    dsimp only at hs ⊢
    split
    · exact h
    next hsector =>
      rw [if_neg hsector] at hs
      have hb := breadSector_honest hd h (g.tblStart + curr * clusterSize / g.bytesPerSec)
      split
      · exact hb
      next herr =>
        have hload := breadSector_loaded herr
        rw [if_neg herr, allSafe_singleton] at hs
        rw [hcnt]
        simp only [writeCopies]
        -- the first copy is the cached sector, the second one is not
        have hw := hs.bwrite hd hload
        split
        · exact hw
        · refine writeCopies_honest hd 1 hw ?_
          show (breadSector dev v _).1.currSector < _
          have hpos : 0 < g.tblSectors :=
            Nat.lt_of_le_of_lt (Nat.zero_le _) (Nat.lt_of_not_le hsector)
          rw [hload]
          exact Int.ofNat_lt.mpr (Nat.add_lt_add_left (Nat.lt_add_of_pos_right hpos) _)

theorem clusterFreeChain_honest (hd : AtMost dev) (hcnt : g.tblCnt = 2) (fuel : Nat) :
    ∀ {v v' : Volume} {start : Nat}, CacheHonest v →
      AllSafe dev g (freeChainRisks dev g fuel v start) →
      clusterFreeChain dev g fuel v start = some v' → CacheHonest v' := by
  induction fuel with
  | zero =>
    intro v v' start h _ hr
    rw [clusterFreeChain] at hr
    split at hr
    · cases hr
    · exact Option.some.inj hr ▸ h
  | succ fuel ih =>
    intro v v' start h hs hr
    rw [freeChainRisks] at hs
    rw [clusterFreeChain] at hr
    split at hr
    next hvalid =>
      rw [if_pos hvalid] at hs
      obtain ⟨hset, hrest⟩ := allSafe_append.mp hs
      have hget := clusterGetNext_honest (g := g) hd h start
      exact ih (clusterSetNext_honest hd hcnt hget hset) hrest hr
    · exact Option.some.inj hr ▸ h

theorem clusterAllocFailed_honest (hd : AtMost dev) (hcnt : g.tblCnt = 2) (h : CacheHonest v)
    {start r : Nat} (hs : AllSafe dev g (freeChainRisks dev g fuel v start))
    (hr : clusterAllocFailed dev g fuel v start = some (v', r)) : CacheHonest v' := by
  obtain ⟨v₁, hfree, he⟩ := Option.map_eq_some_iff.mp hr
  obtain ⟨rfl, -⟩ := Prod.mk.inj he
  exact clusterFreeChain_honest hd hcnt fuel h hs hfree

theorem clusterAllocEnd_honest (hd : AtMost dev) (hcnt : g.tblCnt = 2) (h : CacheHonest v)
    {pre start cnt r : Nat} (hs : AllSafe dev g (allocEndRisks dev g fuel v pre start cnt))
    (hr : clusterAllocEnd dev g fuel v pre start cnt = some (v', r)) : CacheHonest v' := by
  unfold allocEndRisks at hs
  unfold clusterAllocEnd at hr
  split at hr
  next hzero =>
    rw [if_pos hzero] at hs
    obtain ⟨hset, hrest⟩ := allSafe_append.mp hs
    have hlast := clusterSetNext_honest hd hcnt h hset
    dsimp only at hr hrest
    split at hr
    · obtain ⟨rfl, -⟩ := Prod.mk.inj (Option.some.inj hr)
      exact hlast
    next herr =>
      rw [if_neg herr] at hrest
      exact clusterAllocFailed_honest hd hcnt hlast hrest hr
  next hzero =>
    rw [if_neg hzero] at hs
    exact clusterAllocFailed_honest hd hcnt h hs hr

theorem clusterAllocLoop_honest (hd : AtMost dev) (hcnt : g.tblCnt = 2) (n : Nat) {r : Nat} :
    ∀ {v : Volume} {pre start curr cnt : Nat}, CacheHonest v →
      AllSafe dev g (allocLoopRisks dev g fuel n v pre start curr cnt) →
      clusterAllocLoop dev g fuel n v pre start curr cnt = some (v', r) → CacheHonest v' := by
  induction n with
  | zero => exact fun _ _ hr => nomatch hr
  | succ n ih =>
    intro v pre start curr cnt h hs hr
    have hget := clusterGetNext_honest (g := g) hd h curr
    rw [allocLoopRisks] at hs
    rw [clusterAllocLoop] at hr
    split at hr
    next hgo =>
      rw [if_pos hgo] at hs
      dsimp only at hs hr
      split at hr
      next hfree =>
        rw [if_pos hfree] at hs
        obtain ⟨hset, hrest⟩ := allSafe_append.mp hs
        -- the entry of the last cluster found, if there is one
        have hlink : CacheHonest
            (if clusterIsValid pre then
              clusterSetNext dev g (clusterGetNext dev g v curr).1 pre curr
            else ((clusterGetNext dev g v curr).1, 0)).1 := by
          cases hpre : clusterIsValid pre with
          | true =>
            rw [if_pos hpre] at hset
            exact clusterSetNext_honest hd hcnt hget hset
          | false => exact hget
        generalize (if clusterIsValid pre then
            clusterSetNext dev g (clusterGetNext dev g v curr).1 pre curr
          else ((clusterGetNext dev g v curr).1, 0)) = link at hlink hrest hr
        split at hr
        next herr =>
          rw [if_pos herr] at hrest
          exact clusterAllocFailed_honest hd hcnt hlink hrest hr
        next herr =>
          rw [if_neg herr] at hrest
          exact ih hlink hrest hr
      next hfree =>
        rw [if_neg hfree] at hs
        exact ih hget hs hr
    next hgo =>
      rw [if_neg hgo] at hs
      exact clusterAllocEnd_honest hd hcnt h hs hr

theorem expandFile_honest (hd : AtMost dev) (hcnt : g.tblCnt = 2) (h : CacheHonest v)
    {incr err : Int} (hs : AllSafe dev g (expandRisks dev g fuel v file incr))
    (hr : expandFile dev g fuel v file incr = some (v', file', err)) : CacheHonest v' := by
  unfold expandRisks at hs
  unfold expandFile at hr
  generalize expandCnt g file.size incr = need at hs hr
  cases need with
  | none =>
    obtain ⟨rfl, -⟩ := Prod.mk.inj (Option.some.inj hr)
    exact h
  | some cnt =>
    obtain ⟨⟨v₁, start⟩, halloc, hr⟩ := Option.map_eq_some_iff.mp hr
    obtain ⟨hfree, hlast⟩ := allSafe_append.mp hs
    have h₁ := clusterAllocLoop_honest hd hcnt fuel h hfree halloc
    rw [halloc] at hlast
    dsimp only at hr hlast
    split at hr
    · obtain ⟨rfl, -⟩ := Prod.mk.inj hr
      exact h₁
    next hstart =>
      rw [if_neg hstart] at hlast
      split at hr
      · obtain ⟨rfl, -⟩ := Prod.mk.inj hr
        exact h₁
      next hsblk =>
        rw [if_neg hsblk] at hlast
        obtain ⟨rfl, -⟩ := Prod.mk.inj hr
        exact clusterSetNext_honest hd hcnt h₁ hlast

theorem moveFilePos_honest (hd : AtMost dev) (hcnt : g.tblCnt = 2) (h : CacheHonest v)
    {n : Nat} {expand : Bool} {err : Int}
    (hs : AllSafe dev g (moveRisks dev g fuel v file n expand))
    (hr : moveFilePos dev g fuel v file n expand = some (v', file', err)) : CacheHonest v' := by
  have hget := clusterGetNext_honest (g := g) hd h (clusterT file.cblk)
  unfold moveRisks at hs
  unfold moveFilePos at hr
  dsimp only at hs hr
  split at hr
  next hcross =>
    rw [if_pos hcross] at hs
    split at hr
    next hlast =>
      rw [if_pos hlast] at hs
      obtain ⟨⟨v₁, file₁, err₁⟩, hexp, hr⟩ := Option.map_eq_some_iff.mp hr
      have h₁ := expandFile_honest hd hcnt hget hs hexp
      dsimp only at hr
      split at hr
      · obtain ⟨rfl, -⟩ := Prod.mk.inj hr
        exact h₁
      · obtain ⟨rfl, -⟩ := Prod.mk.inj hr
        exact clusterGetNext_honest hd h₁ _
    · obtain ⟨rfl, -⟩ := Prod.mk.inj (Option.some.inj hr)
      exact hget
  · obtain ⟨rfl, -⟩ := Prod.mk.inj (Option.some.inj hr)
    exact h

end Chains

/-! ## The calls -/

section Calls

variable {dev : Dev} {g : Fat} {fuel : Nat} {v v' : Volume} {file file' : File}

theorem fatfsReadLoop_honest (hd : AtMost dev) (hcnt : g.tblCnt = 2) (n : Nat) :
    ∀ {v : Volume} {file : File} {buf : Nat → UInt8} {total nbytes : Nat}
      {r : Volume × File × (Nat → UInt8) × Nat}, CacheHonest v →
      fatfsReadLoop dev g fuel n v file buf total nbytes = some r → CacheHonest r.1 := by
  induction n with
  | zero =>
    intro v file buf total nbytes r h hr
    rw [fatfsReadLoop] at hr
    split at hr
    · cases hr
    · exact Option.some.inj hr ▸ h
  | succ n ih =>
    intro v file buf total nbytes r h hr
    have hc := readCluster_honest dev g h file buf total nbytes
    rw [fatfsReadLoop] at hr
    generalize readCluster dev g v file buf total nbytes = c at hc hr
    split at hr
    · dsimp only at hr
      split at hr
      · exact Option.some.inj hr ▸ hc
      · obtain ⟨⟨v₁, file₁, err₁⟩, hmove, hr⟩ := Option.bind_eq_some_iff.mp hr
        have hno : AllSafe dev g (moveRisks dev g fuel c.1 file c.2.2.2 false) := by
          simp [moveRisks]
        have h₁ := moveFilePos_honest hd hcnt hc hno hmove
        dsimp only at hr
        split at hr
        · exact Option.some.inj hr ▸ h₁
        · exact ih h₁ hr
    · exact Option.some.inj hr ▸ h

/-- A whole cluster from the caller, or one that goes through the cache. -/
theorem writeCluster_honest (hd : AtMost dev) (h : CacheHonest v) {buf : Nat → UInt8}
    {total nbytes : Nat} (hs : AllSafe dev g (writeClusterRisks g v file buf total nbytes)) :
    CacheHonest (writeCluster dev g v file buf total nbytes).1 := by
  unfold writeClusterRisks at hs
  unfold writeCluster
  dsimp only
  split
  next hwhole =>
    rw [if_pos hwhole, allSafe_singleton] at hs
    exact (devWrite_honest_iff hd h).mpr hs
  · split <;> exact .inl rfl

theorem fatfsWriteLoop_honest (hd : AtMost dev) (hcnt : g.tblCnt = 2) (buf : Nat → UInt8)
    (n : Nat) :
    ∀ {v : Volume} {file : File} {total nbytes : Nat} {r : Volume × File × Nat}, CacheHonest v →
      AllSafe dev g (writeLoopRisks dev g fuel buf n v file total nbytes) →
      fatfsWriteLoop dev g fuel buf n v file total nbytes = some r → CacheHonest r.1 := by
  induction n with
  | zero =>
    intro v file total nbytes r h _ hr
    rw [fatfsWriteLoop] at hr
    split at hr
    · cases hr
    · exact Option.some.inj hr ▸ h
  | succ n ih =>
    intro v file total nbytes r h hs hr
    rw [writeLoopRisks] at hs
    rw [fatfsWriteLoop] at hr
    split at hr
    next hpos =>
      rw [if_pos hpos] at hs
      obtain ⟨hcluster, hs⟩ := allSafe_append.mp hs
      have hc := writeCluster_honest hd h hcluster
      generalize writeCluster dev g v file buf total nbytes = c at hc hs hr
      dsimp only at hs hr
      split at hr
      · exact Option.some.inj hr ▸ hc
      next herr =>
        rw [if_neg herr] at hs
        obtain ⟨hmove, hrest⟩ := allSafe_append.mp hs
        obtain ⟨⟨v₁, file₁, err₁⟩, hm, hr⟩ := Option.bind_eq_some_iff.mp hr
        have h₁ := moveFilePos_honest hd hcnt hc hmove hm
        rw [hm] at hrest
        dsimp only at hrest hr
        split at hr
        · exact Option.some.inj hr ▸ h₁
        next herr₁ =>
          rw [if_neg herr₁] at hrest
          exact ih h₁ hrest hr
    · exact Option.some.inj hr ▸ h

theorem fatfsWrite_honest (hd : AtMost dev) (hcnt : g.tblCnt = 2) (h : CacheHonest v)
    {buf : Nat → UInt8} {size : Nat} {r : Volume × File × Nat}
    (hs : AllSafe dev g (fatfsWriteRisks dev g fuel v buf size file))
    (hr : fatfsWrite dev g fuel v buf size file = some r) : CacheHonest r.1 := by
  unfold fatfsWriteRisks at hs
  unfold fatfsWrite at hr
  split at hr
  next hgrow =>
    rw [if_pos hgrow] at hs
    obtain ⟨hexp, hloop⟩ := allSafe_append.mp hs
    obtain ⟨⟨v₁, file₁, err₁⟩, he, hr⟩ := Option.bind_eq_some_iff.mp hr
    have h₁ := expandFile_honest hd hcnt h hexp he
    rw [he] at hloop
    dsimp only at hloop hr
    split at hr
    · exact Option.some.inj hr ▸ h₁
    next herr =>
      rw [if_neg herr] at hloop
      exact fatfsWriteLoop_honest hd hcnt buf size h₁ hloop hr
  next hgrow =>
    rw [if_neg hgrow] at hs
    exact fatfsWriteLoop_honest hd hcnt buf size h hs hr

/-- `write_dir_entry` where the cache is as the disk has it, or holds the
sector of the entry. -/
theorem writeDirEntry_honest (hd : AtMost dev) {item : DirItem} {index : Int}
    (h : CacheHonest v ∨ 0 ≤ index ∧ index < g.rootEntCnt ∧
      v.currSector = (g.rootStart + index.toNat * diritemSize / g.bytesPerSec : Nat))
    (hs : AllSafe dev g (writeDirRisks dev g v item index)) :
    CacheHonest (writeDirEntry dev g v item index).1 := by
  unfold writeDirRisks at hs
  unfold writeDirEntry
  split
  next hout => exact h.resolve_right fun ⟨h₀, h₁, _⟩ => by omega
  next hin =>
    rw [if_neg hin] at hs
    dsimp only at hs ⊢
    split
    next herr =>
      rcases h with h | ⟨-, -, hc⟩
      · exact breadSector_honest hd h _
      · rw [breadSector, if_pos hc.symm] at herr
        exact absurd herr (Int.lt_irrefl 0)
    next herr =>
      rw [if_neg herr, allSafe_singleton] at hs
      exact hs.bwrite hd (breadSector_loaded herr)

/-- An entry that was read is in range, and its sector is cached. -/
theorem readDirEntry_loaded {index : Int} {p : Nat}
    (h : readDirEntry dev g v index = (v', some p)) :
    0 ≤ index ∧ index < g.rootEntCnt ∧
      v'.currSector = (g.rootStart + index.toNat * diritemSize / g.bytesPerSec : Nat) := by
  unfold readDirEntry at h
  split at h
  · cases h
  next hin =>
    dsimp only at h
    split at h
    · cases h
    next herr =>
      obtain ⟨rfl, -⟩ := Prod.mk.inj h
      exact ⟨by omega, by omega, breadSector_loaded herr⟩

theorem fatfsOpen_honest (hd : AtMost dev) (hcnt : g.tblCnt = 2) (h : CacheHonest v)
    {path : List UInt8} {r : Volume × File × Int}
    (hs : AllSafe dev g (fatfsOpenRisks dev g fuel v path file))
    (hr : fatfsOpen dev g fuel v path file = some r) : CacheHonest r.1 := by
  have hscan := openScan_honest (g := g) hd path g.rootEntCnt 0 (-1) h
  unfold fatfsOpenRisks at hs
  unfold fatfsOpen at hr
  generalize openScan dev g path g.rootEntCnt v 0 (-1) = scan at hscan hs hr
  obtain ⟨v₁, _ | ⟨_ | p, pIndex⟩⟩ := scan
  · exact Option.some.inj hr ▸ hscan
  · -- no such file
    dsimp only at hs hr
    split at hr
    next hcreat =>
      rw [if_pos hcreat] at hs
      have hw := writeDirEntry_honest hd (.inl hscan) hs
      split at hr <;> exact Option.some.inj hr ▸ hw
    · exact Option.some.inj hr ▸ hscan
  · dsimp only at hs hr
    split at hr
    next htrunc =>
      rw [if_pos htrunc] at hs
      obtain ⟨v₂, hfree, rfl⟩ := Option.map_eq_some_iff.mp hr
      exact clusterFreeChain_honest hd hcnt fuel hscan hs hfree
    · exact Option.some.inj hr ▸ hscan

theorem fatfsClose_honest (hd : AtMost dev) (h : CacheHonest v)
    (hs : AllSafe dev g (fatfsCloseRisks dev g v file)) :
    CacheHonest (fatfsClose dev g v file) := by
  have hread := readDirEntry_honest (g := g) hd h file.pIndex
  unfold fatfsCloseRisks at hs
  unfold fatfsClose
  split
  · exact h
  next hmode =>
    rw [if_neg hmode] at hs
    generalize hr : readDirEntry dev g v file.pIndex = r at hread hs
    obtain ⟨v₁, _ | p⟩ := r
    · exact hread
    · have hload := readDirEntry_loaded hr
      exact writeDirEntry_honest hd (.inr hload) hs

theorem unlinkScan_honest (hd : AtMost dev) (hcnt : g.tblCnt = 2) (path : List UInt8) (n : Nat) :
    ∀ {v : Volume} {i : Nat} {r : Volume × Int}, CacheHonest v →
      AllSafe dev g (unlinkRisks dev g fuel path n v i) →
      unlinkScan dev g fuel path n v i = some r → CacheHonest r.1 := by
  induction n with
  | zero => exact fun h _ hr => Option.some.inj hr ▸ h
  | succ n ih =>
    intro v i r h hs hr
    have hread := readDirEntry_honest (g := g) hd h i
    rw [unlinkRisks] at hs
    rw [unlinkScan] at hr
    generalize readDirEntry dev g v i = e at hread hs hr
    obtain ⟨v₁, _ | p⟩ := e
    · exact Option.some.inj hr ▸ hread
    · dsimp only at hs hr
      split at hr
      · exact Option.some.inj hr ▸ hread
      next hend =>
        rw [if_neg hend] at hs
        split at hr
        next hfree =>
          rw [if_pos hfree] at hs
          exact ih hread hs hr
        next hfree =>
          rw [if_neg hfree] at hs
          split at hr
          next hname =>
            rw [if_pos hname] at hs
            obtain ⟨hchain, hentry⟩ := allSafe_append.mp hs
            obtain ⟨v₂, hf, rfl⟩ := Option.map_eq_some_iff.mp hr
            rw [hf] at hentry
            have h₂ := clusterFreeChain_honest hd hcnt fuel hread hchain hf
            exact writeDirEntry_honest hd (.inl h₂) hentry
          next hname =>
            rw [if_neg hname] at hs
            exact ih hread hs hr

/-! ## Runs -/

/-- Of the writes of the call that may part the cache from the disk, none
does. -/
def WritesLand (dev : Dev) (g : Fat) (fuel : Nat) (s : FatFs) (e : FatEvent) : Prop :=
  AllSafe dev g (cacheRisks dev g fuel s e)

instance (dev : Dev) (g : Fat) (fuel : Nat) (s : FatFs) (e : FatEvent) :
    Decidable (WritesLand dev g fuel s e) := by
  unfold WritesLand
  infer_instance

/-- One call. -/
theorem fatStep_honest (hd : AtMost dev) (hcnt : g.tblCnt = 2) {s s' : FatFs} {e : FatEvent}
    (h : CacheHonest s.vol) (hs : WritesLand dev g fuel s e)
    (hr : fatStep dev g fuel s e = some s') : CacheHonest s'.vol := by
  unfold WritesLand cacheRisks at hs
  unfold fatStep at hr
  cases e with
  | fatfsOpen k path mode =>
    dsimp only at hs hr
    split at hr
    · exact Option.some.inj hr ▸ h
    next hk =>
      rw [hk] at hs
      obtain ⟨⟨v₁, file₁, err₁⟩, ho, rfl⟩ := Option.map_eq_some_iff.mp hr
      have h₁ := fatfsOpen_honest hd hcnt h hs ho
      dsimp only
      split <;> exact h₁
  | fatfsRead k size =>
    dsimp only at hr
    split at hr
    · exact Option.some.inj hr ▸ h
    · obtain ⟨x, hx, rfl⟩ := Option.map_eq_some_iff.mp hr
      exact fatfsReadLoop_honest hd hcnt _ h hx
  | fatfsWrite k buf =>
    dsimp only at hs hr
    split at hr
    · exact Option.some.inj hr ▸ h
    next file hk =>
      rw [hk] at hs
      obtain ⟨x, hx, rfl⟩ := Option.map_eq_some_iff.mp hr
      exact fatfsWrite_honest hd hcnt h hs hx
  | fatfsSeek k offset dir =>
    dsimp only at hr
    split at hr
    · exact Option.some.inj hr ▸ h
    · obtain ⟨x, hx, rfl⟩ := Option.map_eq_some_iff.mp hr
      exact fatfsSeek_honest hd h hx
  | fatfsClose k =>
    dsimp only at hs hr
    split at hr
    · exact Option.some.inj hr ▸ h
    next file hk =>
      rw [hk] at hs
      obtain rfl := Option.some.inj hr
      exact fatfsClose_honest hd h hs
  | fatfsReaddir index =>
    obtain rfl := Option.some.inj hr
    exact readdirLoop_honest hd _ _ _ h
  | fatfsUnlink path =>
    obtain ⟨x, hx, rfl⟩ := Option.map_eq_some_iff.mp hr
    exact unlinkScan_honest hd hcnt path _ h hs hx

/-- In a run whose writes of the cache all get through, however the other
transfers fail, the cache is as the disk has it, and a lookup that does not
fail is answered from what is on the disk. -/
theorem cache_never_lies (hm : Mounted g) (hd : AtMost dev) {s t : FatFs} {es : List FatEvent}
    (h : CacheHonest s.vol) (hs : Along (fatStep dev g fuel) (WritesLand dev g fuel) s es)
    (hr : run (fatStep dev g fuel) s es = some t) :
    CacheHonest t.vol ∧ ∀ sector : Nat, ¬(breadSector dev t.vol sector).2 < 0 →
      ∀ i < sectorSize,
        (breadSector dev t.vol sector).1.fatBuffer i = t.vol.disk (sector * sectorSize + i) := by
  have ht : CacheHonest t.vol :=
    run_invariant_along (fun _ _ _ h hs hr => fatStep_honest hd hm.bounds.tblCnt h hs hr) h hs hr
  exact ⟨ht, fun sector herr i hi => breadSector_buffer ht.ok herr hi⟩

end Calls

/-- A device whose `k`-th call fails. -/
def failsAt (k : Nat) : Dev := fun i n => if i = k then 0 else n

theorem failsAt_atMost (k : Nat) : AtMost (failsAt k) := by
  intro i n
  unfold failsAt
  split <;> omega

/-- The first open fails as the directory cannot be read; the file is created
by the second one, written and closed. -/
def createTwice : List FatEvent :=
  [.fatfsOpen 0 [65] oCreat, .fatfsOpen 0 [65] oCreat, .fatfsWrite 0 [1, 2, 3], .fatfsClose 0]

theorem cache_never_lies_create_twice :
    ∃ t, run (fatStep (failsAt 0) tinyFat 2) blankFs createTwice = some t ∧
      CacheHonest t.vol ∧ ∀ sector : Nat, ¬(breadSector (failsAt 0) t.vol sector).2 < 0 →
        ∀ i < sectorSize, (breadSector (failsAt 0) t.vol sector).1.fatBuffer i =
          t.vol.disk (sector * sectorSize + i) := by
  have hsome : (run (fatStep (failsAt 0) tinyFat 2) blankFs createTwice).isSome = true := by
    decide +kernel
  obtain ⟨t, ht⟩ := Option.isSome_iff_exists.mp hsome
  exact ⟨t, ht, cache_never_lies tinyFat_mounted (failsAt_atMost 0) (.inl rfl)
    (by decide +kernel) ht⟩

/-- `fatfs_open` of a new file fails at the write of its entry. The entry stays
in the cache, so the cache is not as the disk has it, and a second open finds
the file. -/
theorem failed_create_found :
    AtMost (failsAt 1) ∧ blankFs.vol.currSector = -1 ∧
    ∃ t, run (fatStep (failsAt 1) tinyFat 1) blankFs
        [.fatfsOpen 0 [65] oCreat, .fatfsOpen 1 [65] oRdonly] = some t ∧
      t.files 0 = none ∧ (t.files 1).isSome = true ∧ t.vol.currSector = 3 ∧
      t.vol.fatBuffer 0 = 65 ∧ t.vol.disk (3 * sectorSize) = 0 ∧ ¬CacheHonest t.vol := by
  refine ⟨failsAt_atMost 1, rfl, _, rfl, ?_⟩
  decide +kernel

end Wjos
