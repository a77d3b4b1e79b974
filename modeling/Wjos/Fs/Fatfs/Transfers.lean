/-
Wjos.Fs.Fatfs.Transfers — where `fatfs_read` and `fatfs_write` transfer data.

`transfers` lists the first sector of every round of their loops, of
`sec_per_cluster` sectors each, and `TransfersInside` says that all of them lie
in the data area of the partition. The loops take `file->cblk` as it comes:
unlike `fatfs_seek` they do not test it with `cluster_is_valid`, and
`cluster_alloc_free` bounds its clusters by the table and not by the volume.

`TransferClear` is a condition on the state before the call: it names the
clusters that the request goes through, which are those of the chain from the
current cluster on and, behind the end mark of the chain, the lowest free
clusters of the table. `transfers_in_partition` is the result for whole runs,
on any contents of the tables and of the directory, and
`transfer_behind_partition` are two runs without the condition.
-/
import Mathlib.Data.List.Iterate
import Wjos.Lib.Run
import Wjos.Fs.Fatfs.CrossLink
import Wjos.Fs.Fatfs.FreeList

namespace Wjos

open Lib

/-! ## The transfers -/

/-- `nbytes` at the start of `fatfs_read`. -/
def readLen (file : File) (size : Nat) : Nat :=
  if u32 (file.pos + size) > file.size then u32 (file.size - file.pos) else size

/-- The first sectors of the transfers in the loop of `fatfs_read`. -/
def readSectors (dev : Dev) (g : Fat) (fuel : Nat) :
    Nat → Volume → File → (Nat → UInt8) → (total nbytes : Nat) → List Nat
  | 0, _, _, _, _, _ => []
  | n + 1, v, file, buf, total, nbytes =>
    if nbytes > 0 then
      startSector g file ::
        let (v, buf, err, currRead) := readCluster dev g v file buf total nbytes
        if err < 0 then []
        else
          match moveFilePos dev g fuel v file currRead false with
          | none => []
          | some (v, file, err) =>
            if err < 0 then []
            else readSectors dev g fuel n v file buf (total + currRead) (nbytes - currRead)
    else []

/-- The first sectors of the transfers in the loop of `fatfs_write`; a round
that reads the cluster before it writes has the same ones twice. -/
def writeSectors (dev : Dev) (g : Fat) (fuel : Nat) (buf : Nat → UInt8) :
    Nat → Volume → File → (total nbytes : Nat) → List Nat
  | 0, _, _, _, _ => []
  | n + 1, v, file, total, nbytes =>
    if nbytes > 0 then
      startSector g file ::
        let (v, err, currWrite) := writeCluster dev g v file buf total nbytes
        if err < 0 then []
        else
          let file := { file with size := u32 (file.size + currWrite) }
          match moveFilePos dev g fuel v file currWrite true with
          | none => []
          | some (v, file, err) =>
            if err < 0 then []
            else writeSectors dev g fuel buf n v file (total + currWrite) (nbytes - currWrite)
    else []

/-- The transfers of `fatfs_write`. -/
def fatfsWriteSectors (dev : Dev) (g : Fat) (fuel : Nat) (v : Volume) (buf : Nat → UInt8)
    (size : Nat) (file : File) : List Nat :=
  if u32 (file.pos + size) > file.size then
    match expandFile dev g fuel v file (cInt (file.pos + size - file.size)) with
    | none => []
    | some (v, file, err) =>
      if err < 0 then [] else writeSectors dev g fuel buf size v file 0 size
  else writeSectors dev g fuel buf size v file 0 size

/-- The first sectors of the data transfers of a call. -/
def transfers (dev : Dev) (g : Fat) (fuel : Nat) (s : FatFs) : FatEvent → List Nat
  | .fatfsRead h size =>
    match s.files h with
    | none => []
    | some file =>
      readSectors dev g fuel (readLen file size) s.vol file (fun _ => 0) 0 (readLen file size)
  | .fatfsWrite h buf =>
    match s.files h with
    | none => []
    | some file => fatfsWriteSectors dev g fuel s.vol (bufOf buf) buf.length file
  | _ => []

/-- All data transfers of the call are from and to the data area of a partition
of `totalSector` sectors. -/
def TransfersInside (dev : Dev) (g : Fat) (fuel totalSector : Nat) (s : FatFs) (e : FatEvent) :
    Prop :=
  ∀ x ∈ transfers dev g fuel s e, g.dataStart ≤ x ∧ x + g.secPerCluster ≤ totalSector

/-! ## The clusters of a request -/

/-- A cluster of the volume: it has an entry in the table, and its last sector
lies before `totalSector`. -/
def InVolume (g : Fat) (totalSector c : Nat) : Prop :=
  InTable g c ∧ g.dataStart + (c - 1) * g.secPerCluster ≤ totalSector

/-- The number of clusters that `n` bytes from position `pos` on lie in. -/
def clustersTouched (g : Fat) (pos n : Nat) : Nat :=
  if n = 0 then 0
  else max 1 ((u32 (pos % g.clusterByteSize + n : Nat) + g.clusterByteSize - 1) /
    g.clusterByteSize)

/-- The first `k` clusters of the chain from `c` on, which `free` continues
behind the end mark. -/
def clustersFrom (fat : Nat → Nat) (free : List Nat) : Nat → Nat → List Nat
  | 0, _ => []
  | k + 1, c =>
    c :: if fat c = fatClusterInvalid then free.take k else clustersFrom fat free k (fat c)

/-- The clusters that `fatfs_read` goes through. -/
def readClusters (g : Fat) (im : Image) (file : File) (size : Nat) : List Nat :=
  List.iterate im.fat file.cblk (clustersTouched g file.pos (readLen file size))

/-- The number of clusters that `fatfs_write` allocates before its loop, if it
comes to that. -/
def growCnt (g : Fat) (file : File) (size : Nat) : Option Nat :=
  if u32 (file.pos + size) > file.size then
    expandCnt g file.size (cInt (file.pos + size - file.size))
  else none

/-- The clusters that `fatfs_write` goes through: those of the chain from the
current cluster on; when it allocates clusters first, these, behind the
current cluster unless the file has none; none when that fails. -/
def writeClusters (g : Fat) (im : Image) (file : File) (size : Nat) : List Nat :=
  let k := clustersTouched g file.pos size
  let free := freeClusters g im
  match growCnt g file size with
  | none => clustersFrom im.fat free k file.cblk
  | some cnt =>
    if free.length < cnt then []
    else if clusterIsValid (clusterT file.sblk) = false then free.take k
    else if clusterIsValid (clusterT file.cblk) = false then []
    else (file.cblk :: free.filter fun c => c ≠ file.cblk).take k

/-- The condition on the state before a call. A request goes through clusters
of the volume only; one that asks for more clusters than are free finds none,
or a table that the 16-bit counter of the scan does not run round. The sizes
have the ranges of their C types. -/
def TransferClear (g : Fat) (totalSector : Nat) (s : FatFs) : FatEvent → Prop
  | .fatfsRead h size => size < 4294967296 ∧ ∀ file, s.files h = some file →
      ∀ c ∈ readClusters g (image g s.vol.disk) file size, InVolume g totalSector c
  | .fatfsWrite h buf => buf.length < 4294967296 ∧ ∀ file, s.files h = some file →
      (∀ c ∈ writeClusters g (image g s.vol.disk) file buf.length, InVolume g totalSector c) ∧
      ∀ cnt, growCnt g file buf.length = some cnt →
        (freeClusters g (image g s.vol.disk)).length < cnt →
        freeClusters g (image g s.vol.disk) = [] ∨ g.cTotal ≤ 65535
  | .fatfsSeek _ offset _ => offset < 4294967296
  | _ => True

/-- A condition on what an option holds can be tested. -/
instance decidableForallSome {α : Type*} (p : α → Prop) [DecidablePred p] :
    ∀ o : Option α, Decidable (∀ a, o = some a → p a)
  | none => isTrue fun _ h => by cases h
  | some a => decidable_of_iff (p a) (by simp)

instance (g : Fat) (totalSector c : Nat) : Decidable (InVolume g totalSector c) := by
  unfold InVolume
  infer_instance

instance (g : Fat) (totalSector : Nat) (s : FatFs) (e : FatEvent) :
    Decidable (TransferClear g totalSector s e) := by
  unfold TransferClear
  cases e <;> infer_instance

/-- What holds of every open file. -/
structure FileOk (f : File) : Prop where
  pos : f.pos < 4294967296
  size : f.size < 4294967296
  first : clusterIsValid (clusterT f.sblk) = false → clusterIsValid (clusterT f.cblk) = false

section Rounds

variable {g : Fat} {pos n : Nat}

theorem u32_nat (n : Nat) : u32 n = n % 4294967296 := by
  unfold u32
  omega

/-- The length of the first transfer. -/
def pieceLen (g : Fat) (pos n : Nat) : Nat :=
  if pos % g.clusterByteSize = 0 ∧ n = g.clusterByteSize then g.clusterByteSize
  else currPart g (pos % g.clusterByteSize) n

theorem mod_clusterByteSize (hg : g.Ok) (a : Nat) :
    a % 4294967296 % g.clusterByteSize = a % g.clusterByteSize := by
  obtain ⟨k, hk, he⟩ := hg.clusterByteSize_pow
  have hdvd : g.clusterByteSize ∣ 2 ^ 32 := he ▸ Nat.pow_dvd_pow 2 (by omega)
  exact Nat.mod_mod_of_dvd a hdvd

/-- The first transfer takes all bytes and ends inside its cluster, or it ends
with its cluster. -/
theorem pieceLen_cases (hg : g.Ok) (hn : 0 < n) (hlt : n < 4294967296) :
    pieceLen g pos n = n ∧
        u32 (pos % g.clusterByteSize + n : Nat) < g.clusterByteSize ∨
      pos % g.clusterByteSize + pieceLen g pos n = g.clusterByteSize ∧ pieceLen g pos n ≤ n ∧
        pos % g.clusterByteSize + n < 4294967296 := by
  have hq := hg.clusterByteSize_pos
  have hle := hg.clusterByteSize_le
  have ho := Nat.mod_lt pos hq
  have hcast : ((pos % g.clusterByteSize : Nat) : Int) + (n : Nat) =
      ((pos % g.clusterByteSize + n : Nat) : Int) := (Nat.cast_add ..).symm
  unfold pieceLen currPart
  rw [hcast, u32_nat]
  split
  · exact .inr (by omega)
  · split <;> omega

/-- A request that goes on behind its first cluster. -/
theorem clustersTouched_cross (hg : g.Ok) {w : Nat}
    (hw : pos % g.clusterByteSize + w = g.clusterByteSize)
    (hwn : w ≤ n) (hlt : pos % g.clusterByteSize + n < 4294967296) :
    clustersTouched g pos n = clustersTouched g (u32 (pos + w : Nat)) (n - w) + 1 := by
  have hq := hg.clusterByteSize_pos
  have ho := Nat.mod_lt pos hq
  have hmod : u32 (pos + w : Nat) % g.clusterByteSize = 0 := by
    rw [u32_nat, mod_clusterByteSize hg]
    exact add_mod_of_eq hw
  unfold clustersTouched
  rw [hmod, Nat.zero_add, u32_nat, Nat.mod_eq_of_lt hlt, u32_nat,
    Nat.mod_eq_of_lt (show n - w < 4294967296 by omega), if_neg (by omega)]
  generalize g.clusterByteSize = q at *
  obtain ⟨m, rfl⟩ := Nat.exists_eq_add_of_le hwn
  rw [Nat.add_sub_cancel_left]
  have hsum : pos % q + (w + m) + q - 1 = (m + q - 1) + q := by omega
  rw [hsum, Nat.add_div_right _ hq]
  split
  next hm =>
    subst hm
    rw [Nat.div_eq_of_lt (by omega)]
    rfl
  next hm =>
    have hpos : 0 < (m + q - 1) / q := Nat.div_pos (by omega) hq
    omega

/-- A request that ends inside its first cluster. -/
theorem clustersTouched_stay (g : Fat) (pos : Nat) (hn : 0 < n) :
    1 ≤ clustersTouched g pos n := by
  unfold clustersTouched
  rw [if_neg (by omega)]
  exact Nat.le_max_left _ _

end Rounds

/-! ## One round -/

section Round

variable {dev : Dev} {g : Fat} {fuel : Nat} {v v' : Volume} {im : Image} {f f' : File}
  {totalSector c w nbytes : Nat} {err : Int}

theorem InVolume.lt (h : InVolume g totalSector c) : c < 65536 := Nat.lt_trans h.1.lt (by decide)

/-- A transfer of a cluster of the volume. -/
theorem InVolume.startSector (hg : g.Ok) (h : InVolume g totalSector f.cblk) :
    g.dataStart ≤ startSector g f ∧ startSector g f + g.secPerCluster ≤ totalSector := by
  have h2 := h.1.two_le
  rw [startSector_eq hg h2 h.lt]
  have hmul : (f.cblk - 1) * g.secPerCluster =
      (f.cblk - 2) * g.secPerCluster + g.secPerCluster := by
    rw [← Nat.succ_mul]
    congr 1
    omega
  have hend := h.2
  omega

theorem Works.nonneg (hw : Works dev) (k n : Nat) : 0 ≤ dev k n := by
  rw [hw]
  exact Int.natCast_nonneg n

/-- A round of `fatfs_read` changes nothing on the disk. -/
theorem readCluster_keeps (hw : Works dev) (h : Shows g v im) (f : File) (buf : Nat → UInt8)
    (total nbytes : Nat) :
    ∃ v' buf' err, readCluster dev g v f buf total nbytes =
        (v', buf', err, pieceLen g f.pos nbytes) ∧ 0 ≤ err ∧ Shows g v' im := by
  unfold readCluster pieceLen
  dsimp only
  split
  · exact ⟨_, _, _, rfl, hw.nonneg _ _, h.image_eq, h.coherent⟩
  · rw [devReadBuffer_eq hw]
    dsimp only
    rw [if_neg (by omega)]
    exact ⟨_, _, _, rfl, Int.natCast_nonneg _, h.image_eq, coherent_uncached rfl⟩

/-- Bytes stored in the data area leave the table alone. -/
theorem image_fat_of_data (hg : g.Ok) {disk : Nat → UInt8} {a n : Nat} {buf : Nat → UInt8}
    (ha : g.dataStart * 512 ≤ a) : (image g (copyTo disk a n buf)).fat = (image g disk).fat := by
  have hroot := hg.rootStart
  have hdata := hg.dataStart
  funext d
  simp only [image]
  split
  next ht =>
    have hlt := (entry_address hg ht.2).1
    exact le16_congr (copyTo_of_lt (by omega)) (copyTo_of_lt (by omega))
  next => rfl

/-- A round of `fatfs_write` with a transfer in the data area leaves the table
alone. -/
theorem writeCluster_keeps (hw : Works dev) (hg : g.Ok) (h : Shows g v im)
    (hs : g.dataStart ≤ startSector g f) (buf : Nat → UInt8) (total nbytes : Nat) :
    ∃ v' err im', writeCluster dev g v f buf total nbytes =
        (v', err, pieceLen g f.pos nbytes) ∧ 0 ≤ err ∧ Shows g v' im' ∧ im'.fat = im.fat := by
  have ha : g.dataStart * 512 ≤ startSector g f * sectorSize := Nat.mul_le_mul_right 512 hs
  have him := h.image_eq
  subst him
  unfold writeCluster pieceLen
  dsimp only
  split
  · refine ⟨_, _, _, rfl, hw.nonneg _ _, ⟨rfl, ?_⟩,
      image_fat_of_data hg ha⟩
    intro s hc
    obtain ⟨hlt, hbuf⟩ := h.coherent s hc
    refine ⟨hlt, fun i hi => ?_⟩
    simp only [devWrite]
    rw [copyTo_of_lt (by omega)]
    exact hbuf i hi
  · rw [devReadBuffer_eq hw]
    dsimp only
    rw [if_neg (by omega)]
    exact ⟨_, _, _, rfl, hw.nonneg _ _,
      ⟨rfl, coherent_uncached rfl⟩, image_fat_of_data hg ha⟩

/-- Within the current cluster `move_file_pos` only adds to the position. -/
theorem moveFilePos_within (fuel : Nat) (v : Volume) (expand : Bool)
    (hw : u32 (f.pos % g.clusterByteSize + w : Nat) < g.clusterByteSize) :
    moveFilePos dev g fuel v f w expand = some (v, { f with pos := u32 (f.pos + w : Nat) }, 0) := by
  unfold moveFilePos
  rw [Nat.cast_add] at hw
  exact if_neg (Nat.not_le_of_lt hw)

theorem FileOk.move (h : FileOk f) (n : Int) {c : Nat}
    (hc : clusterIsValid (clusterT f.cblk) = false → clusterIsValid (clusterT c) = false) :
    FileOk { f with cblk := c, pos := u32 n } :=
  ⟨u32_lt n, h.size, fun hs => hc (h.first hs)⟩

/-- The cluster behind an invalid one is invalid. -/
theorem next_invalid (h : Shows g v im) (hc : clusterIsValid c = false) :
    clusterIsValid (clusterT (im.fat c)) = false := by
  rw [fat_of_not_inTable h fun ht => by simp [ht.valid] at hc]
  decide

/-- At the end of the cluster `fatfs_read` follows the table. -/
theorem moveFilePos_follow (hw : Works dev) (hg : g.Ok) (fuel : Nat) (h : Shows g v im)
    (hend : f.pos % g.clusterByteSize + w = g.clusterByteSize) :
    ∃ v', moveFilePos dev g fuel v f w false =
        some (v', { f with cblk := im.fat (clusterT f.cblk), pos := u32 (f.pos + w : Nat) }, 0) ∧
      Shows g v' im := by
  have hq := hg.clusterByteSize_le
  obtain ⟨v₁, hget, h₁⟩ := clusterGetNext_shows hw hg h (clusterT f.cblk)
  refine ⟨v₁, ?_, h₁⟩
  unfold moveFilePos
  dsimp only
  rw [u32_add (by omega), if_pos (Nat.le_of_eq hend.symm), hget]
  exact if_neg (by simp)

end Round

/-! ## Reading -/

section Read

variable {dev : Dev} {g : Fat} {totalSector : Nat} {im : Image}

/-- The rounds of a read through clusters of the volume. -/
theorem fatfsReadLoop_inside (hw : Works dev) (hg : g.Ok) (fuel n : Nat) :
    ∀ {v : Volume} {f : File} (buf : Nat → UInt8) (total nbytes : Nat), Shows g v im → FileOk f →
      nbytes < 4294967296 →
      (∀ c ∈ List.iterate im.fat f.cblk (clustersTouched g f.pos nbytes),
        InVolume g totalSector c) →
      (∀ x ∈ readSectors dev g fuel n v f buf total nbytes,
        g.dataStart ≤ x ∧ x + g.secPerCluster ≤ totalSector) ∧
      ∀ v' f' buf' total', fatfsReadLoop dev g fuel n v f buf total nbytes =
        some (v', f', buf', total') → Shows g v' im ∧ FileOk f' := by
  induction n with
  | zero =>
    intro v f buf total nbytes h hf _ _
    refine ⟨fun x hx => absurd hx List.not_mem_nil, fun v' f' buf' total' hr => ?_⟩
    rw [fatfsReadLoop] at hr
    split at hr
    · cases hr
    · cases hr
      exact ⟨h, hf⟩
  | succ n ih =>
    intro v f buf total nbytes h hf hlt hc
    rw [readSectors, fatfsReadLoop]
    by_cases hpos : nbytes > 0
    swap
    · rw [if_neg hpos, if_neg hpos]
      refine ⟨fun x hx => absurd hx List.not_mem_nil, fun v' f' buf' total' hr => ?_⟩
      cases hr
      exact ⟨h, hf⟩
    rw [if_pos hpos, if_pos hpos]
    obtain ⟨v₁, buf₁, e, hrc, he, h₁⟩ := readCluster_keeps hw h f buf total nbytes
    rw [hrc]
    dsimp only
    rw [if_neg (Int.not_lt.mpr he), if_neg (Int.not_lt.mpr he)]
    have hcur : InVolume g totalSector f.cblk := by
      obtain ⟨k, hk⟩ := Nat.exists_eq_add_of_le (clustersTouched_stay g f.pos hpos)
      refine hc f.cblk ?_
      rw [hk, Nat.add_comm, List.iterate]
      exact List.mem_cons_self
    rcases pieceLen_cases hg hpos hlt with ⟨hw', hin⟩ | ⟨hend, hwn, hsum⟩
    · -- the last transfer
      rw [hw', moveFilePos_within fuel v₁ false hin, Option.bind_some]
      dsimp only
      rw [if_neg (Int.lt_irrefl 0), Nat.sub_self]
      have hf₁ := hf.move (f.pos + nbytes : Nat) (c := f.cblk) id
      obtain ⟨hx, hr⟩ := ih buf₁ (total + nbytes) 0 h₁ hf₁ (by decide) fun c hc =>
        absurd hc List.not_mem_nil
      refine ⟨fun x hx' => ?_, hr⟩
      rcases List.mem_cons.mp hx' with rfl | hx'
      · exact hcur.startSector hg
      · exact hx x hx'
    · obtain ⟨v₂, hmv, h₂⟩ := moveFilePos_follow hw hg fuel h₁ hend
      rw [hmv, Option.bind_some]
      dsimp only
      rw [if_neg (Int.lt_irrefl 0)]
      have hf₂ := hf.move (f.pos + pieceLen g f.pos nbytes : Nat) (next_invalid h)
      have hrest : ∀ c ∈ List.iterate im.fat (im.fat (clusterT f.cblk)) (clustersTouched g
          (u32 (f.pos + pieceLen g f.pos nbytes : Nat)) (nbytes - pieceLen g f.pos nbytes)),
          InVolume g totalSector c := fun c hc' => by
        refine hc c ?_
        rw [clustersTouched_cross hg hend hwn hsum, List.iterate]
        rw [clusterT_of_lt hcur.lt] at hc'
        exact List.mem_cons_of_mem _ hc'
      obtain ⟨hx, hr⟩ := ih buf₁ (total + pieceLen g f.pos nbytes)
        (nbytes - pieceLen g f.pos nbytes) h₂ hf₂ (by omega) hrest
      refine ⟨fun x hx' => ?_, hr⟩
      rcases List.mem_cons.mp hx' with rfl | hx'
      · exact hcur.startSector hg
      · exact hx x hx'

end Read

/-! ## New clusters -/

section New

variable {dev : Dev} {g : Fat} {fuel : Nat} {v v' : Volume} {im im' : Image} {f f' : File}
  {totalSector cnt k : Nat} {err : Int}

theorem mem_take_append_left {A B : List Nat} {n a : Nat} (hn : A.length ≤ n) (ha : a ∈ A) :
    a ∈ (A ++ B).take n := by
  rw [List.take_append, List.take_of_length_le hn]
  exact List.mem_append_left _ ha

theorem mem_take_append_right {A B : List Nat} {n m a : Nat} (hn : A.length + m ≤ n)
    (ha : a ∈ B.take m) : a ∈ (A ++ B).take n := by
  rw [List.take_append]
  exact List.mem_append_right _ (List.take_subset_take_left B (by omega) ha)

/-- An element of a list is not further back among those that meet `p`. -/
theorem mem_take_filter {A : List Nat} {p : Nat → Bool} {i n a : Nat} (hi : A[i]? = some a)
    (hp : p a = true) (hn : i + 1 ≤ n) (B : List Nat) : a ∈ (A.filter p ++ B).take n := by
  have hsplit : A.filter p = (A.take (i + 1)).filter p ++ (A.drop (i + 1)).filter p := by
    rw [← List.filter_append, List.take_append_drop]
  have hlen : ((A.take (i + 1)).filter p).length ≤ n := by
    have h₁ := List.length_filter_le p (A.take (i + 1))
    have h₂ := List.length_take_le (i + 1) A
    omega
  have hmem : a ∈ A.take (i + 1) := by
    refine List.mem_of_getElem? (i := i) ?_
    rw [List.getElem?_take_of_lt (Nat.lt_succ_self i), hi]
  rw [hsplit, List.append_assoc]
  exact mem_take_append_left hlen (List.mem_filter.mpr ⟨hmem, hp⟩)

/-- From a cluster of the new chain `A` on, when `b` points to its start: the
clusters are among the first ones of `A` and then `B`, without `b`. -/
theorem mem_clustersFrom_new {fat : Nat → Nat} {A B : List Nat} {b : Nat}
    (hA : ∀ a ∈ A, a ≠ fatClusterInvalid)
    (hnext : ∀ i a, A[i]? = some a → a ≠ b → fat a = A[i + 1]?.getD fatClusterInvalid)
    (hb : b ∈ A → A[0]? = some (fat b)) (k : Nat) :
    ∀ {i m a : Nat}, A[i]? = some a → i ≤ m → ∀ c ∈ clustersFrom fat B k a,
      c = b ∧ b ∈ A ∨ c ∈ (A.filter (fun d => d ≠ b) ++ B).take (m + k) := by
  induction k with
  | zero => exact fun _ _ c hc => absurd hc List.not_mem_nil
  | succ k ih =>
    intro i m a hi hm c hc
    have ha := List.mem_of_getElem? hi
    rw [clustersFrom] at hc
    rcases List.mem_cons.mp hc with rfl | hc
    · by_cases hcb : c = b
      · exact .inl ⟨hcb, hcb ▸ ha⟩
      · exact .inr (mem_take_filter hi (by simpa using hcb) (by omega) B)
    by_cases hab : a = b
    · -- back to the start of the chain
      have hstart := hb (hab ▸ ha)
      rw [← hab] at hstart
      rw [if_neg (hA _ (List.mem_of_getElem? hstart))] at hc
      rcases ih hstart (Nat.zero_le (m + 1)) c hc with hcb | hmem
      · exact .inl hcb
      · exact .inr (by rwa [Nat.add_right_comm] at hmem)
    · have hfat := hnext i a hi hab
      cases hj : A[i + 1]? with
      | some d =>
        rw [hj, Option.getD_some] at hfat
        rw [hfat, if_neg (hA d (List.mem_of_getElem? hj))] at hc
        rcases ih hj (by omega : i + 1 ≤ m + 1) c hc with hcb | hmem
        · exact .inl hcb
        · exact .inr (by rwa [Nat.add_right_comm] at hmem)
      | none =>
        rw [hj, Option.getD_none] at hfat
        rw [if_pos hfat] at hc
        have hlen := List.length_filter_le (fun d => decide (d ≠ b)) A
        have hend := List.getElem?_eq_none_iff.mp hj
        exact .inr (mem_take_append_right (by omega) hc)

/-- How `expand_file` allocates the clusters `l`: as the first ones of the file
or behind its current one. -/
inductive Grown (g : Fat) (im im' : Image) (f f' : File) (l : List Nat) : Prop where
  | first (hs : clusterIsValid (clusterT f.sblk) = false) (hv : clusterIsValid f'.cblk = true)
      (fresh : Fresh im im' f'.cblk l)
  | behind (start : Nat) (v₁ : Volume) (im₁ : Image)
      (hs : clusterIsValid (clusterT f.sblk) = true)
      (hc : clusterIsValid (clusterT f.cblk) = true) (hv : clusterIsValid start = true)
      (shows : Shows g v₁ im₁) (fresh : Fresh im im₁ start l) (file : f' = f)
      (image : im' = im₁.setNext g (clusterT f.cblk) start)

theorem expandFile_takes (hw : Works dev) (hg : g.Ok) (h : Shows g v im) (hf : FileOk f)
    {incr : Int} (hcnt : expandCnt g f.size incr = some cnt)
    (hroom : (freeClusters g im).length < cnt → freeClusters g im = [] ∨ g.cTotal ≤ 65535)
    (hr : expandFile dev g fuel v f incr = some (v', f', err)) :
    ∃ im', Shows g v' im' ∧ FileOk f' ∧ f'.pos = f.pos ∧ (0 ≤ err →
      cnt ≤ (freeClusters g im).length ∧
        Grown g im im' f f' ((freeClusters g im).take cnt)) := by
  rcases expandFile_cases hr with ⟨hnone, -⟩ | ⟨cnt', v₁, start, hcnt', halloc, hcase⟩
  · rw [hnone] at hcnt
    cases hcnt
  obtain rfl : cnt' = cnt := Option.some.inj (hcnt'.symm.trans hcnt)
  obtain ⟨⟨im₁, h₁, hfresh⟩, hlen⟩ := clusterAllocFree_takes hw hg h hroom halloc
  rcases hcase with ⟨-, rfl, rfl, rfl⟩ | ⟨hv, hs, rfl, rfl, rfl⟩ | ⟨hv, hs, rfl, e, hset, rfl⟩
  · exact ⟨im₁, h₁, hf, rfl, fun he => absurd he (by decide)⟩
  · have hlt := (clusterIsValid_iff.mp hv).2
    have hok : FileOk { f with cblk := start, sblk := start } := ⟨hf.pos, hf.size, id⟩
    exact ⟨im₁, h₁, hok, rfl, fun _ => ⟨hlen hv, .first hs hv (hfresh hv)⟩⟩
  · obtain ⟨v₂, e', hset', h₂, hneg, -⟩ := clusterSetNext_shows hw hg h₁ (clusterT f'.cblk)
      (x := start) (by have := (clusterIsValid_iff.mp hv).2; omega)
    obtain ⟨rfl, rfl⟩ := Prod.mk.inj (hset.symm.trans hset')
    refine ⟨_, h₂, hf, rfl, fun he => ⟨hlen hv, ?_⟩⟩
    have hc : clusterIsValid (clusterT f'.cblk) = true := by
      cases hc : clusterIsValid (clusterT f'.cblk) with
      | true => rfl
      | false =>
        rw [if_pos (hneg.mpr hc)] at he
        exact absurd he (by decide)
    exact .behind start v₁ im₁ hs hc hv h₁ (hfresh hv) rfl rfl

/-- The free clusters with a chain of the first `cnt` of them: the start of the
chain and where its clusters point. -/
theorem Fresh.chain {start : Nat} (h : Shows g v im)
    (hf : Fresh im im' start ((freeClusters g im).take cnt)) (hv : clusterIsValid start = true) :
    ((freeClusters g im).take cnt)[0]? = some start ∧
      ∀ a ∈ (freeClusters g im).take cnt, a ≠ fatClusterInvalid ∧ a ≠ 0 := by
  refine ⟨?_, fun a ha => ?_⟩
  · cases hl : (freeClusters g im).take cnt with
    | nil =>
      have hp := hf.path
      rw [hl] at hp
      rw [show start = fatClusterInvalid from hp] at hv
      exact absurd hv (by decide)
    | cons b l =>
      have hp := hf.path
      rw [hl] at hp
      exact congrArg some hp.1.symm
  · have ht := inTable_of_fat_zero h (hf.free a ha)
    have h2 := ht.two_le
    have hlt := ht.lt
    unfold fatClusterInvalid
    omega

/-- From the first new cluster of a file without clusters on. -/
theorem Fresh.clusters {start : Nat} (h : Shows g v im)
    (hf : Fresh im im' start ((freeClusters g im).take cnt)) (hv : clusterIsValid start = true) :
    ∀ c ∈ clustersFrom im'.fat (freeClusters g im') k start, c ∈ (freeClusters g im).take k := by
  obtain ⟨hstart, hA⟩ := hf.chain h hv
  rw [hf.freeClusters_eq h]
  intro c hc
  have h0 : 0 ∉ (freeClusters g im).take cnt := fun hm => (hA 0 hm).2 rfl
  have hall : ((freeClusters g im).take cnt).filter (fun d => d ≠ 0) =
      (freeClusters g im).take cnt :=
    List.filter_eq_self.mpr fun a ha => by simpa using (hA a ha).2
  rcases mem_clustersFrom_new (b := 0) (fun a ha => (hA a ha).1)
    (fun i a hi _ => hf.path.next_eq hi) (fun hm => absurd hm h0) k hstart (Nat.le_refl 0) c hc
    with ⟨-, hm⟩ | hm
  · exact absurd hm h0
  · rwa [hall, List.take_append_drop, Nat.zero_add] at hm

/-- From the first new cluster behind `b` on. -/
theorem Fresh.clusters_behind {start b : Nat} (h : Shows g v im) (h' : Shows g v' im')
    (hf : Fresh im im' start ((freeClusters g im).take cnt)) (hv : clusterIsValid start = true)
    (hb : InTable g b) :
    ∀ c ∈ clustersFrom (im'.setNext g b start).fat (freeClusters g (im'.setNext g b start)) k start,
      c = b ∧ b ∈ freeClusters g im ∨
        c ∈ ((freeClusters g im).filter fun d => d ≠ b).take k := by
  obtain ⟨hstart, hA⟩ := hf.chain h hv
  have h2 := (clusterIsValid_iff.mp hv).1
  rw [freeClusters_setNext h' (by omega), hf.freeClusters_eq h, setNext_fat g im' hb]
  intro c hc
  have hnext : ∀ i a, ((freeClusters g im).take cnt)[i]? = some a → a ≠ b →
      Function.update im'.fat b start a =
        ((freeClusters g im).take cnt)[i + 1]?.getD fatClusterInvalid := by
    intro i a hi hab
    rw [Function.update_of_ne hab]
    exact hf.path.next_eq hi
  rcases mem_clustersFrom_new (fun a ha => (hA a ha).1) hnext
    (fun _ => by rw [Function.update_self]; exact hstart) k hstart (Nat.le_refl 0) c hc
    with ⟨hcb, hm⟩ | hm
  · exact .inl ⟨hcb, List.mem_of_mem_take hm⟩
  · rw [← List.filter_append, List.take_append_drop, Nat.zero_add] at hm
    exact .inr hm

end New

/-! ## Writing -/

section Write

variable {dev : Dev} {g : Fat} {fuel : Nat} {v v' : Volume} {im im' : Image} {f f' : File}
  {totalSector k w : Nat} {err : Int}

/-- `expand_file` by the bytes of a cluster asks for one. -/
theorem expandCnt_cluster (hg : g.Ok) (size : Nat) :
    expandCnt g size g.clusterByteSize = some 1 := by
  have hq := hg.clusterByteSize_pos
  have hle := hg.clusterByteSize_le
  have ho := Nat.mod_lt size hq
  unfold expandCnt
  split
  · rw [u32_natCast (by omega), up2_clusters hg (by omega)]
    congr 1
    exact Nat.div_eq_of_lt_le (by omega) (by omega)
  · dsimp only
    rw [if_neg (by omega), u32_sub (by omega) (by omega), up2_clusters hg (by omega)]
    generalize g.clusterByteSize = q at *
    have h2 : (q - (q - size % q) + q - 1) / q ≤ 1 := by
      rw [Nat.div_le_iff_le_mul_add_pred hq]
      omega
    generalize (q - (q - size % q) + q - 1) / q = cnt at h2 ⊢
    congr 1
    split <;> omega

/-- At the end of a cluster of the volume `fatfs_write` follows the table or
takes the lowest free cluster; the clusters to come stay the same. -/
theorem moveFilePos_extend (hw : Works dev) (hg : g.Ok) (h : Shows g v im) (hf : FileOk f)
    (hcur : InVolume g totalSector f.cblk)
    (hend : f.pos % g.clusterByteSize + w = g.clusterByteSize)
    (hr : moveFilePos dev g fuel v f w true = some (v', f', err)) :
    ∃ im', Shows g v' im' ∧ FileOk f' ∧ (0 ≤ err → f'.pos = u32 (f.pos + w : Nat) ∧
      ∀ k, ∀ c ∈ clustersFrom im'.fat (freeClusters g im') k f'.cblk,
        c ∈ clustersFrom im.fat (freeClusters g im) (k + 1) f.cblk) := by
  have hq := hg.clusterByteSize_le
  have hct := clusterT_of_lt hcur.lt
  obtain ⟨v₁, hget, h₁⟩ := clusterGetNext_shows hw hg h f.cblk
  unfold moveFilePos at hr
  dsimp only at hr
  rw [u32_add (by omega), if_pos (Nat.le_of_eq hend.symm), hct, hget] at hr
  dsimp only at hr
  split at hr
  next hinv =>
    -- the end of the chain: one cluster is allocated behind it
    obtain ⟨hfat, -⟩ := hinv
    obtain ⟨⟨v₂, f₂, e₂⟩, hexp, hr⟩ := Option.map_eq_some_iff.mp hr
    obtain ⟨im₂, h₂, hf₂, hp₂, hgrown⟩ := expandFile_takes hw hg h₁ hf (expandCnt_cluster hg f.size)
      (fun hlt => .inl (List.length_eq_zero_iff.mp (by omega))) hexp
    dsimp only at hr
    split at hr
    · cases hr
      exact ⟨im₂, h₂, hf₂, fun he => absurd he (by decide)⟩
    next he =>
      obtain ⟨-, hgrown⟩ := hgrown (Int.not_lt.mp he)
      obtain ⟨v₃, hget₃, h₃⟩ := clusterGetNext_shows hw hg h₂ (clusterT f₂.cblk)
      rw [hget₃] at hr
      cases hr
      cases hgrown with
      | first hs =>
        have hbad := hf.first hs
        rw [hct, hcur.1.valid] at hbad
        cases hbad
      | behind start v₄ im₁ hs hc hv hshows hfresh hfile himage =>
        subst hfile
        rw [hct] at himage ⊢
        have hnext : im₂.fat f₂.cblk = start := by
          rw [himage, setNext_fat g im₁ hcur.1, Function.update_self]
        have hlt := (clusterIsValid_iff.mp hv).2
        refine ⟨im₂, h₃, ?_, fun _ => ⟨rfl, fun k c hk => ?_⟩⟩
        · refine hf.move _ fun hbad => ?_
          rw [hct, hcur.1.valid] at hbad
          cases hbad
        · have hin : f₂.cblk ∉ freeClusters g im := fun hm => by
            rw [(mem_freeClusters h).mp hm] at hfat
            exact absurd hfat (by decide)
          have hall : (freeClusters g im).filter (fun d => d ≠ f₂.cblk) = freeClusters g im :=
            List.filter_eq_self.mpr fun a ha => by
              simpa using fun he : a = f₂.cblk => hin (he ▸ ha)
          rw [hnext, himage] at hk
          rw [clustersFrom, if_pos hfat]
          rcases hfresh.clusters_behind h hshows hv hcur.1 c hk with ⟨-, hm⟩ | hm
          · exact absurd hm hin
          · rw [hall] at hm
            exact List.mem_cons_of_mem _ hm
  next hno =>
    have hfat : im.fat f.cblk ≠ fatClusterInvalid := fun he => hno ⟨he, rfl⟩
    cases hr
    refine ⟨im, h₁, hf.move _ (by rw [hct]; exact next_invalid h), fun _ => ⟨rfl, fun k c hk => ?_⟩⟩
    rw [clustersFrom, if_neg hfat]
    exact List.mem_cons_of_mem _ hk

/-- The rounds of a write through clusters of the volume. -/
theorem fatfsWriteLoop_inside (hw : Works dev) (hg : g.Ok) (buf : Nat → UInt8) (n : Nat) :
    ∀ {v : Volume} {im : Image} {f : File} (total nbytes : Nat), Shows g v im → FileOk f →
      nbytes < 4294967296 →
      (∀ c ∈ clustersFrom im.fat (freeClusters g im) (clustersTouched g f.pos nbytes) f.cblk,
        InVolume g totalSector c) →
      (∀ x ∈ writeSectors dev g fuel buf n v f total nbytes,
        g.dataStart ≤ x ∧ x + g.secPerCluster ≤ totalSector) ∧
      ∀ v' f' total', fatfsWriteLoop dev g fuel buf n v f total nbytes = some (v', f', total') →
        (∃ im', Shows g v' im') ∧ FileOk f' := by
  induction n with
  | zero =>
    intro v im f total nbytes h hf _ _
    refine ⟨fun x hx => absurd hx List.not_mem_nil, fun v' f' total' hr => ?_⟩
    rw [fatfsWriteLoop] at hr
    split at hr
    · cases hr
    · cases hr
      exact ⟨⟨im, h⟩, hf⟩
  | succ n ih =>
    intro v im f total nbytes h hf hlt hc
    rw [writeSectors, fatfsWriteLoop]
    by_cases hpos : nbytes > 0
    swap
    · rw [if_neg hpos, if_neg hpos]
      refine ⟨fun x hx => absurd hx List.not_mem_nil, fun v' f' total' hr => ?_⟩
      cases hr
      exact ⟨⟨im, h⟩, hf⟩
    obtain ⟨k, hk⟩ := Nat.exists_eq_add_of_le (clustersTouched_stay g f.pos hpos)
    rw [Nat.add_comm] at hk
    have hcur : InVolume g totalSector f.cblk := by
      refine hc f.cblk ?_
      rw [hk, clustersFrom]
      exact List.mem_cons_self
    have hsec := hcur.startSector hg
    obtain ⟨v₁, e, im₁, hwc, he, h₁, hfat⟩ :=
      writeCluster_keeps hw hg h hsec.1 buf total nbytes
    have hfree : freeClusters g im₁ = freeClusters g im := by
      unfold freeClusters freeFrom
      rw [hfat]
    have hf₁ : FileOk { f with size := u32 (f.size + (pieceLen g f.pos nbytes : Nat)) } :=
      ⟨hf.pos, by dsimp only; exact u32_lt _, hf.first⟩
    rw [if_pos hpos, if_pos hpos, hwc]
    dsimp only
    rw [if_neg (Int.not_lt.mpr he), if_neg (Int.not_lt.mpr he)]
    rcases pieceLen_cases hg hpos hlt with ⟨hw', hin⟩ | ⟨hend, hwn, hsum⟩
    · -- the last transfer
      rw [hw'] at hf₁ ⊢
      rw [moveFilePos_within (f := { f with size := u32 (f.size + nbytes) }) fuel v₁ true hin,
        Option.bind_some]
      dsimp only
      rw [if_neg (Int.lt_irrefl 0), Nat.sub_self]
      obtain ⟨hx, hr⟩ := ih (total + nbytes) 0 h₁ (hf₁.move (f.pos + nbytes : Nat) id) (by decide)
        fun c hc => absurd hc List.not_mem_nil
      refine ⟨fun x hx' => ?_, hr⟩
      rcases List.mem_cons.mp hx' with rfl | hx'
      · exact hsec
      · exact hx x hx'
    · cases hmv : moveFilePos dev g fuel v₁
        { f with size := u32 (f.size + (pieceLen g f.pos nbytes : Nat)) }
        (pieceLen g f.pos nbytes) true with
      | none =>
        refine ⟨fun x hx => ?_, fun v' f' total' hr => by cases hr⟩
        rw [List.mem_singleton.mp hx]
        exact hsec
      | some r =>
        obtain ⟨v₂, f₂, e₂⟩ := r
        obtain ⟨im₂, h₂, hf₂, hnext⟩ := moveFilePos_extend hw hg h₁ hf₁ hcur hend hmv
        rw [Option.bind_some]
        dsimp only
        split
        · refine ⟨fun x hx => ?_, fun v' f' total' hr => ?_⟩
          · rw [List.mem_singleton.mp hx]
            exact hsec
          · cases hr
            exact ⟨⟨im₂, h₂⟩, hf₂⟩
        next he₂ =>
          obtain ⟨hp₂, hnext⟩ := hnext (Int.not_lt.mp he₂)
          have hrest : ∀ c ∈ clustersFrom im₂.fat (freeClusters g im₂)
              (clustersTouched g f₂.pos (nbytes - pieceLen g f.pos nbytes)) f₂.cblk,
              InVolume g totalSector c := fun c hc' => by
            refine hc c ?_
            have hmem := hnext _ c hc'
            rw [hp₂, hfat, hfree] at hmem
            rwa [clustersTouched_cross hg hend hwn hsum]
          obtain ⟨hx, hr⟩ := ih (total + pieceLen g f.pos nbytes)
            (nbytes - pieceLen g f.pos nbytes) h₂ hf₂ (by omega) hrest
          refine ⟨fun x hx' => ?_, hr⟩
          rcases List.mem_cons.mp hx' with rfl | hx'
          · exact hsec
          · exact hx x hx'

/-- A write through clusters of the volume. -/
theorem fatfsWrite_inside (hw : Works dev) (hg : g.Ok) (h : Shows g v im) (hf : FileOk f)
    (buf : Nat → UInt8) {size : Nat} (hlt : size < 4294967296)
    (hc : ∀ c ∈ writeClusters g im f size, InVolume g totalSector c)
    (hroom : ∀ cnt, growCnt g f size = some cnt → (freeClusters g im).length < cnt →
      freeClusters g im = [] ∨ g.cTotal ≤ 65535) :
    (∀ x ∈ fatfsWriteSectors dev g fuel v buf size f,
      g.dataStart ≤ x ∧ x + g.secPerCluster ≤ totalSector) ∧
    ∀ v' f' total', fatfsWrite dev g fuel v buf size f = some (v', f', total') →
      (∃ im', Shows g v' im') ∧ FileOk f' := by
  unfold fatfsWriteSectors fatfsWrite
  by_cases hgrow : u32 ((f.pos : Int) + (size : Nat)) > f.size
  swap
  · have hcnt : growCnt g f size = none := if_neg hgrow
    rw [if_neg hgrow, if_neg hgrow]
    refine fatfsWriteLoop_inside hw hg buf size 0 size h hf hlt fun c hc' => hc c ?_
    rw [writeClusters, hcnt]
    exact hc'
  rw [if_pos hgrow, if_pos hgrow]
  cases hexp : expandFile dev g fuel v f (cInt (f.pos + size - f.size)) with
  | none => exact ⟨fun x hx => absurd hx List.not_mem_nil, fun v' f' total' hr => by cases hr⟩
  | some r =>
    obtain ⟨v₁, f₁, e⟩ := r
    rw [Option.bind_some]
    dsimp only
    cases hcnt : growCnt g f size with
    | none =>
      have hnone : expandCnt g f.size (cInt (f.pos + size - f.size)) = none :=
        (if_pos hgrow).symm.trans hcnt
      unfold expandFile at hexp
      rw [hnone] at hexp
      cases hexp
      rw [if_neg (Int.lt_irrefl 0), if_neg (Int.lt_irrefl 0)]
      refine fatfsWriteLoop_inside hw hg buf size 0 size h hf hlt fun c hc' => hc c ?_
      rw [writeClusters, hcnt]
      exact hc'
    | some cnt =>
      have hsome : expandCnt g f.size (cInt (f.pos + size - f.size)) = some cnt :=
        (if_pos hgrow).symm.trans hcnt
      obtain ⟨im₁, h₁, hf₁, hp₁, hgrown⟩ := expandFile_takes hw hg h hf hsome (hroom cnt hcnt) hexp
      split
      · refine ⟨fun x hx => absurd hx List.not_mem_nil, fun v' f' total' hr => ?_⟩
        cases hr
        exact ⟨⟨im₁, h₁⟩, hf₁⟩
      next he =>
        obtain ⟨hlen, hgrown⟩ := hgrown (Int.not_lt.mp he)
        unfold writeClusters at hc
        rw [hcnt] at hc
        dsimp only at hc
        rw [if_neg (Nat.not_lt.mpr hlen)] at hc
        refine fatfsWriteLoop_inside hw hg buf size 0 size h₁ hf₁ hlt fun c hc' => ?_
        rw [hp₁] at hc'
        cases hgrown with
        | first hs hv hfresh =>
          rw [if_pos hs] at hc
          exact hc c (hfresh.clusters h hv c hc')
        | behind start v₂ im₂ hs hcv hv hshows hfresh hfile himage =>
          subst hfile
          rw [if_neg (by simp [hs]), if_neg (by simp [hcv])] at hc
          cases hk : clustersTouched g f₁.pos size with
          | zero =>
            rw [hk] at hc'
            exact absurd hc' List.not_mem_nil
          | succ k =>
            rw [hk, List.take_succ_cons] at hc
            have hcur := hc f₁.cblk List.mem_cons_self
            rw [clusterT_of_lt hcur.lt] at himage
            have hnext : im₁.fat f₁.cblk = start := by
              rw [himage, setNext_fat g im₂ hcur.1, Function.update_self]
            have hne : start ≠ fatClusterInvalid := fun he => by
              rw [he] at hv
              exact absurd hv (by decide)
            rw [hk, clustersFrom, hnext, if_neg hne, himage] at hc'
            rcases List.mem_cons.mp hc' with rfl | hc'
            · exact hcur
            · rcases hfresh.clusters_behind h hshows hv hcur.1 c hc' with ⟨rfl, -⟩ | hm
              · exact hcur
              · exact hc c (List.mem_cons_of_mem _ hm)

end Write

/-! ## The other calls -/

section Calls

variable {dev : Dev} {g : Fat} {fuel totalSector : Nat} {v v' : Volume} {im : Image} {f f' : File}

theorem fatfsSeekLoop_keeps (hw : Works dev) (hg : g.Ok) (n : Nat) {o : Option (Nat × Nat)} :
    ∀ {v : Volume} {cur currPos move : Nat}, Shows g v im → cur < 65536 →
      currPos < 4294967296 → fatfsSeekLoop dev g n v cur currPos move = some (v', o) →
      Shows g v' im ∧ ∀ pos c, o = some (pos, c) → pos < 4294967296 ∧ c < 65536 ∧
        (clusterIsValid cur = false → c = cur) := by
  induction n with
  | zero =>
    intro v cur currPos move h hlt hpos hr
    rw [fatfsSeekLoop] at hr
    split at hr
    · cases hr
    · cases hr
      refine ⟨h, fun pos c he => ?_⟩
      cases he
      exact ⟨hpos, hlt, fun _ => rfl⟩
  | succ n ih =>
    intro v cur currPos move h hlt hpos hr
    rw [fatfsSeekLoop] at hr
    split at hr
    · dsimp only at hr
      split at hr
      · cases hr
        refine ⟨h, fun pos c he => ?_⟩
        cases he
        exact ⟨u32_lt _, hlt, fun _ => rfl⟩
      · obtain ⟨v₁, hget, h₁⟩ := clusterGetNext_shows hw hg h cur
        rw [hget] at hr
        dsimp only at hr
        split at hr
        · cases hr
          exact ⟨h₁, fun pos c he => by cases he⟩
        next hv =>
          obtain ⟨h', hend⟩ := ih h₁ (fat_lt h cur) (u32_lt _) hr
          refine ⟨h', fun pos c he => ?_⟩
          obtain ⟨hp, hc, -⟩ := hend pos c he
          refine ⟨hp, hc, fun hcur => absurd ?_ hv⟩
          rw [← clusterT_of_lt (fat_lt h cur)]
          exact next_invalid h hcur
    · cases hr
      refine ⟨h, fun pos c he => ?_⟩
      cases he
      exact ⟨hpos, hlt, fun _ => rfl⟩

theorem fatfsSeek_keeps (hw : Works dev) (hg : g.Ok) (h : Shows g v im) (hf : FileOk f)
    {offset : Nat} {dir err : Int} (hr : fatfsSeek dev g v f offset dir = some (v', f', err)) :
    Shows g v' im ∧ FileOk f' := by
  unfold fatfsSeek at hr
  split at hr
  · cases hr
    exact ⟨h, hf⟩
  · obtain ⟨⟨v₁, o⟩, hloop, hr⟩ := Option.map_eq_some_iff.mp hr
    obtain ⟨h₁, hend⟩ := fatfsSeekLoop_keeps hw hg offset h (Nat.mod_lt _ (by decide)) (by decide)
      hloop
    cases o with
    | none =>
      cases hr
      exact ⟨h₁, hf⟩
    | some pc =>
      cases hr
      obtain ⟨hp, hc, hcur⟩ := hend _ _ rfl
      refine ⟨h₁, hp, hf.size, fun hs => ?_⟩
      have hbad := hf.first hs
      dsimp only
      rw [clusterT_of_lt hc, hcur hbad]
      exact hbad

theorem readFromDiritem_ok (file : File) (item : DirItem) (index : Int) :
    FileOk (readFromDiritem file item index) :=
  ⟨(by decide : 0 < 4294967296), le32_lt _ _, id⟩

theorem fatfsOpen_keeps (hw : Works dev) (hg : g.Ok) (h : Shows g v im) {path : List UInt8}
    {mode : Nat} {err : Int} (hr : fatfsOpen dev g fuel v path (fileNew mode) = some (v', f, err)) :
    (∃ im', Shows g v' im') ∧ FileOk f := by
  rcases fatfsOpen_shows hw hg h fuel path (fileNew mode) with
    ⟨i, v₁, ho⟩ | ⟨q, v₁, item, hc⟩ | ⟨v₁, hx⟩
  · have hres := ho.result
    rw [hr] at hres
    split at hres
    · obtain ⟨v₂, hfree, he⟩ := Option.map_eq_some_iff.mp hres.symm
      cases he
      obtain ⟨im', h', -⟩ := clusterFreeChain_shows hw hg fuel ho.shows hfree
      exact ⟨⟨im', h'⟩, (by decide : 0 < 4294967296), (by decide : 0 < 4294967296), id⟩
    · cases hres
      exact ⟨⟨im, ho.shows⟩, readFromDiritem_ok _ _ _⟩
  · have hres := hc.result
    rw [hr] at hres
    cases hres
    exact ⟨⟨_, hc.shows⟩, readFromDiritem_ok _ _ _⟩
  · have hres := hx.result
    rw [hr] at hres
    cases hres
    exact ⟨⟨im, hx.shows⟩, (by decide : 0 < 4294967296), (by decide : 0 < 4294967296), id⟩

theorem fatfsClose_keeps (hw : Works dev) (hg : g.Ok) (h : Shows g v im) (f : File) :
    ∃ im', Shows g (fatfsClose dev g v f) im' := by
  by_cases hp : f.pIndex < 0 ∨ f.pIndex ≥ g.rootEntCnt
  · rw [fatfsClose_of_out hp]
    exact ⟨im, h⟩
  · obtain ⟨i, hi⟩ := Int.eq_ofNat_of_zero_le (by omega : 0 ≤ f.pIndex)
    exact ⟨_, fatfsClose_shows hw hg h hi (by omega)⟩

theorem fatfsUnlink_keeps (hw : Works dev) (hg : g.Ok) (h : Shows g v im) {path : List UInt8}
    {err : Int} (hr : fatfsUnlink dev g fuel v path = some (v', err)) :
    ∃ im', Shows g v' im' := by
  rcases fatfsUnlink_shows hw hg h fuel path with ⟨i, hfound, v₁, h₁, hres⟩ | ⟨-, v₁, h₁, hres⟩
  · rw [hr] at hres
    obtain ⟨v₂, hfree, he⟩ := Option.map_eq_some_iff.mp hres.symm
    obtain ⟨im', h', -⟩ := clusterFreeChain_shows hw hg fuel h₁ hfree
    obtain ⟨v₃, hwr, h₃⟩ := writeDirEntry_shows hw hg h' hfound.lt fun _ => 0
    rw [hwr] at he
    cases he
    exact ⟨_, h₃⟩
  · rw [hr] at hres
    cases hres
    exact ⟨im, h₁⟩

end Calls

/-! ## Runs -/

section Runs

variable {dev : Dev} {g : Fat} {fuel totalSector : Nat} {s s' : FatFs} {e : FatEvent}

/-- Between two calls: the cache agrees with the disk, and the open files are
in order. -/
structure VolumeOk (g : Fat) (s : FatFs) : Prop where
  coherent : Coherent g s.vol
  file : ∀ h f, s.files h = some f → FileOk f

theorem VolumeOk.shows (h : VolumeOk g s) : Shows g s.vol (image g s.vol.disk) :=
  ⟨rfl, h.coherent⟩

/-- A call on handle `k`. -/
theorem VolumeOk.setFile (h : VolumeOk g s) {v : Volume} {o : Option File} (k : Nat)
    (hv : ∃ im, Shows g v im) (ho : ∀ f, o = some f → FileOk f) :
    VolumeOk g { vol := v, files := Function.update s.files k o } := by
  obtain ⟨im, hv⟩ := hv
  refine ⟨hv.coherent, fun k' f hf => ?_⟩
  rcases files_update hf with ⟨-, he⟩ | ⟨-, hold⟩
  · exact ho f he
  · exact h.file k' f hold

/-- Under the condition the transfers of a call are inside. -/
theorem VolumeOk.inside (hw : Works dev) (hg : g.Ok) (h : VolumeOk g s)
    (hc : TransferClear g totalSector s e) : TransfersInside dev g fuel totalSector s e := by
  cases e with
  | fatfsRead k size =>
    intro x hx
    obtain ⟨hlt, hc⟩ := hc
    cases hfile : s.files k with
    | none =>
      simp only [transfers, hfile] at hx
      exact absurd hx List.not_mem_nil
    | some f =>
      simp only [transfers, hfile] at hx
      have hlen : readLen f size < 4294967296 := by
        unfold readLen
        split
        · exact u32_lt _
        · exact hlt
      exact (fatfsReadLoop_inside hw hg fuel _ _ 0 _ h.shows (h.file k f hfile) hlen
        (hc f hfile)).1 x hx
  | fatfsWrite k buf =>
    intro x hx
    obtain ⟨hlt, hc⟩ := hc
    cases hfile : s.files k with
    | none =>
      simp only [transfers, hfile] at hx
      exact absurd hx List.not_mem_nil
    | some f =>
      simp only [transfers, hfile] at hx
      obtain ⟨hcl, hroom⟩ := hc f hfile
      exact (fatfsWrite_inside hw hg h.shows (h.file k f hfile) _ hlt hcl hroom).1 x hx
  | _ => exact fun x hx => absurd hx List.not_mem_nil

/-- And it leaves the volume in order. -/
theorem VolumeOk.next (hw : Works dev) (hg : g.Ok) (h : VolumeOk g s)
    (hc : TransferClear g totalSector s e) (hs : fatStep dev g fuel s e = some s') :
    VolumeOk g s' := by
  cases e with
  | fatfsOpen k path mode =>
    simp only [fatStep] at hs
    split at hs
    · cases hs
      exact h
    · obtain ⟨⟨v, f, err⟩, hr, rfl⟩ := Option.map_eq_some_iff.mp hs
      obtain ⟨⟨im, hv⟩, hf⟩ := fatfsOpen_keeps hw hg h.shows hr
      dsimp only
      split
      · exact ⟨hv.coherent, h.file⟩
      · exact h.setFile k ⟨im, hv⟩ fun f' he => Option.some.inj he ▸ hf
  | fatfsRead k size =>
    obtain ⟨hlt, hc⟩ := hc
    simp only [fatStep] at hs
    cases hfile : s.files k with
    | none =>
      rw [hfile] at hs
      cases hs
      exact h
    | some f =>
      rw [hfile] at hs
      obtain ⟨⟨v, f', buf', n⟩, hr, rfl⟩ := Option.map_eq_some_iff.mp hs
      have hlen : readLen f size < 4294967296 := by
        unfold readLen
        split
        · exact u32_lt _
        · exact hlt
      obtain ⟨hv, hf'⟩ := (fatfsReadLoop_inside hw hg fuel _ _ 0 _ h.shows (h.file k f hfile) hlen
        (hc f hfile)).2 v f' buf' n hr
      exact h.setFile k ⟨_, hv⟩ fun f₁ he => Option.some.inj he ▸ hf'
  | fatfsWrite k buf =>
    obtain ⟨hlt, hc⟩ := hc
    simp only [fatStep] at hs
    cases hfile : s.files k with
    | none =>
      rw [hfile] at hs
      cases hs
      exact h
    | some f =>
      rw [hfile] at hs
      obtain ⟨⟨v, f', n⟩, hr, rfl⟩ := Option.map_eq_some_iff.mp hs
      obtain ⟨hcl, hroom⟩ := hc f hfile
      obtain ⟨hv, hf'⟩ := (fatfsWrite_inside hw hg h.shows (h.file k f hfile) _ hlt hcl hroom).2
        v f' n hr
      exact h.setFile k hv fun f₁ he => Option.some.inj he ▸ hf'
  | fatfsSeek k offset dir =>
    simp only [fatStep] at hs
    cases hfile : s.files k with
    | none =>
      rw [hfile] at hs
      cases hs
      exact h
    | some f =>
      rw [hfile] at hs
      obtain ⟨⟨v, f', err⟩, hr, rfl⟩ := Option.map_eq_some_iff.mp hs
      obtain ⟨hv, hf'⟩ := fatfsSeek_keeps hw hg h.shows (h.file k f hfile) hr
      exact h.setFile k ⟨_, hv⟩ fun f₁ he => Option.some.inj he ▸ hf'
  | fatfsClose k =>
    simp only [fatStep] at hs
    split at hs
    · cases hs
      exact h
    next f hfile =>
      cases hs
      exact h.setFile k (fatfsClose_keeps hw hg h.shows f) fun f' he => by cases he
  | fatfsReaddir index =>
    cases hs
    obtain ⟨v', r, hr, h', -⟩ := fatfsReaddir_shows hw hg h.shows
      { index := 0, type := .unknown, name := fun _ => 0, size := 0 } index
    refine ⟨?_, h.file⟩
    dsimp only
    rw [hr]
    exact h'.coherent
  | fatfsUnlink path =>
    simp only [fatStep] at hs
    obtain ⟨⟨v, err⟩, hr, rfl⟩ := Option.map_eq_some_iff.mp hs
    obtain ⟨im, hv⟩ := fatfsUnlink_keeps hw hg h.shows hr
    exact ⟨hv.coherent, h.file⟩

/-- In every run of calls that meet the condition, from a mounted volume with
any contents and no open file, all data transfers are inside the data area of
the partition. -/
theorem transfers_in_partition (hw : Works dev) (hg : g.Ok) (hc : Coherent g s.vol)
    (h₀ : ∀ h, s.files h = none) {es : List FatEvent}
    (h : Along (fatStep dev g fuel) (TransferClear g totalSector) s es) :
    Along (fatStep dev g fuel) (TransfersInside dev g fuel totalSector) s es :=
  Along.of_invariant (fun _ _ _ hi hc hs => hi.next hw hg hc hs)
    (fun _ _ hi hc => hi.inside hw hg hc)
    (⟨hc, fun k f hf => by rw [h₀ k] at hf; cases hf⟩ : VolumeOk g s) h

/-- A file made, written and closed, then opened and read. -/
def transferRun : List FatEvent :=
  [.fatfsOpen 0 [97] oCreat, .fatfsWrite 0 [1, 2, 3], .fatfsClose 0, .fatfsOpen 0 [97] oRdonly,
    .fatfsRead 0 2, .fatfsSeek 0 1 0, .fatfsRead 0 5]

/-- A volume of 16 clusters. -/
theorem transfers_in_partition_write_read :
    (run (fatStep idealDev tinyFat 65537) blankFs transferRun).isSome = true ∧
      Along (fatStep idealDev tinyFat 65537) (TransfersInside idealDev tinyFat 65537 20) blankFs
        transferRun :=
  ⟨by decide +kernel, transfers_in_partition idealDev_works tinyFat_ok (blankFs_coherent tinyFat)
    (fun _ => rfl) (by decide +kernel)⟩

/-- A volume with one file, `A`, of exactly one cluster. -/
def oneClusterFs : FatFs :=
  { blankFs with
    vol := { blankFs.vol with
      disk := fun a =>
        -- cluster 2 is the last one, in both tables
        if a = 516 ∨ a = 517 ∨ a = 1028 ∨ a = 1029 then 0xFF
        -- name, first cluster and size
        else if a = 1536 then 65
        else if 1536 < a ∧ a < 1547 then 32
        else if a = 1562 ∨ a = 1565 then 2
        else 0 } }

/-- Two ways out of a partition. With one data cluster and spare entries in the
table, a file of 513 bytes gets a second cluster, which starts at the end of
the partition. And when the file `A` has been read to its end, the current
cluster is the end mark, at which the next write transfers. -/
theorem transfer_behind_partition :
    (∃ s, run (fatStep idealDev tinyFat 65537) blankFs [.fatfsOpen 0 [97] oCreat] = some s ∧
      ¬TransfersInside idealDev tinyFat 65537 5 s (.fatfsWrite 0 (List.replicate 513 0))) ∧
    ∃ s, run (fatStep idealDev tinyFat 65537) oneClusterFs
        [.fatfsOpen 0 [97] oWronly, .fatfsRead 0 512] = some s ∧
      transfers idealDev tinyFat 65537 s (.fatfsWrite 0 [1]) = [65537] := by
  constructor
  · have h : (run (fatStep idealDev tinyFat 65537) blankFs [.fatfsOpen 0 [97] oCreat]).any
        (fun s => decide (transfers idealDev tinyFat 65537 s
          (.fatfsWrite 0 (List.replicate 513 0)) = [4, 5])) = true := by
      decide +kernel
    obtain ⟨s, hs, h⟩ := (Option.any_eq_true ..).mp h
    refine ⟨s, hs, fun hin => ?_⟩
    have hlast := hin 5 (by rw [of_decide_eq_true h]; decide)
    exact absurd hlast.2 (by decide)
  · have h : (run (fatStep idealDev tinyFat 65537) oneClusterFs
        [.fatfsOpen 0 [97] oWronly, .fatfsRead 0 512]).any
        (fun s => decide (transfers idealDev tinyFat 65537 s (.fatfsWrite 0 [1]) = [65537])) =
        true := by
      decide +kernel
    obtain ⟨s, hs, h⟩ := (Option.any_eq_true ..).mp h
    exact ⟨s, hs, of_decide_eq_true h⟩

end Runs

end Wjos
