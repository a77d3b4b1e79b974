/-
Wjos.Fs.Fatfs.Volume — the volume under `kernel/fs/fatfs/fatfs.c`: the
block device, the one-sector cache, directory entries and entries of the
file allocation table.

`Fat` holds the fields of `fat_t` that `fatfs_mount` computes once,
`Volume` what the functions change: the bytes of the disk, `fat_buffer`
with `curr_sector`, and the number of device calls made so far. A `Dev` answers
each call with the number of sectors it transferred, or a negative error;
it moves exactly that many sectors. `stack` is what the stack frame of
`fatfs_open` holds where it declares a `diritem_t` without a value.

Sector numbers of the tables and of the directory are below `2^31` for any
boot sector, so `int sector` is a natural number here.
-/
import Wjos.Lib.CInt
import Wjos.Lib.Memory

namespace Wjos

open Lib

/-- `SECTOR_SIZE`, the unit of the device. -/
def sectorSize : Nat := 512

/-- `FAT_CLUSTER_INVALID`. -/
def fatClusterInvalid : Nat := 0xFFF8

/-- `FAT_CLUSTER_FREE`. -/
def fatClusterFree : Nat := 0

/-- `DIRITEM_NAME_FREE`. -/
def diritemNameFree : UInt8 := 0xE5

/-- `DIRITEM_NAME_END`. -/
def diritemNameEnd : UInt8 := 0

/-- `SFN_LEN`. -/
def sfnLen : Nat := 11

/-- The geometry fields of `fat_t`. -/
structure Fat where
  tblStart : Nat
  tblCnt : Nat
  tblSectors : Nat
  bytesPerSec : Nat
  secPerCluster : Nat
  rootEntCnt : Nat
  rootStart : Nat
  dataStart : Nat
  clusterByteSize : Nat
  deriving DecidableEq, Repr

structure Volume where
  disk : Nat → UInt8
  fatBuffer : Nat → UInt8
  currSector : Int
  calls : Nat
  stack : Nat → UInt8

/-- What the device answers to its `k`-th call, for `n` sectors. -/
abbrev Dev := Nat → Nat → Int

/-- `dev_read` of `size` sectors into `buf`. -/
def devRead (dev : Dev) (v : Volume) (addr : Nat) (buf : Nat → UInt8) (size : Nat) :
    Volume × (Nat → UInt8) × Int :=
  let cnt := dev v.calls size
  ({ v with calls := v.calls + 1 },
    copyTo buf 0 (min cnt.toNat size * sectorSize) fun i => v.disk (addr * sectorSize + i), cnt)

/-- `dev_write` of `size` sectors from `buf`. -/
def devWrite (dev : Dev) (v : Volume) (addr : Nat) (buf : Nat → UInt8) (size : Nat) :
    Volume × Int :=
  let cnt := dev v.calls size
  ({ v with
      disk := copyTo v.disk (addr * sectorSize) (min cnt.toNat size * sectorSize) buf
      calls := v.calls + 1 }, cnt)

/-- `dev_read` into `fat_buffer`. -/
def devReadBuffer (dev : Dev) (v : Volume) (addr size : Nat) : Volume × Int :=
  let (v, buf, cnt) := devRead dev v addr v.fatBuffer size
  ({ v with fatBuffer := buf }, cnt)

/-! ## The sector cache -/

/-- `bread_sector`. -/
def breadSector (dev : Dev) (v : Volume) (sector : Nat) : Volume × Int :=
  if (sector : Int) = v.currSector then (v, 0)
  else
    let (v, cnt) := devReadBuffer dev v sector 1
    if cnt = 1 then ({ v with currSector := sector }, 0) else (v, -1)

/-- `bwrite_sector`. -/
def bwriteSector (dev : Dev) (v : Volume) (sector : Nat) : Volume × Int :=
  let (v, cnt) := devWrite dev v sector v.fatBuffer 1
  (v, if cnt = 1 then 0 else -1)

/-! ## Directory entries -/

/-- `diritem_t`, by its 32 bytes. -/
abbrev DirItem := Nat → UInt8

/-- `sizeof(diritem_t)`. -/
def diritemSize : Nat := 32

/-- `DIR_Name`. -/
def DirItem.name (item : DirItem) : List UInt8 := (List.range sfnLen).map item

/-- `DIR_Attr`. -/
def DirItem.attr (item : DirItem) : UInt8 := item 11

/-- `DIR_FstClusHI`. -/
def DirItem.fstClusHI (item : DirItem) : Nat := le16 item 20

/-- `DIR_FstClusL0`. -/
def DirItem.fstClusL0 (item : DirItem) : Nat := le16 item 26

/-- `DIR_FileSize`. -/
def DirItem.fileSize (item : DirItem) : Nat := le32 item 28

/-- The entry that a pointer into `fat_buffer` points to. -/
def itemAt (v : Volume) (p : Nat) : DirItem := fun j => v.fatBuffer (p + j)

/-- `read_dir_entry`: the returned pointer as an offset in `fat_buffer`. -/
def readDirEntry (dev : Dev) (g : Fat) (v : Volume) (index : Int) : Volume × Option Nat :=
  if index < 0 ∨ index ≥ g.rootEntCnt then (v, none)
  else
    let offset := index.toNat * diritemSize
    let (v, err) := breadSector dev v (g.rootStart + offset / g.bytesPerSec)
    if err < 0 then (v, none) else (v, some (offset % g.bytesPerSec))

/-- `write_dir_entry`. -/
def writeDirEntry (dev : Dev) (g : Fat) (v : Volume) (item : DirItem) (index : Int) :
    Volume × Int :=
  if index < 0 ∨ index ≥ g.rootEntCnt then (v, -1)
  else
    let offset := index.toNat * diritemSize
    let sector := g.rootStart + offset / g.bytesPerSec
    let (v, err) := breadSector dev v sector
    if err < 0 then (v, -1)
    else
      let buffer := copyTo v.fatBuffer (offset % g.bytesPerSec) diritemSize item
      bwriteSector dev { v with fatBuffer := buffer } sector

/-! ## Entries of the file allocation table

A `cluster_t` has 16 bits. -/

/-- `cluster_is_valid`. -/
def clusterIsValid (cluster : Nat) : Bool := cluster < 0xFFF8 && cluster ≥ 2

/-- `sizeof(cluster_t)`. -/
def clusterSize : Nat := 2

/-- `cluster_get_next`. -/
def clusterGetNext (dev : Dev) (g : Fat) (v : Volume) (curr : Nat) : Volume × Nat :=
  if clusterIsValid curr = false then (v, fatClusterInvalid)
  else
    let offset := curr * clusterSize
    let sector := offset / g.bytesPerSec
    if sector ≥ g.tblSectors then (v, fatClusterInvalid)
    else
      let (v, err) := breadSector dev v (g.tblStart + sector)
      if err < 0 then (v, fatClusterInvalid)
      else (v, le16 v.fatBuffer (offset % g.bytesPerSec))

/-- The loop of `cluster_set_next` over the copies of the table. -/
def writeCopies (dev : Dev) (g : Fat) : Nat → Volume → Nat → Volume × Int
  | 0, v, _ => (v, 0)
  | n + 1, v, sector =>
    let (v, err) := bwriteSector dev v (g.tblStart + sector)
    if err < 0 then (v, -1) else writeCopies dev g n v (sector + g.tblSectors)

/-- `cluster_set_next`. -/
def clusterSetNext (dev : Dev) (g : Fat) (v : Volume) (curr next : Nat) : Volume × Int :=
  if clusterIsValid curr = false then (v, -1)
  else
    let offset := curr * clusterSize
    let sector := offset / g.bytesPerSec
    if sector ≥ g.tblSectors then (v, fatClusterInvalid)
    else
      let (v, err) := breadSector dev v (g.tblStart + sector)
      if err < 0 then (v, fatClusterInvalid)
      else
        let buffer := put16 v.fatBuffer (offset % g.bytesPerSec) next
        writeCopies dev g g.tblCnt { v with fatBuffer := buffer } sector

/-- `cluster_free_chain`; `none` when the loop has not ended after `fuel`
rounds. -/
def clusterFreeChain (dev : Dev) (g : Fat) : Nat → Volume → Nat → Option Volume
  | 0, v, start => if clusterIsValid start then none else some v
  | fuel + 1, v, start =>
    if clusterIsValid start then
      let (v, next) := clusterGetNext dev g v start
      let (v, _) := clusterSetNext dev g v start fatClusterFree
      clusterFreeChain dev g fuel v next
    else some v

/-- `c_total` of `cluster_alloc_free`. -/
def Fat.cTotal (g : Fat) : Nat := u32 (g.tblSectors * g.bytesPerSec) / clusterSize

/-- The failure path of `cluster_alloc_free`. -/
def clusterAllocFailed (dev : Dev) (g : Fat) (fuel : Nat) (v : Volume) (start : Nat) :
    Option (Volume × Nat) :=
  (clusterFreeChain dev g fuel v start).map fun v => (v, fatClusterInvalid)

/-- What `cluster_alloc_free` does after its loop. -/
def clusterAllocEnd (dev : Dev) (g : Fat) (fuel : Nat) (v : Volume) (pre start cnt : Nat) :
    Option (Volume × Nat) :=
  if cnt = 0 then
    let (v, err) := clusterSetNext dev g v pre fatClusterInvalid
    if err = 0 then some (v, start) else clusterAllocFailed dev g fuel v start
  else clusterAllocFailed dev g fuel v start

/-- The loop of `cluster_alloc_free`, of at most `n` rounds, with what
follows it. -/
def clusterAllocLoop (dev : Dev) (g : Fat) (fuel : Nat) :
    Nat → Volume → (pre start curr cnt : Nat) → Option (Volume × Nat)
  | 0, _, _, _, _, _ => none
  | n + 1, v, pre, start, curr, cnt =>
    if cnt ≠ 0 ∧ curr < g.cTotal then
      let (v, free) := clusterGetNext dev g v curr
      if free = fatClusterFree then
        let start := if clusterIsValid start then start else curr
        let (v, err) := if clusterIsValid pre then clusterSetNext dev g v pre curr else (v, 0)
        if err < 0 then clusterAllocFailed dev g fuel v start
        else clusterAllocLoop dev g fuel n v curr start ((curr + 1) % 65536) (cnt - 1)
      else clusterAllocLoop dev g fuel n v pre start ((curr + 1) % 65536) cnt
    else clusterAllocEnd dev g fuel v pre start cnt

/-- `cluster_alloc_free`. -/
def clusterAllocFree (dev : Dev) (g : Fat) (fuel : Nat) (v : Volume) (cnt : Nat) :
    Option (Volume × Nat) :=
  clusterAllocLoop dev g fuel fuel v fatClusterInvalid fatClusterInvalid 2 cnt

end Wjos
