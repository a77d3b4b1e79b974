/-
Wjos.Fs.Fatfs.Fatfs — the file operations of `kernel/fs/fatfs/fatfs.c`.

`File` holds the fields of `file_t` that these functions use. `size` is a
`uint32_t`; the `int` fields `pos`, `sblk` and `cblk` only take part in
unsigned arithmetic here and are kept by their 32-bit patterns; `p_index`
is signed. Strings are lists of bytes, ended by their first NUL or by the end
of the list.

Functions that follow a chain of clusters take `fuel` and are `none` when
it runs out. The loops over the bytes of a request take their bound from
the request.

`FatFs` is the volume with the open files, `fatStep` one call. A call on a
file that is not open changes nothing: the descriptor layer refuses it.
-/
import Wjos.Fs.Fatfs.Volume
import Wjos.Tools.Klib

namespace Wjos

open Lib

/-- `O_RDONLY`. -/
def oRdonly : Nat := 0

/-- `O_WRONLY`. -/
def oWronly : Nat := 1

/-- `O_CREAT`. -/
def oCreat : Nat := 0x200

/-- `O_TRUNC`. -/
def oTrunc : Nat := 0x400

/-- `file_type_t`. -/
inductive FileType where
  | unknown
  | tty
  | dir
  | normal
  deriving DecidableEq, Repr

structure File where
  type : FileType
  size : Nat
  pos : Nat
  mode : Nat
  sblk : Nat
  cblk : Nat
  pIndex : Int
  deriving DecidableEq, Repr

/-- The conversion of an `int` to `cluster_t`. -/
def clusterT (c : Nat) : Nat := c % 65536

/-! ## Names -/

/-- The loop of `to_sfn`; `curr` is the offset of the next character. -/
def toSfnLoop : List UInt8 → (Nat → UInt8) → Nat → Nat → UInt8
  | [], dest, _ => dest
  | c :: src, dest, curr =>
    if c = 0 ∨ curr ≥ sfnLen then dest
    else if c = 46 then toSfnLoop src dest 8
    else
      let c := if 97 ≤ c ∧ c ≤ 122 then c - 97 + 65 else c
      toSfnLoop src (fun a => if a = curr then c else dest a) (curr + 1)

/-- `to_sfn`: the eleven bytes it stores. -/
def toSfn (src : List UInt8) : List UInt8 :=
  (List.range sfnLen).map (toSfnLoop src (fun _ => 32) 0)

/-- `diritem_name_match`. -/
def diritemNameMatch (item : DirItem) (path : List UInt8) : Bool := toSfn path = item.name

/-- `diritem_get_type`. -/
def diritemGetType (item : DirItem) : FileType :=
  if item.attr &&& (0x08 ||| 0x02 ||| 0x04) ≠ 0 then .unknown
  else if item.attr &&& 0x0F = 0x0F then .unknown
  else if item.attr &&& 0x10 ≠ 0 then .dir
  else .normal

/-- The loop of `diritem_get_name`, with `11 - i` rounds to go; `c` is the
offset of the next character and `ext` the one of the dot. -/
def diritemGetNameLoop (item : DirItem) :
    Nat → (dest : Nat → UInt8) → (i c : Nat) → Option Nat → (Nat → UInt8) × Option Nat
  | 0, dest, _, _, ext => (dest, ext)
  | n + 1, dest, i, c, ext =>
    let (dest, c) :=
      if item i ≠ 32 then (fun a => if a = c then item i else dest a, c + 1) else (dest, c)
    if i = 7 then
      diritemGetNameLoop item n (fun a => if a = c then 46 else dest a) (i + 1) (c + 1) (some c)
    else diritemGetNameLoop item n dest (i + 1) c ext

/-- `diritem_get_name`; `dest` is the buffer before the call. -/
def diritemGetName (item : DirItem) (dest : Nat → UInt8) : Nat → UInt8 :=
  let dest := copyTo dest 0 (sfnLen + 1) fun _ => 0
  match diritemGetNameLoop item 11 dest 0 0 none with
  | (dest, none) => dest
  | (dest, some ext) =>
    if dest (ext + 1) = 0 then fun a => if a = ext then 0 else dest a else dest

/-- `diritem_init`: it leaves `DIR_CrtTimeTeenth` as it was. -/
def diritemInit (item : DirItem) (attr : UInt8) (name : List UInt8) : DirItem :=
  let item := copyTo item 0 sfnLen fun j => (toSfn name).getD j 0
  let item := put16 item 20 (fatClusterInvalid / 65536)
  let item := put16 item 26 (fatClusterInvalid % 65536)
  let item := put32 item 28 0
  let item := fun a => if a = 11 then attr else if a = 12 then 0 else item a
  let item := put16 (put16 item 14 0) 16 0
  put16 (put16 (put16 item 22 0) 24 0) 18 0

/-- `read_from_diritem`. -/
def readFromDiritem (file : File) (item : DirItem) (index : Int) : File :=
  let sblk := item.fstClusHI * 65536 + item.fstClusL0
  { file with
    type := diritemGetType item
    size := item.fileSize
    pos := 0
    pIndex := index
    sblk := sblk
    cblk := sblk }

/-! ## Opening -/

/-- The loop of `fatfs_open`, with `n` entries to go: the matching entry and
`p_index`, or `none` when an entry could not be read. -/
def openScan (dev : Dev) (g : Fat) (path : List UInt8) :
    Nat → Volume → (i : Nat) → (pIndex : Int) → Volume × Option (Option Nat × Int)
  | 0, v, _, pIndex => (v, some (none, pIndex))
  | n + 1, v, i, pIndex =>
    match readDirEntry dev g v i with
    | (v, none) => (v, none)
    | (v, some p) =>
      let item := itemAt v p
      if item 0 = diritemNameEnd then (v, some (none, i))
      else if item 0 = diritemNameFree then openScan dev g path n v (i + 1) i
      else if diritemNameMatch item path then (v, some (some p, i))
      else openScan dev g path n v (i + 1) pIndex

/-- `fatfs_open`. -/
def fatfsOpen (dev : Dev) (g : Fat) (fuel : Nat) (v : Volume) (path : List UInt8) (file : File) :
    Option (Volume × File × Int) :=
  match openScan dev g path g.rootEntCnt v 0 (-1) with
  | (v, none) => some (v, file, -1)
  | (v, some (some p, pIndex)) =>
    let file := readFromDiritem file (itemAt v p) pIndex
    if file.mode &&& oTrunc ≠ 0 then
      (clusterFreeChain dev g fuel v (clusterT file.sblk)).map fun v =>
        (v, { file with sblk := fatClusterInvalid, cblk := fatClusterInvalid, size := 0 }, 0)
    else some (v, file, 0)
  | (v, some (none, pIndex)) =>
    if file.mode &&& oCreat ≠ 0 then
      let item := diritemInit v.stack 0 path
      let (v, err) := writeDirEntry dev g v item pIndex
      if err < 0 then some (v, file, -1) else some (v, readFromDiritem file item pIndex, 0)
    else some (v, file, -1)

/-! ## Reading and writing -/

/-- `cluster_cnt` of `expand_file`; `none` when the current cluster has the
space. -/
def expandCnt (g : Fat) (size : Nat) (incrBytes : Int) : Option Nat :=
  if size = 0 ∧ size % g.clusterByteSize = 0 then
    some (up2 (u32 incrBytes) g.clusterByteSize / g.clusterByteSize)
  else
    let cfree := g.clusterByteSize - size % g.clusterByteSize
    if (cfree : Int) > incrBytes then none
    else
      let clusterCnt := up2 (u32 (incrBytes - cfree)) g.clusterByteSize / g.clusterByteSize
      some (if clusterCnt = 0 then 1 else clusterCnt)

/-- `expand_file`. -/
def expandFile (dev : Dev) (g : Fat) (fuel : Nat) (v : Volume) (file : File) (incrBytes : Int) :
    Option (Volume × File × Int) :=
  match expandCnt g file.size incrBytes with
  | none => some (v, file, 0)
  | some clusterCnt =>
    (clusterAllocFree dev g fuel v clusterCnt).map fun (v, start) =>
      if clusterIsValid start = false then (v, file, -1)
      else if clusterIsValid (clusterT file.sblk) = false then
        (v, { file with cblk := start, sblk := start }, 0)
      else
        let (v, err) := clusterSetNext dev g v (clusterT file.cblk) start
        (v, file, if err < 0 then -1 else 0)

/-- `move_file_pos`. -/
def moveFilePos (dev : Dev) (g : Fat) (fuel : Nat) (v : Volume) (file : File) (moveBytes : Nat)
    (expand : Bool) : Option (Volume × File × Int) :=
  let cOffset := file.pos % g.clusterByteSize
  let pos := u32 (file.pos + moveBytes)
  if u32 (cOffset + moveBytes) ≥ g.clusterByteSize then
    let (v, next) := clusterGetNext dev g v (clusterT file.cblk)
    if next = fatClusterInvalid ∧ expand then
      (expandFile dev g fuel v file g.clusterByteSize).map fun (v, file, err) =>
        if err < 0 then (v, file, -1)
        else
          let (v, next) := clusterGetNext dev g v (clusterT file.cblk)
          (v, { file with cblk := next, pos := pos }, 0)
    else some (v, { file with cblk := next, pos := pos }, 0)
  else some (v, { file with pos := pos }, 0)

/-- `start_sector`, the first sector of the current cluster. -/
def startSector (g : Fat) (file : File) : Nat :=
  u32 (g.dataStart + ((file.cblk : Int) - 2) * g.secPerCluster)

/-- `curr_read` and `curr_write` when the whole cluster is not moved. -/
def currPart (g : Fat) (clusterOffset nbytes : Nat) : Nat :=
  if u32 (clusterOffset + nbytes) > g.clusterByteSize then g.clusterByteSize - clusterOffset
  else nbytes

/-- One transfer of `fatfs_read`: what the loop does before it moves on.
The results are `buf`, the device's answer and `curr_read`. -/
def readCluster (dev : Dev) (g : Fat) (v : Volume) (file : File) (buf : Nat → UInt8)
    (total nbytes : Nat) : Volume × (Nat → UInt8) × Int × Nat :=
  let clusterOffset := file.pos % g.clusterByteSize
  if clusterOffset = 0 ∧ nbytes = g.clusterByteSize then
    let (v, dest, err) :=
      devRead dev v (startSector g file) (fun i => buf (total + i)) g.secPerCluster
    (v, fun a => if total ≤ a then dest (a - total) else buf a, err, g.clusterByteSize)
  else
    let currRead := currPart g clusterOffset nbytes
    let (v, err) := devReadBuffer dev { v with currSector := -1 } (startSector g file)
      g.secPerCluster
    if err < 0 then (v, buf, err, currRead)
    else (v, copyTo buf total currRead fun i => v.fatBuffer (clusterOffset + i), err, currRead)

/-- The loop of `fatfs_read`, of at most `n` rounds: the contents of the
buffer and `total_read`. -/
def fatfsReadLoop (dev : Dev) (g : Fat) (fuel : Nat) :
    Nat → Volume → File → (Nat → UInt8) → (total nbytes : Nat) →
      Option (Volume × File × (Nat → UInt8) × Nat)
  | 0, v, file, buf, total, nbytes => if nbytes > 0 then none else some (v, file, buf, total)
  | n + 1, v, file, buf, total, nbytes =>
    if nbytes > 0 then
      let (v, buf, err, currRead) := readCluster dev g v file buf total nbytes
      if err < 0 then some (v, file, buf, total)
      else
        (moveFilePos dev g fuel v file currRead false).bind fun (v, file, err) =>
          if err < 0 then some (v, file, buf, total + currRead)
          else fatfsReadLoop dev g fuel n v file buf (total + currRead) (nbytes - currRead)
    else some (v, file, buf, total)

/-- `fatfs_read`; `size` is the 32-bit pattern of the argument. -/
def fatfsRead (dev : Dev) (g : Fat) (fuel : Nat) (v : Volume) (buf : Nat → UInt8) (size : Nat)
    (file : File) : Option (Volume × File × (Nat → UInt8) × Nat) :=
  let nbytes := if u32 (file.pos + size) > file.size then u32 (file.size - file.pos) else size
  fatfsReadLoop dev g fuel nbytes v file buf 0 nbytes

/-- One transfer of `fatfs_write`. The results are the device's answer, of
the call that failed if one did, and `curr_write`. -/
def writeCluster (dev : Dev) (g : Fat) (v : Volume) (file : File) (buf : Nat → UInt8)
    (total nbytes : Nat) : Volume × Int × Nat :=
  let clusterOffset := file.pos % g.clusterByteSize
  if clusterOffset = 0 ∧ nbytes = g.clusterByteSize then
    let (v, err) := devWrite dev v (startSector g file) (fun i => buf (total + i)) g.secPerCluster
    (v, err, g.clusterByteSize)
  else
    let currWrite := currPart g clusterOffset nbytes
    let (v, err) := devReadBuffer dev { v with currSector := -1 } (startSector g file)
      g.secPerCluster
    if err < 0 then (v, err, currWrite)
    else
      let buffer := copyTo v.fatBuffer clusterOffset currWrite fun i => buf (total + i)
      let v := { v with fatBuffer := buffer }
      let (v, err) := devWrite dev v (startSector g file) v.fatBuffer g.secPerCluster
      (v, err, currWrite)

/-- The loop of `fatfs_write`, of at most `n` rounds, and `total_write`. -/
def fatfsWriteLoop (dev : Dev) (g : Fat) (fuel : Nat) (buf : Nat → UInt8) :
    Nat → Volume → File → (total nbytes : Nat) → Option (Volume × File × Nat)
  | 0, v, file, total, nbytes => if nbytes > 0 then none else some (v, file, total)
  | n + 1, v, file, total, nbytes =>
    if nbytes > 0 then
      let (v, err, currWrite) := writeCluster dev g v file buf total nbytes
      if err < 0 then some (v, file, total)
      else
        let file := { file with size := u32 (file.size + currWrite) }
        (moveFilePos dev g fuel v file currWrite true).bind fun (v, file, err) =>
          if err < 0 then some (v, file, total + currWrite)
          else fatfsWriteLoop dev g fuel buf n v file (total + currWrite) (nbytes - currWrite)
    else some (v, file, total)

/-- `fatfs_write`; `size` is the 32-bit pattern of the argument. -/
def fatfsWrite (dev : Dev) (g : Fat) (fuel : Nat) (v : Volume) (buf : Nat → UInt8) (size : Nat)
    (file : File) : Option (Volume × File × Nat) :=
  if u32 (file.pos + size) > file.size then
    (expandFile dev g fuel v file (cInt (file.pos + size - file.size))).bind
      fun (v, file, err) =>
        if err < 0 then some (v, file, 0)
        else fatfsWriteLoop dev g fuel buf size v file 0 size
  else fatfsWriteLoop dev g fuel buf size v file 0 size

/-! ## The other operations -/

/-- `fatfs_close`. -/
def fatfsClose (dev : Dev) (g : Fat) (v : Volume) (file : File) : Volume :=
  if file.mode &&& oRdonly ≠ 0 then v
  else
    match readDirEntry dev g v file.pIndex with
    | (v, none) => v
    | (v, some p) =>
      let buffer := put32 v.fatBuffer (p + 28) file.size
      let buffer := put16 buffer (p + 20) (file.sblk / 65536)
      let buffer := put16 buffer (p + 26) (file.sblk % 65536)
      let v := { v with fatBuffer := buffer }
      (writeDirEntry dev g v (itemAt v p) file.pIndex).1

/-- The loop of `fatfs_seek`, of at most `n` rounds: `curr_pos` and
`current_cluster`, or `none` where it returns `-1`. -/
def fatfsSeekLoop (dev : Dev) (g : Fat) :
    Nat → Volume → (currentCluster currPos offsetToMove : Nat) →
      Option (Volume × Option (Nat × Nat))
  | 0, v, currentCluster, currPos, offsetToMove =>
    if offsetToMove ≠ 0 then none else some (v, some (currPos, currentCluster))
  | n + 1, v, currentCluster, currPos, offsetToMove =>
    if offsetToMove ≠ 0 then
      let cOffset := currPos % g.clusterByteSize
      if u32 (cOffset + offsetToMove) < g.clusterByteSize then
        some (v, some (u32 (currPos + offsetToMove), currentCluster))
      else
        let currMove := g.clusterByteSize - cOffset
        let (v, next) := clusterGetNext dev g v currentCluster
        if clusterIsValid next = false then some (v, none)
        else fatfsSeekLoop dev g n v next (u32 (currPos + currMove))
          (u32 (offsetToMove - currMove))
    else some (v, some (currPos, currentCluster))

/-- `fatfs_seek`. -/
def fatfsSeek (dev : Dev) (g : Fat) (v : Volume) (file : File) (offset : Nat) (dir : Int) :
    Option (Volume × File × Int) :=
  if dir ≠ 0 then some (v, file, -1)
  else
    (fatfsSeekLoop dev g offset v (clusterT file.cblk) 0 offset).map fun
      | (v, none) => (v, file, -1)
      | (v, some (currPos, currentCluster)) =>
        (v, { file with pos := currPos, cblk := currentCluster }, 0)

structure Dirent where
  index : Nat
  type : FileType
  name : Nat → UInt8
  size : Nat

/-- The loop of `fatfs_readdir`, with `n` entries to go: `dir->index`
and, when it returns 0, the entry. -/
def readdirLoop (dev : Dev) (g : Fat) (dirent : Dirent) :
    Nat → Volume → (index : Nat) → Volume × Nat × Option Dirent
  | 0, v, index => (v, index, none)
  | n + 1, v, index =>
    match readDirEntry dev g v index with
    | (v, none) => (v, index, none)
    | (v, some p) =>
      let item := itemAt v p
      if item 0 = diritemNameEnd then (v, index, none)
      else
        let type := diritemGetType item
        if item 0 ≠ diritemNameFree ∧ (type = .normal ∨ type = .dir) then
          (v, index + 1, some
            { size := item.fileSize
              type := type
              name := diritemGetName item dirent.name
              index := index })
        else readdirLoop dev g dirent n v (index + 1)

/-- `fatfs_readdir`; `index` is `dir->index`. -/
def fatfsReaddir (dev : Dev) (g : Fat) (v : Volume) (index : Nat) (dirent : Dirent) :
    Volume × Nat × Option Dirent :=
  readdirLoop dev g dirent (g.rootEntCnt - index) v index

/-- The loop of `fatfs_unlink`, with `n` entries to go. -/
def unlinkScan (dev : Dev) (g : Fat) (fuel : Nat) (path : List UInt8) :
    Nat → Volume → (i : Nat) → Option (Volume × Int)
  | 0, v, _ => some (v, -1)
  | n + 1, v, i =>
    match readDirEntry dev g v i with
    | (v, none) => some (v, -1)
    | (v, some p) =>
      let item := itemAt v p
      if item 0 = diritemNameEnd then some (v, -1)
      else if item 0 = diritemNameFree then unlinkScan dev g fuel path n v (i + 1)
      else if diritemNameMatch item path then
        let cluster := item.fstClusHI * 65536 + item.fstClusL0
        (clusterFreeChain dev g fuel v (clusterT cluster)).map fun v =>
          writeDirEntry dev g v (fun _ => 0) i
      else unlinkScan dev g fuel path n v (i + 1)

/-- `fatfs_unlink`. -/
def fatfsUnlink (dev : Dev) (g : Fat) (fuel : Nat) (v : Volume) (path : List UInt8) :
    Option (Volume × Int) :=
  unlinkScan dev g fuel path g.rootEntCnt v 0

/-! ## Sequences of calls -/

/-- The volume and the open files. -/
structure FatFs where
  vol : Volume
  files : Nat → Option File

inductive FatEvent where
  | fatfsOpen (h : Nat) (path : List UInt8) (mode : Nat)
  | fatfsRead (h size : Nat)
  | fatfsWrite (h : Nat) (buf : List UInt8)
  | fatfsSeek (h offset : Nat) (dir : Int)
  | fatfsClose (h : Nat)
  | fatfsReaddir (index : Nat)
  | fatfsUnlink (path : List UInt8)
  deriving DecidableEq, Repr

/-- The `file_t` that `sys_open` passes on. -/
def fileNew (mode : Nat) : File where
  type := .unknown
  size := 0
  pos := 0
  mode := mode
  sblk := 0
  cblk := 0
  pIndex := 0

/-- The bytes of a caller's buffer. -/
def bufOf (bytes : List UInt8) : Nat → UInt8 := fun i => bytes.getD i 0

/-- One call. -/
def fatStep (dev : Dev) (g : Fat) (fuel : Nat) (s : FatFs) : FatEvent → Option FatFs
  | .fatfsOpen h path mode =>
    match s.files h with
    | some _ => some s
    | none =>
      (fatfsOpen dev g fuel s.vol path (fileNew mode)).map fun (v, file, err) =>
        if err < 0 then { s with vol := v }
        else { vol := v, files := Function.update s.files h (some file) }
  | .fatfsRead h size =>
    match s.files h with
    | none => some s
    | some file =>
      (fatfsRead dev g fuel s.vol (fun _ => 0) size file).map fun (v, file, _) =>
        { vol := v, files := Function.update s.files h (some file) }
  | .fatfsWrite h buf =>
    match s.files h with
    | none => some s
    | some file =>
      (fatfsWrite dev g fuel s.vol (bufOf buf) buf.length file).map fun (v, file, _) =>
        { vol := v, files := Function.update s.files h (some file) }
  | .fatfsSeek h offset dir =>
    match s.files h with
    | none => some s
    | some file =>
      (fatfsSeek dev g s.vol file offset dir).map fun (v, file, _) =>
        { vol := v, files := Function.update s.files h (some file) }
  | .fatfsClose h =>
    match s.files h with
    | none => some s
    | some file =>
      some { vol := fatfsClose dev g s.vol file, files := Function.update s.files h none }
  | .fatfsReaddir index =>
    let dirent : Dirent := { index := 0, type := .unknown, name := fun _ => 0, size := 0 }
    some { s with vol := (fatfsReaddir dev g s.vol index dirent).1 }
  | .fatfsUnlink path =>
    (fatfsUnlink dev g fuel s.vol path).map fun (v, _) => { s with vol := v }

end Wjos
