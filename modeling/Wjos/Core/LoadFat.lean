/-
Wjos.Core.LoadFat — `load_elf_file` on a file of a FAT volume.

`fatFiles` is the file layer with one open file, on which `sys_read` and
`sys_lseek` go to `fatfs_read` and `fatfs_seek`. `fatFiles_fileOpen` says that it
is as the loader relies on, with the clusters of the volume: `fatfs_seek` walks
from the current cluster, so it goes where it should from the first one, and it
fails behind the end of the chain. So the loader builds the image of a file that
fits (`load_elf_image`).
-/
import Wjos.Core.LoadElf
import Wjos.Fs.Fatfs.SeekRead

namespace Wjos.Os

open Lib

/-- The file layer with one open file, descriptor 1. -/
def fatFiles (dev : Dev) (g : Fat) (fuel : Nat) : FileLayer (Volume × File) where
  sysOpen := fun s _ _ => some (1, s)
  sysRead := fun s _ _ len => (fatfsRead dev g fuel s.1 (fun _ => 0) len s.2).map
    fun (v, file, buf, r) => (((r : Int), ((List.range r).map buf).take len), (v, file))
  sysLseek := fun s _ _ offset => (fatfsSeek dev g s.1 s.2 offset 0).map
    fun (v, file, err) => (err, (v, file))
  sysClose := fun s _ _ => some (0, (fatfsClose dev g s.1 s.2, s.2))
  clearFileTable := fun s _ => s
  copyOpenedFiles := fun s _ _ => s
  closeFiles := fun s _ => some s
  length_le := by
    intro s t fd len r h
    obtain ⟨x, -, rfl⟩ := Option.map_eq_some_iff.mp h
    exact List.length_take_le ..

/-- The bytes of a file. -/
def fileBytes (g : Fat) (im : Image) (sblk size : Nat) : List UInt8 :=
  (List.range size).map (fileByte g im sblk)

/-- The file is open on the volume and stands at `pos`. -/
structure StandsAt (g : Fat) (im : Image) (sblk size pos : Nat) (s : Volume × File) : Prop
    extends OpenAt g im sblk size s where
  pos : s.2.pos = pos

section Fat

variable {dev : Dev} {g : Fat} {im : Image} {fuel sblk size pos : Nat} {s : Volume × File}

theorem fileBytes_slice {len : Nat} (hlen : pos + len ≤ size) :
    ((fileBytes g im sblk size).drop pos).take len =
      (List.range len).map fun i => fileByte g im sblk (pos + i) := by
  refine List.ext_getElem? fun i => ?_
  rcases Nat.lt_or_ge i len with hi | hi
  · rw [List.getElem?_take_of_lt hi, List.getElem?_drop, fileBytes, List.getElem?_map,
      List.getElem?_map, List.getElem?_range (by omega), List.getElem?_range hi]
    rfl
  · rw [List.getElem?_eq_none (by simp; omega), List.getElem?_eq_none (by simpa using hi)]

/-- A read of the file within its size. -/
theorem fatFiles_read {len : Nat} (hw : Works dev) (hg : g.Ok) (h : StandsAt g im sblk size pos s)
    (hlen : pos + len ≤ size) (hsize : size < 2147483648) (t : TaskId) (fd : Int) :
    ∃ s', (fatFiles dev g fuel).sysRead s t fd len =
      some (((len : Int), ((fileBytes g im sblk size).drop pos).take len), s') ∧
        StandsAt g im sblk size (pos + len) s' := by
  have hpos := h.pos
  have hs := h.size
  obtain ⟨v', f', buf', r, hread, hv', hst', hsb, hsz, hp, hright⟩ :=
    fatfsRead_standing (n := len) hw hg fuel h.vol h.standing (fun _ => 0) (by omega) (by omega)
  have hr : r = len := by
    rw [hright.count]
    omega
  subst hr
  refine ⟨(v', f'), ?_, ⟨⟨hv', hst', hsb.trans h.sblk, hsz.trans h.size⟩, by rw [hp, hpos]⟩⟩
  have hbytes :
      ((List.range r).map buf').take r = ((fileBytes g im sblk size).drop pos).take r := by
    rw [fileBytes_slice hlen, List.take_of_length_le (by simp)]
    refine List.map_congr_left fun i hi => ?_
    rw [hright.bytes i (List.mem_range.mp hi), h.sblk, hpos]
  rw [← hbytes]
  show Option.map _ (fatfsRead dev g fuel s.1 (fun _ => 0) r s.2) = _
  rw [hread]
  rfl

/-- A seek that stays on the clusters of the file goes where it should from the
first one. -/
theorem fatFiles_seek {clusters offset : Nat} (hw : Works dev) (hg : g.Ok)
    (hchain : HoldsClusters im.fat sblk clusters) (h : StandsAt g im sblk size pos s)
    (hoff : offset ≤ size) (hgoes : SeekGoes g.clusterByteSize clusters pos offset)
    (hsize : size < 2147483648) (t : TaskId) (fd : Int) :
    ∃ s', (fatFiles dev g fuel).sysLseek s t fd offset = some (0, s') ∧
      (pos < g.clusterByteSize → StandsAt g im sblk size offset s') := by
  have hs := h.size
  have hst := h.standing
  have hq := hg.clusterByteSize_pos
  have hat : 0 < size → s.2.cblk = im.fat^[pos / g.clusterByteSize] sblk := by
    intro hpos
    rw [hst.cblk (by omega), h.pos, h.sblk]
  obtain ⟨v', hv', hr⟩ := fatfsSeek_walks (follows_shows hw hg) hq h.vol s.2
    (show offset < 4294967296 by omega)
  -- the walk starts at the cluster of `pos`
  have hwalk : HoldsClusters im.fat (im.fat (clusterT s.2.cblk)) (offset / g.clusterByteSize) := by
    intro i hi
    have hlast := hgoes.resolve_left fun hlt => by
      rw [Nat.div_eq_of_lt hlt] at hi
      omega
    have hone : 0 < size := by
      by_contra hzero
      rw [show offset = 0 by omega, Nat.zero_div] at hi
      omega
    have hv : clusterIsValid (im.fat^[pos / g.clusterByteSize] sblk) = true := hchain _ (by omega)
    rw [clusterIsValid_iff] at hv
    rw [hat hone, clusterT_of_lt (by omega), ← Function.iterate_succ_apply,
      ← Function.iterate_add_apply]
    exact hchain _ (by omega)
  rw [if_pos hwalk] at hr
  refine ⟨(v', { s.2 with pos := offset
                          cblk := im.fat^[offset / g.clusterByteSize] (clusterT s.2.cblk) }), ?_,
    fun hfirst => ⟨⟨hv', ⟨hst.holds, hst.size, by show offset ≤ s.2.size; omega, fun hne => ?_⟩,
      h.sblk, h.size⟩, rfl⟩⟩
  · show Option.map _ (fatfsSeek dev g s.1 s.2 offset 0) = _
    rw [hr]
    rfl
  · have hv := hst.holds.sblk_valid hq hne
    rw [clusterIsValid_iff, h.sblk] at hv
    show im.fat^[offset / g.clusterByteSize] (clusterT s.2.cblk) =
      im.fat^[offset / g.clusterByteSize] s.2.sblk
    rw [hat (hs ▸ hne), Nat.div_eq_of_lt hfirst, Function.iterate_zero_apply,
      clusterT_of_lt (by omega), h.sblk]

/-- A file on a FAT volume whose transfers work is as the loader relies on. -/
theorem fatFiles_fileOpen {clusters : Nat} (hw : Works dev) (hg : g.Ok) (fuel : Nat)
    (hsize : size < 2147483648) (hchain : HoldsClusters im.fat sblk clusters)
    (hfill : size ≤ clusters * g.clusterByteSize) (t : TaskId) :
    FileOpen (fatFiles dev g fuel) t 1 (fileBytes g im sblk size) g.clusterByteSize clusters
      fun pos s => StandsAt g im sblk size pos s := by
  have hlength : (fileBytes g im sblk size).length = size := by simp [fileBytes]
  refine ⟨hlength.symm ▸ hfill, fun s pos len h hlen => ?_, fun s pos offset h hoff hgoes => ?_,
    fun s pos _ => ⟨0, _, rfl⟩⟩
  · exact fatFiles_read hw hg h (hlength ▸ hlen) hsize t 1
  · obtain ⟨s', hseek, hat⟩ :=
      fatFiles_seek hw hg hchain h (hlength ▸ hoff) hgoes hsize t 1
    exact ⟨s', hseek, hat, 0, _, rfl⟩

end Fat

/-- An ELF file with one program header: `filesz` bytes of the file from `offset`
on at `0x80000000`, and zeros up to `memsz`. -/
def tinyElf (offset filesz memsz : UInt8) : List UInt8 :=
  [0x7F, 69, 76, 70, 1, 1, 1, 0, 0, 0, 0, 0, 0, 0, 0, 0, 2, 0, 3, 0, 1, 0, 0, 0,
    0, 0, 0, 0x80, 52, 0, 0, 0, 0, 0, 0, 0, 0, 0, 0, 0, 52, 0, 32, 0, 1, 0, 0, 0, 0, 0, 0, 0,
    1, 0, 0, 0, offset, 0, 0, 0, 0, 0, 0, 0x80, 0, 0, 0, 0, filesz, 0, 0, 0, memsz, 0, 0, 0,
    7, 0, 0, 0, 0, 16, 0, 0]

/-- Four free frames with 0xFF in them, and an empty directory at `0x1000`. -/
def fullMem : PhysMem :=
  { emptyMem 16384 with mem := fun a => if a < 0x100000 then 0 else 0xFF }

/-- A volume with that file in cluster 2. -/
def elfVol (offset filesz memsz : UInt8) : Volume where
  disk := fun a =>
    if a = 516 ∨ a = 1028 then 0xF8 else if a = 517 ∨ a = 1029 then 0xFF
    else if a < 2048 then 0 else (tinyElf offset filesz memsz).getD (a - 2048) 0
  fatBuffer := fun _ => 0
  currSector := -1
  calls := 0
  stack := fun _ => 0

/-- The file. -/
def elfFile : File where
  type := .normal
  size := 84
  pos := 0
  mode := 0
  sblk := 2
  cblk := 2
  pIndex := 0

/-- `first_task` with the file open. -/
def elfTask (offset filesz memsz : UInt8) : OsState (Volume × File) :=
  { oneTask with phys := fullMem, files := (elfVol offset filesz memsz, elfFile) }

/-- The bytes of the file. -/
def elfBytes (offset filesz memsz : UInt8) : List UInt8 :=
  fileBytes tinyFat (image tinyFat (elfVol offset filesz memsz).disk) 2 84

theorem fullMem_pde (i : Nat) (hi : i < 1024) : uvmPde fullMem.mem 0x1000 i = 0 := by
  show le32 (fun a => if a < 0x100000 then (0 : UInt8) else 0xFF) (0x1000 + 4 * i) = 0
  rw [le32, le16, le16, if_pos (by omega), if_pos (by omega), if_pos (by omega), if_pos (by omega)]
  rfl

theorem fullMem_room {data : List UInt8} (h : framesNeeded (hasTable fullMem 0x1000)
    ((elfLoads data).flatMap segPages) ≤ fullMem.freeCount) : RoomFor fullMem 0x1000 data := by
  have hnone : ∀ p, UserPage p → pageEntry fullMem 0x1000 p = none := by
    intro p hp
    have hlt := hp.2
    rw [pageEntry_eq_none, pagePresent, fullMem_pde _ (by omega)]
    rfl
  have hdir : 0x1000 + 4096 ≤ frameAddr 0 := by decide
  have hok : DirOk fullMem 0x1000 :=
    .zeroed ⟨rfl, rfl, by decide, hdir⟩ (.inl hdir) fullMem_pde
  refine ⟨⟨hok, fun p hp e he => ?_, fun p _ hp _ e _ he => ?_⟩, hnone, h⟩
  · rw [hnone p hp] at he
    cases he
  · rw [hnone p hp] at he
    cases he

section TinyElf

variable {offset filesz memsz : UInt8}

theorem tinyElf_ok {ph : Phdr} (hload : elfLoads (tinyElf offset filesz memsz) = [ph])
    (hheaders : (elfHeaders (tinyElf offset filesz memsz)).map Prod.fst = [52])
    (hseg : SegOk (tinyElf offset filesz memsz) ph) : ElfOk (tinyElf offset filesz memsz) := by
  refine ⟨by simp [tinyElf], by simp [tinyElf], ⟨rfl, rfl, rfl, rfl⟩, fun hd hmem => ?_,
    fun ph' hph => ?_, ?_⟩
  · have hat : hd.1 ∈ (elfHeaders (tinyElf offset filesz memsz)).map Prod.fst :=
      List.mem_map_of_mem hmem
    rw [hheaders, List.mem_singleton] at hat
    simp [hat, tinyElf]
  · rw [hload, List.mem_singleton] at hph
    exact hph ▸ hseg
  · rw [hload]
    exact List.pairwise_singleton _ ph

/-- The file fits one cluster when its segment fits. -/
theorem tinyElf_fits {ph : Phdr} (hheaders : elfHeaders (tinyElf offset filesz memsz) = [(52, ph)])
    (hload : elfLoads (tinyElf offset filesz memsz) = [ph]) (hseg : SegFits ph)
    (hend : ph.pVaddr + ph.pMemsz < 4294967296) (hoff : ph.pOffset < 512) :
    LoadFits (tinyElf offset filesz memsz) 512 1 := by
  refine ⟨fun ph' hph => ?_, fun ph' hph => ?_, ?_⟩
  · rw [hload, List.mem_singleton] at hph
    exact hph ▸ hseg
  · rw [hload, List.mem_singleton] at hph
    rw [hload, hph]
    exact (Nat.mod_eq_of_lt hend).ge
  · rw [hheaders]
    refine ⟨by decide, ?_⟩
    split
    · exact ⟨.inl (by decide), fun _ => .inl hoff, trivial⟩
    · trivial

end TinyElf

theorem tiny_full : elfLoads (tinyElf 0 84 84) =
    [{ pType := 1, pOffset := 0, pVaddr := 0x80000000, pFilesz := 84, pMemsz := 84 }] := rfl

theorem tiny_empty : elfLoads (tinyElf 84 0 0) =
    [{ pType := 1, pOffset := 84, pVaddr := 0x80000000, pFilesz := 0, pMemsz := 0 }] := rfl

theorem tiny_bss : elfLoads (tinyElf 0 1 2) =
    [{ pType := 1, pOffset := 0, pVaddr := 0x80000000, pFilesz := 1, pMemsz := 2 }] := rfl

theorem elfBytes_full : elfBytes 0 84 84 = tinyElf 0 84 84 := by decide +kernel

theorem elfBytes_empty : elfBytes 84 0 0 = tinyElf 84 0 0 := by decide +kernel

theorem elfBytes_bss : elfBytes 0 1 2 = tinyElf 0 1 2 := by decide +kernel

theorem elfVol_standsAt {offset filesz memsz : UInt8}
    (hholds : HoldsFile tinyFat (image tinyFat (elfVol offset filesz memsz).disk) elfFile) :
    StandsAt tinyFat (image tinyFat (elfVol offset filesz memsz).disk) 2 84 0
      (elfTask offset filesz memsz).files := by
  have hpos : elfFile.pos ≤ elfFile.size := by decide
  have hsize : elfFile.size < 4294967296 := by decide
  refine ⟨⟨⟨rfl, coherent_uncached rfl⟩, ⟨hholds, hsize, hpos, fun _ => ?_⟩, rfl, rfl⟩, rfl⟩
  show 2 = (image tinyFat (elfVol offset filesz memsz).disk).fat^[0 / 512] 2
  rw [Nat.zero_div]
  rfl

end Wjos.Os
