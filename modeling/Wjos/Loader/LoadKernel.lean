/-
Wjos.Loader.LoadKernel — `reload_elf_file` and `load_kernel` of
`loader/loader_32.c`.

The loader runs without paging: memory is bytes by physical address, and an
address has 32 bits. Its own code and stack are not in this memory, so what is
said holds for segments that keep clear of them too. The ELF file lies in memory
while its segments are copied, and each test of a loop reads its header again.
`KernelImage` says for which files that does no harm; then a header places its
segment (`reloadPhdr_eq`), and the loop over the headers all of them.

`load_kernel_image`: when the disk holds such a file, `load_kernel` has its
entry, with every segment in place.
-/
import Wjos.Loader.ReadDisk

namespace Wjos

open Lib

/-- `SYS_KERNEL_LOAD_ADDR`. -/
def sysKernelLoadAddr : Nat := 1024 * 1024

/-- An address of 32 bits. -/
def addr32 (a : Nat) : Nat := a % 4294967296

/-! ## The loops -/

/-- `for (int j = 0; j < phdr->p_filesz; j++)`. No `p_filesz` is above the
fuel. -/
def copyBytes (phdr src dest : Nat) : (fuel : Nat) → (mem : Nat → UInt8) → (j : Nat) → Nat → UInt8
  | 0, mem, _ => mem
  | fuel + 1, mem, j =>
    if j < le32 mem (phdr + 16) then
      copyBytes phdr src dest fuel
        (Function.update mem (addr32 (dest + j)) (mem (addr32 (src + j)))) (j + 1)
    else mem

/-- `for (int j = 0; j < phdr->p_memsz - phdr->p_filesz; j++)`. -/
def zeroBytes (phdr dest : Nat) : (fuel : Nat) → (mem : Nat → UInt8) → (j : Nat) → Nat → UInt8
  | 0, mem, _ => mem
  | fuel + 1, mem, j =>
    if j < addr32 (le32 mem (phdr + 20) + 4294967296 - le32 mem (phdr + 16)) then
      zeroBytes phdr dest fuel (Function.update mem (addr32 (dest + j)) 0) (j + 1)
    else mem

/-- The body of the loop over the program headers. -/
def reloadPhdr (fileBuffer phdr : Nat) (mem : Nat → UInt8) : Nat → UInt8 :=
  if le32 mem phdr ≠ 1 then mem
  else
    let src := fileBuffer + le32 mem (phdr + 4)
    let mem := copyBytes phdr src (le32 mem (phdr + 12)) 4294967296 mem 0
    zeroBytes phdr (le32 mem (phdr + 12) + le32 mem (phdr + 16)) 4294967296 mem 0

/-- `for (int i = 0; i < elf_hdr->e_phnum; i++)`. -/
def reloadLoop (fileBuffer : Nat) : (fuel : Nat) → (mem : Nat → UInt8) → (i : Nat) → Nat → UInt8
  | 0, mem, _ => mem
  | fuel + 1, mem, i =>
    if i < le16 mem (fileBuffer + 44) then
      reloadLoop fileBuffer fuel
        (reloadPhdr fileBuffer (addr32 (fileBuffer + le32 mem (fileBuffer + 28) + 32 * i)) mem)
        (i + 1)
    else mem

/-- `reload_elf_file`: the memory and the entry, 0 for what is no ELF file. -/
def reloadElfFile (mem : Nat → UInt8) (fileBuffer : Nat) : (Nat → UInt8) × Nat :=
  if mem fileBuffer ≠ 0x7F ∨ mem (fileBuffer + 1) ≠ 0x45 ∨ mem (fileBuffer + 2) ≠ 0x4C ∨
      mem (fileBuffer + 3) ≠ 0x46 then (mem, 0)
  else
    let mem := reloadLoop fileBuffer 65536 mem 0
    (mem, le32 mem (fileBuffer + 24))

/-! ## The image -/

section

variable (file : Nat → UInt8) (i : Nat)

/-- The place of program header `i` in the file. -/
def phdrOff : Nat := le32 file 28 + 32 * i

/-- `p_type == PT_LOAD`. -/
def IsLoad : Prop := le32 file (phdrOff file i) = 1

/-- `p_offset`. -/
def phOffset : Nat := le32 file (phdrOff file i + 4)

/-- `p_paddr`. -/
def phPaddr : Nat := le32 file (phdrOff file i + 12)

/-- `p_filesz`. -/
def phFilesz : Nat := le32 file (phdrOff file i + 16)

/-- `p_memsz`. -/
def phMemsz : Nat := le32 file (phdrOff file i + 20)

/-- Byte `j` of the segment: from the file, and zero behind it. -/
def segByte (j : Nat) : UInt8 := if j < phFilesz file i then file (phOffset file i + j) else 0

/-- The address is in the segment. -/
def InSeg (a : Nat) : Prop := phPaddr file i ≤ a ∧ a < phPaddr file i + phMemsz file i

end

/-- A segment that can be placed while the file of `size` bytes lies at
`fileBuffer`. -/
structure SegPlaces (file : Nat → UInt8) (size fileBuffer i : Nat) : Prop where
  inFile : phOffset file i + phFilesz file i ≤ size
  filesz : phFilesz file i ≤ phMemsz file i
  top : phPaddr file i + phMemsz file i ≤ 4294967296
  clear : phPaddr file i + phMemsz file i ≤ fileBuffer ∨ fileBuffer + size ≤ phPaddr file i

/-- An ELF file of `size` bytes whose segments keep clear of the place it lies
at and of one another. -/
structure KernelImage (file : Nat → UInt8) (size fileBuffer : Nat) : Prop where
  magic : file 0 = 0x7F ∧ file 1 = 0x45 ∧ file 2 = 0x4C ∧ file 3 = 0x46
  header : 52 ≤ size
  phdrs : phdrOff file (le16 file 44) ≤ size
  segs : ∀ i < le16 file 44, IsLoad file i → SegPlaces file size fileBuffer i
  apart : ∀ i < le16 file 44, ∀ j < le16 file 44, i ≠ j → IsLoad file i → IsLoad file j →
    ∀ a, InSeg file i a → ¬InSeg file j a

section

variable {file mem : Nat → UInt8} {size fileBuffer phdr src dest n i : Nat}

/-- The copy loop, while the size it reads and what it copies stay as they are. -/
theorem copyBytes_eq (hn : le32 mem (phdr + 16) = n) (hdest : dest + n ≤ 4294967296)
    (hsrc : src + n ≤ 4294967296) (hphdr : phdr + 20 ≤ dest ∨ dest + n ≤ phdr + 16)
    (hclear : src + n ≤ dest ∨ dest + n ≤ src) {fuel : Nat} :
    ∀ j ≤ n, n < fuel + j →
      copyBytes phdr src dest fuel (copyTo mem dest j fun j => mem (src + j)) j =
        copyTo mem dest n fun j => mem (src + j) := by
  induction fuel with
  | zero => exact fun j hj hfuel => absurd hj (by omega)
  | succ fuel ih =>
    intro j hj hfuel
    have hsize : le32 (copyTo mem dest j fun j => mem (src + j)) (phdr + 16) = n := by
      rw [← hn]
      refine le32_congr fun i hi => ?_
      rcases hphdr with h | h
      · exact copyTo_of_lt (by omega)
      · exact copyTo_of_ge (by omega)
    rw [copyBytes, hsize]
    by_cases hlt : j < n
    · have hbyte : (copyTo mem dest j fun j => mem (src + j)) (src + j) = mem (src + j) := by
        rcases hclear with h | h
        · exact copyTo_of_lt (by omega)
        · exact copyTo_of_ge (by omega)
      have hd : addr32 (dest + j) = dest + j := Nat.mod_eq_of_lt (by omega)
      have hs : addr32 (src + j) = src + j := Nat.mod_eq_of_lt (by omega)
      rw [if_pos hlt, hd, hs, hbyte,
        @copyTo_concat UInt8 mem (fun j => mem (src + j)) dest j]
      exact ih (j + 1) hlt (by omega)
    · rw [if_neg hlt, Nat.le_antisymm hj (Nat.le_of_not_lt hlt)]

/-- The clearing loop, while the sizes it reads stay as they are. -/
theorem zeroBytes_eq (hn : addr32 (le32 mem (phdr + 20) + 4294967296 - le32 mem (phdr + 16)) = n)
    (hdest : dest + n ≤ 4294967296) (hphdr : phdr + 24 ≤ dest ∨ dest + n ≤ phdr + 16)
    {fuel : Nat} : ∀ j ≤ n, n < fuel + j →
      zeroBytes phdr dest fuel (copyTo mem dest j fun _ => 0) j = copyTo mem dest n fun _ => 0 := by
  induction fuel with
  | zero => exact fun j hj hfuel => absurd hj (by omega)
  | succ fuel ih =>
    intro j hj hfuel
    have hkeep : ∀ off, off = 16 ∨ off = 20 →
        le32 (copyTo mem dest j fun _ => 0) (phdr + off) = le32 mem (phdr + off) := by
      intro off hoff
      refine le32_congr fun i hi => ?_
      rcases hphdr with h | h
      · exact copyTo_of_lt (by omega)
      · exact copyTo_of_ge (by omega)
    rw [zeroBytes, hkeep 20 (.inr rfl), hkeep 16 (.inl rfl), hn]
    by_cases hlt : j < n
    · have hd : addr32 (dest + j) = dest + j := Nat.mod_eq_of_lt (by omega)
      rw [if_pos hlt, hd, @copyTo_concat UInt8 mem (fun _ => 0) dest j]
      exact ih (j + 1) hlt (by omega)
    · rw [if_neg hlt, Nat.le_antisymm hj (Nat.le_of_not_lt hlt)]

/-- The file lies at `fileBuffer`. -/
def FileAt (file : Nat → UInt8) (size fileBuffer : Nat) (mem : Nat → UInt8) : Prop :=
  ∀ a < size, mem (fileBuffer + a) = file a

theorem FileAt.le16 (h : FileAt file size fileBuffer mem) {a : Nat} (ha : a + 1 < size) :
    le16 mem (fileBuffer + a) = le16 file a :=
  (le16_window (fun i hi => (h i hi).symm) ha rfl).symm

theorem FileAt.le32 (h : FileAt file size fileBuffer mem) {a : Nat} (ha : a + 3 < size) :
    le32 mem (fileBuffer + a) = le32 file a :=
  (le32_window (fun i hi => (h i hi).symm) ha rfl).symm

/-- What is written clear of the file leaves it there. -/
theorem FileAt.copyTo (h : FileAt file size fileBuffer mem) {src : Nat → UInt8}
    (hclear : dest + n ≤ fileBuffer ∨ fileBuffer + size ≤ dest) :
    FileAt file size fileBuffer (copyTo mem dest n src) := by
  intro a ha
  rw [← h a ha]
  rcases hclear with hc | hc
  · exact copyTo_of_ge (by omega)
  · exact copyTo_of_lt (by omega)

/-- A program header places its segment. -/
theorem reloadPhdr_eq (h : FileAt file size fileBuffer mem) (hfb : fileBuffer + size ≤ 4294967296)
    (hphdr : phdrOff file i + 32 ≤ size) (hload : IsLoad file i)
    (hseg : SegPlaces file size fileBuffer i) :
    reloadPhdr fileBuffer (fileBuffer + phdrOff file i) mem =
      copyTo mem (phPaddr file i) (phMemsz file i) (segByte file i) := by
  obtain ⟨hin, hfilesz, htop, hclear⟩ := hseg
  have hfield : ∀ {mem}, FileAt file size fileBuffer mem → ∀ off, off + 4 ≤ 32 →
      le32 mem (fileBuffer + phdrOff file i + off) = le32 file (phdrOff file i + off) := by
    intro mem hm off hoff
    rw [Nat.add_assoc]
    exact hm.le32 (by omega)
  have htype : le32 mem (fileBuffer + phdrOff file i) = 1 := (hfield h 0 (by omega)).trans hload
  have hsmall : phMemsz file i < 4294967296 := le32_lt ..
  have hcopy : copyBytes (fileBuffer + phdrOff file i) (fileBuffer + phOffset file i)
      (phPaddr file i) 4294967296 mem 0 =
        Lib.copyTo mem (phPaddr file i) (phFilesz file i) (segByte file i) := by
    have hsize : le32 mem (fileBuffer + phdrOff file i + 16) = phFilesz file i :=
      hfield h 16 (by omega)
    have hcopy := @copyBytes_eq mem _ (fileBuffer + phOffset file i) (phPaddr file i) _ hsize
      (by omega) (by omega) (by omega) (by omega) 4294967296 0 (Nat.zero_le _) (by omega)
    rw [copyTo_none] at hcopy
    refine hcopy.trans (copyTo_congr fun j hj => ?_)
    rw [segByte, if_pos hj, Nat.add_assoc]
    exact h _ (by omega)
  have hfile : FileAt file size fileBuffer (Lib.copyTo mem (phPaddr file i) (phFilesz file i)
      (segByte file i)) := h.copyTo (by omega)
  have hzero : zeroBytes (fileBuffer + phdrOff file i) (phPaddr file i + phFilesz file i) 4294967296
      (Lib.copyTo mem (phPaddr file i) (phFilesz file i) (segByte file i)) 0 =
        Lib.copyTo mem (phPaddr file i) (phMemsz file i) (segByte file i) := by
    have hn : addr32 (le32 (Lib.copyTo mem (phPaddr file i) (phFilesz file i) (segByte file i))
        (fileBuffer + phdrOff file i + 20) + 4294967296 -
        le32 (Lib.copyTo mem (phPaddr file i) (phFilesz file i) (segByte file i))
          (fileBuffer + phdrOff file i + 16)) = phMemsz file i - phFilesz file i := by
      rw [hfield hfile 20 (by omega), hfield hfile 16 (by omega)]
      change (phMemsz file i + 4294967296 - phFilesz file i) % 4294967296 = _
      omega
    have hzero := @zeroBytes_eq _ _ (phPaddr file i + phFilesz file i) _ hn (by omega) (by omega)
      4294967296 0 (Nat.zero_le _) (by omega)
    rw [copyTo_none] at hzero
    have hall : phFilesz file i + (phMemsz file i - phFilesz file i) = phMemsz file i := by omega
    have hrest : ∀ j < phMemsz file i - phFilesz file i,
        (0 : UInt8) = segByte file i (phFilesz file i + j) := fun j _ =>
      (if_neg (by omega)).symm
    rw [hzero, copyTo_append hrest, hall]
  have haddr : le32 mem (fileBuffer + phdrOff file i + 12) = phPaddr file i :=
    hfield h 12 (by omega)
  have hoff : le32 mem (fileBuffer + phdrOff file i + 4) = phOffset file i :=
    hfield h 4 (by omega)
  have haddr' := hfield hfile 12 (by omega)
  have hsize' := hfield hfile 16 (by omega)
  rw [reloadPhdr, if_neg (by rw [htype]; simp)]
  dsimp only
  rw [hoff, haddr, hcopy, haddr', hsize']
  exact hzero

/-- A header that does not stand for a segment to load. -/
theorem reloadPhdr_skip (h : FileAt file size fileBuffer mem) (hphdr : phdrOff file i + 32 ≤ size)
    (hload : ¬IsLoad file i) :
    reloadPhdr fileBuffer (fileBuffer + phdrOff file i) mem = mem := by
  have htype : le32 mem (fileBuffer + phdrOff file i) = le32 file (phdrOff file i) :=
    h.le32 (by omega)
  rw [reloadPhdr, htype]
  exact if_pos hload

/-- The first `i` segments are in place, and nothing else has changed since
`mem₀`. -/
structure SegsPlaced (file : Nat → UInt8) (mem₀ mem : Nat → UInt8) (i : Nat) : Prop where
  bytes : ∀ k < i, IsLoad file k → ∀ j < phMemsz file k,
    mem (phPaddr file k + j) = segByte file k j
  outside : ∀ a, (∀ k < i, IsLoad file k → ¬InSeg file k a) → mem a = mem₀ a

variable {mem₀ : Nat → UInt8}

/-- One more header. -/
theorem SegsPlaced.step (h : SegsPlaced file mem₀ mem i) (himage : KernelImage file size fileBuffer)
    (hfb : fileBuffer + size ≤ 4294967296) (hfile : FileAt file size fileBuffer mem)
    (hi : i < le16 file 44) :
    SegsPlaced file mem₀ (reloadPhdr fileBuffer (fileBuffer + phdrOff file i) mem) (i + 1) ∧
      FileAt file size fileBuffer
        (reloadPhdr fileBuffer (fileBuffer + phdrOff file i) mem) := by
  have hphdr : phdrOff file i + 32 ≤ size := by
    have hphdrs := himage.phdrs
    unfold phdrOff at hphdrs ⊢
    omega
  by_cases hload : IsLoad file i
  · have hseg := himage.segs i hi hload
    have hclear := hseg.clear
    rw [reloadPhdr_eq hfile hfb hphdr hload hseg]
    refine ⟨⟨fun k hk hkload j hj => ?_, fun a ha => ?_⟩, hfile.copyTo hclear⟩
    · by_cases hki : k = i
      · subst hki
        exact copyTo_add hj
      · have hk' : k < i := by omega
        have hout : ¬InSeg file i (phPaddr file k + j) :=
          himage.apart k (by omega) i hi hki hkload hload _ ⟨by omega, by omega⟩
        exact (if_neg hout).trans (h.bytes k hk' hkload j hj)
    · exact (if_neg (ha i (by omega) hload)).trans (h.outside a fun k hk => ha k (by omega))
  · rw [reloadPhdr_skip hfile hphdr hload]
    refine ⟨⟨fun k hk hkload => ?_, fun a ha => h.outside a fun k hk => ha k (by omega)⟩, hfile⟩
    have hki : k ≠ i := fun he => hload (he ▸ hkload)
    exact h.bytes k (by omega) hkload

/-- The loop over the headers places all segments. -/
theorem reloadLoop_placed (himage : KernelImage file size fileBuffer)
    (hfb : fileBuffer + size ≤ 4294967296) {fuel : Nat} :
    ∀ {mem : Nat → UInt8} {i : Nat}, SegsPlaced file mem₀ mem i → FileAt file size fileBuffer mem →
      i ≤ le16 file 44 → le16 file 44 < fuel + i →
      SegsPlaced file mem₀ (reloadLoop fileBuffer fuel mem i) (le16 file 44) ∧
        FileAt file size fileBuffer (reloadLoop fileBuffer fuel mem i) := by
  have hheader := himage.header
  induction fuel with
  | zero => exact fun _ _ hi hfuel => absurd hi (by omega)
  | succ fuel ih =>
    intro mem i h hfile hi hfuel
    rw [reloadLoop, hfile.le16 (by omega), hfile.le32 (by omega)]
    by_cases hlt : i < le16 file 44
    · have haddr : addr32 (fileBuffer + le32 file 28 + 32 * i) = fileBuffer + phdrOff file i := by
        have hphdrs := himage.phdrs
        unfold phdrOff at hphdrs ⊢
        unfold addr32
        omega
      obtain ⟨hstep, hfile'⟩ := h.step himage hfb hfile hlt
      rw [if_pos hlt, haddr]
      exact ih hstep hfile' hlt (by omega)
    · have hend : i = le16 file 44 := Nat.le_antisymm hi (Nat.le_of_not_lt hlt)
      rw [if_neg hlt]
      exact ⟨hend ▸ h, hfile⟩

/-- `reload_elf_file` of a kernel image. -/
theorem reloadElfFile_placed (himage : KernelImage file size fileBuffer)
    (hfb : fileBuffer + size ≤ 4294967296) (hfile : FileAt file size fileBuffer mem) :
    SegsPlaced file mem (reloadElfFile mem fileBuffer).1 (le16 file 44) ∧
      (reloadElfFile mem fileBuffer).2 = le32 file 24 := by
  have hheader := himage.header
  obtain ⟨h₀, h₁, h₂, h₃⟩ := himage.magic
  have hfirst := hfile 0 (by omega)
  rw [Nat.add_zero] at hfirst
  have hmagic : ¬(mem fileBuffer ≠ 0x7F ∨ mem (fileBuffer + 1) ≠ 0x45 ∨
      mem (fileBuffer + 2) ≠ 0x4C ∨ mem (fileBuffer + 3) ≠ 0x46) := by
    rw [hfirst, hfile 1 (by omega), hfile 2 (by omega), hfile 3 (by omega), h₀, h₁, h₂, h₃]
    simp
  have hstart : SegsPlaced file mem mem 0 := ⟨fun k hk => absurd hk (by omega), fun _ _ => rfl⟩
  have hphnum := le16_lt file 44
  obtain ⟨hplaced, hfile'⟩ := @reloadLoop_placed _ _ _ _ himage hfb 65536 _ _ hstart hfile
    (Nat.zero_le _) (by omega)
  rw [reloadElfFile, if_neg hmagic]
  exact ⟨hplaced, hfile'.le32 (by omega)⟩

end

/-! ## `load_kernel` -/

/-- `read_disk(100, 500, ..)` and `reload_elf_file` of what it has read. -/
def loadKernel (s : Loader) : Option ((Nat → UInt8) × Nat) :=
  if s.pc = .back then some (reloadElfFile s.mem sysKernelLoadAddr) else none

/-- What is on the master from sector 100 on. -/
def kernelFile (m : Media) : Nat → UInt8 := fun i => m false (100 * 512 + i)

/-- When the 500 sectors from sector 100 on hold a kernel image, then in every
interleaving with the channel `load_kernel`, once `read_disk` is back, has the
entry of the image, with the segments in place and nothing else changed but the
place of the file. And `read_disk` is back after at most 130512 steps that
change something, if the channel does not fail. -/
theorem load_kernel_image {mem₀ : Nat → UInt8} {ide : Ide} (hquiet : ide.Quiet)
    (himage : KernelImage (kernelFile ide.media) 256000 sysKernelLoadAddr)
    {es : List LoaderEvent} {s : Loader}
    (hrun : run (readDiskStep 500 sysKernelLoadAddr) (readDiskCall 100 500 mem₀ ide) es = some s) :
    (∀ mem entry, loadKernel s = some (mem, entry) →
      entry = le32 (kernelFile ide.media) 24 ∧
        (∀ k < le16 (kernelFile ide.media) 44, IsLoad (kernelFile ide.media) k →
          ∀ j < phMemsz (kernelFile ide.media) k,
            mem (phPaddr (kernelFile ide.media) k + j) = segByte (kernelFile ide.media) k j) ∧
        ∀ a, a < sysKernelLoadAddr ∨ sysKernelLoadAddr + 256000 ≤ a →
          (∀ k < le16 (kernelFile ide.media) 44, IsLoad (kernelFile ide.media) k →
            ¬InSeg (kernelFile ide.media) k a) → mem a = mem₀ a) ∧
      (.fail ∉ es → Along (readDiskStep 500 sysKernelLoadAddr)
          (fun s e => readDiskStep 500 sysKernelLoadAddr s e ≠ some s)
          (readDiskCall 100 500 mem₀ ide) es →
        es.length ≤ 130512 ∧
          ((∀ e, e ≠ .fail → readDiskStep 500 sysKernelLoadAddr s e = none ∨
            readDiskStep 500 sysKernelLoadAddr s e = some s) → (loadKernel s).isSome)) := by
  have hok : (readDiskReq 100 500).Ok := ⟨by decide, by decide, by decide⟩
  refine ⟨fun mem entry hload => ?_, fun hf hchange => ?_⟩
  · unfold loadKernel at hload
    split at hload
    next hback =>
      obtain ⟨hmem, -⟩ := read_disk_sectors hquiet hok hrun hback
      have hfile : FileAt (kernelFile ide.media) 256000 sysKernelLoadAddr s.mem := fun a ha => by
        rw [hmem, readMem, copyTo_add (by omega)]
        rfl
      obtain ⟨hplaced, hentry⟩ := reloadElfFile_placed himage (by decide) hfile
      rw [Option.some.injEq] at hload
      rw [hload] at hplaced hentry
      refine ⟨hentry, hplaced.bytes, fun a ha hout => ?_⟩
      refine (hplaced.outside a hout).trans ?_
      rw [hmem, readMem]
      rcases ha with ha | ha
      · exact copyTo_of_lt ha
      · exact copyTo_of_ge (by omega)
    · simp at hload
  · obtain ⟨hlen, hdone⟩ := read_disk_returns hquiet hok hf hchange hrun
    refine ⟨by omega, fun hstuck => ?_⟩
    rw [loadKernel, if_pos (hdone hstuck)]
    rfl

/-- A kernel of two bytes at `0x10000`, with one byte to clear. -/
def tinyKernel : List UInt8 :=
  [0x7F, 0x45, 0x4C, 0x46] ++ List.replicate 20 0 ++ [0, 0, 1, 0] ++ [52, 0, 0, 0] ++
    List.replicate 12 0 ++ [1, 0] ++ List.replicate 6 0 ++
    [1, 0, 0, 0] ++ [84, 0, 0, 0] ++ [0, 0, 0, 0] ++ [0, 0, 1, 0] ++ [2, 0, 0, 0] ++ [3, 0, 0, 0] ++
    List.replicate 8 0 ++ [0xEB, 0xFE]

/-- The channel with it on the master. -/
def tinyIde : Ide :=
  { Ide.zero with media := fun slave a => if slave then 0 else tinyKernel.getD (a - 51200) 0 }

theorem tinyKernel_image : KernelImage (kernelFile tinyIde.media) 256000 sysKernelLoadAddr := by
  have hphnum : le16 (kernelFile tinyIde.media) 44 = 1 := by decide
  refine ⟨by decide, by decide, by decide, fun i hi _ => ?_, fun i hi j hj hij => ?_⟩
  · obtain rfl : i = 0 := by omega
    exact ⟨by decide, by decide, by decide, .inl (by decide)⟩
  · omega

theorem load_kernel_image_tiny : ∃ es s,
    run (readDiskStep 500 sysKernelLoadAddr) (readDiskCall 100 500 (fun _ => 0xFF) tinyIde) es =
      some s ∧ ∃ mem, loadKernel s = some (mem, 0x10000) ∧
        mem 0x10000 = 0xEB ∧ mem 0x10001 = 0xFE ∧ mem 0x10002 = 0 ∧ mem 0x10003 = 0xFF := by
  have hquiet : tinyIde.Quiet := .inl rfl
  have hok : (readDiskReq 100 500).Ok := ⟨by decide, by decide, by decide⟩
  have hreturns : ∃ es s, LoaderEvent.fail ∉ es ∧
      run (readDiskStep 500 sysKernelLoadAddr) (readDiskCall 100 500 (fun _ => 0xFF) tinyIde) es =
        some s ∧ s.pc = .back := read_disk_completes hquiet hok
  obtain ⟨es, s, -, hrun, hback⟩ := hreturns
  obtain ⟨hplaced, -⟩ := load_kernel_image hquiet tinyKernel_image hrun
  have hload : loadKernel s = some ((reloadElfFile s.mem sysKernelLoadAddr).1,
      (reloadElfFile s.mem sysKernelLoadAddr).2) := if_pos hback
  obtain ⟨hentry, hbytes, hout⟩ := hplaced _ _ hload
  have hentry' : le32 (kernelFile tinyIde.media) 24 = 0x10000 := by decide
  have hseg : IsLoad (kernelFile tinyIde.media) 0 := by
    change le32 (kernelFile tinyIde.media) 52 = 1
    decide
  have hpaddr : phPaddr (kernelFile tinyIde.media) 0 = 0x10000 := by decide
  have hmemsz : phMemsz (kernelFile tinyIde.media) 0 = 3 := by decide
  have hbytes := hbytes 0 (by decide) hseg
  rw [hpaddr, hmemsz] at hbytes
  have h₀ : segByte (kernelFile tinyIde.media) 0 0 = 0xEB := by decide
  have h₁ : segByte (kernelFile tinyIde.media) 0 1 = 0xFE := by decide
  have h₂ : segByte (kernelFile tinyIde.media) 0 2 = 0 := by decide
  have hrest : ∀ k < le16 (kernelFile tinyIde.media) 44, IsLoad (kernelFile tinyIde.media) k →
      ¬InSeg (kernelFile tinyIde.media) k 0x10003 := by
    intro k hk _
    have hphnum : le16 (kernelFile tinyIde.media) 44 = 1 := by decide
    obtain rfl : k = 0 := by omega
    unfold InSeg
    rw [hpaddr, hmemsz]
    decide
  refine ⟨es, s, hrun, _, hload.trans (by rw [hentry, hentry']), ?_⟩
  exact ⟨(hbytes 0 (by decide)).trans h₀, (hbytes 1 (by decide)).trans h₁,
    (hbytes 2 (by decide)).trans h₂, hout 0x10003 (.inl (by decide)) hrest⟩

end Wjos
