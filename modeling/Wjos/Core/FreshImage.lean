/-
Wjos.Core.FreshImage — what a program finds in the memory that `sys_execve` has
got for it.

Two kernels that are equal but for what the free frames hold load a program file
in step: each call of the loader goes the same way in both, whatever the frames
hold, and each store goes to the same user addresses (`loadElfFile_alike`). So
the program has the same pages on the same frames, and it finds in its stack what
they held before, since nobody clears a page (`sysExecve_alike`).
`fresh_memory_held` puts this beside the heap.

It is about files that are loaded to their end (`ExecLoads`): a piece of a
segment that lies across two pages, or arguments that leave their area, may be
stored into frames of anybody. Of the addresses of a segment nothing is said:
whoever has to clear those behind `p_filesz` is not asked here.
-/
import Wjos.Core.FreshMemory
import Wjos.Core.LoadFat
import Wjos.Core.SameImage
import Wjos.Core.ExecFailed
import Wjos.Core.CopyArgs

namespace Wjos.Os

open Lib

variable {φ : Type}

/-- The pages that the loader maps for a segment. -/
def loadPages (ph : Phdr) : List Nat := loopPages ph.pVaddr ph.pMemsz

/-- The file part of a segment. -/
def FilePart (ph : Phdr) (v : Nat) : Prop := ph.pVaddr ≤ v ∧ v < ph.pVaddr + ph.pFilesz

/-- The addresses to which segments are read. -/
def FileBytes (segs : List Phdr) (v : Nat) : Prop := ∃ ph ∈ segs, FilePart ph v

/-- The addresses of segments. -/
def SegmentBytes (segs : List Phdr) (v : Nat) : Prop :=
  ∃ ph ∈ segs, ph.pVaddr ≤ v ∧ v < ph.pVaddr + ph.pMemsz

theorem FileBytes.segment {data : List UInt8} {segs : List Phdr} {v : Nat}
    (hsegs : ∀ ph ∈ segs, SegOk data ph) (h : FileBytes segs v) : SegmentBytes segs v := by
  obtain ⟨ph, hph, hlo, hhi⟩ := h
  have hsize := (hsegs ph hph).filesz
  exact ⟨ph, hph, hlo, by omega⟩

/-! ## The segments -/

section Segments

variable {L : FileLayer φ} {t : TaskId} {fd : Int} {data : List UInt8}
  {cluster clusters d pos free : Nat} {At : Nat → φ → Prop} {u w : OsState φ} {m₁ m₂ : PhysMem}
  {ph : Phdr} {ps : List Nat} {W : Nat → Prop}

theorem mem_loadPages (hok : SegOk data ph)
    (hpieces : ph.pVaddr % 4096 = 0 ∨ ph.pVaddr % 4096 + ph.pFilesz ≤ 4096)
    (hlo : memoryTaskBase ≤ ph.pVaddr) {v : Nat} (hv : FilePart ph v) :
    v / 4096 ∈ loadPages ph := by
  have hsize := hok.filesz
  have huser := hok.user
  obtain ⟨hvlo, hvhi⟩ := hv
  unfold memoryTaskBase at hlo
  unfold loadPages loopPages
  rw [up2_page (by omega)]
  refine List.mem_map.mpr ⟨v / 4096 - ph.pVaddr / 4096, List.mem_range.mpr ?_, ?_⟩
  · omega
  · omega

theorem loadPages_user (hok : SegOk data ph) (hlo : memoryTaskBase ≤ ph.pVaddr) {p : Nat}
    (hp : p ∈ loadPages ph) : UserPage p := by
  have huser := hok.user
  unfold memoryTaskBase at hlo
  unfold loadPages loopPages at hp
  rw [up2_page (by omega)] at hp
  obtain ⟨i, hi, rfl⟩ := List.mem_map.mp hp
  rw [List.mem_range] at hi
  unfold UserPage
  omega

theorem filePart_user (hok : SegOk data ph) (hlo : memoryTaskBase ≤ ph.pVaddr) (v : Nat)
    (hv : FilePart ph v) : memoryTaskBase ≤ v ∧ v < 4294967296 := by
  have hsize := hok.filesz
  have huser := hok.user
  obtain ⟨hvlo, hvhi⟩ := hv
  exact ⟨by omega, by omega⟩

/-- `load_phdr` in both kernels. -/
theorem loadPhdr_alike (hfile : FileOpen L t fd data cluster clusters At)
    (hat₁ : At pos u.files) (hat₂ : At pos w.files) (hpos : pos < cluster ∨ ph.pFilesz = 0)
    (hgoes : SeekGoes cluster clusters pos ph.pOffset)
    (hlo : memoryTaskBase ≤ ph.pVaddr) (hok : SegOk data ph)
    (hpieces : ph.pVaddr % 4096 = 0 ∨ ph.pVaddr % 4096 + ph.pFilesz ≤ 4096)
    (h : ImagesAlike m₁ m₂ d ps W u.phys w.phys) (hfree₁ : m₁.freeCount = free + 1)
    (hfree₂ : m₂.freeCount = free + 1) (hnodup : (ps ++ loadPages ph).Nodup)
    (hle : mapCost (fun _ => false) (ps ++ loadPages ph) ≤ free) :
    ∃ m₁' m₂' f₁ f₂,
      loadPhdr L t fd ph (frameAddr d) u = some (0, { u with phys := m₁', files := f₁ }) ∧
      loadPhdr L t fd ph (frameAddr d) w = some (0, { w with phys := m₂', files := f₂ }) ∧
      (pos < cluster → At (ph.pOffset + ph.pFilesz) f₁ ∧ At (ph.pOffset + ph.pFilesz) f₂) ∧
      Closes L t fd f₁ ∧ Closes L t fd f₂ ∧
      ImagesAlike m₁ m₂ d (ps ++ loadPages ph) (fun v => W v ∨ FilePart ph v) m₁' m₂' := by
  obtain ⟨hclean, hback⟩ := allocClean_of_le (fun _ => loadPages_user hok hlo) hnodup hle
  obtain ⟨a₁, a₂, halloc₁, halloc₂, hgrown⟩ :=
    h.alloc hfree₁ hfree₂ (show loopPages ph.pVaddr ph.pMemsz = loadPages ph from rfl)
      (show ptePuw < 4096 by decide) hclean
  rw [hback] at hgrown
  have hmap : ∀ {m₀ m}, NewSpace m₀ d (ps ++ loadPages ph) m → ∀ v, ph.pVaddr ≤ v →
      v < ph.pVaddr + ph.pFilesz → pageEntry m (frameAddr d) (v / 4096) ≠ none := by
    intro m₀ m hspace v hvlo hvhi
    have hin := mem_loadPages hok hpieces hlo ⟨hvlo, hvhi⟩
    exact (hspace.pages _ (loadPages_user hok hlo hin)).mpr (List.mem_append_right _ hin)
  obtain ⟨m₁', f₁, hrun₁, hat₁', hclose₁, hwrote₁⟩ := loadPhdr_wrote hfile hat₁ hpos hgoes hlo hok
    hpieces halloc₁ hgrown.left.space (hmap hgrown.left.toNewSpace)
  obtain ⟨m₂', f₂, hrun₂, hat₂', hclose₂, hwrote₂⟩ := loadPhdr_wrote hfile hat₂ hpos hgoes hlo hok
    hpieces halloc₂ hgrown.right.space (hmap hgrown.right.toNewSpace)
  refine ⟨m₁', m₂', f₁, f₂, hrun₁, hrun₂, fun hfirst => ⟨hat₁' hfirst, hat₂' hfirst⟩, hclose₁,
    hclose₂, hgrown.touched (filePart_user hok hlo) (hwrote₁.touched.mono fun v hv => ?_)
      (hwrote₂.touched.mono fun v hv => ?_)⟩
  · rwa [segBytes_length hok] at hv
  · rwa [segBytes_length hok] at hv

/-- The loop over the program headers in both. -/
theorem loadPhdrs_alike {phentsize n off : Nat} {hs : List (Nat × Phdr)} (buf : Nat → UInt8)
    (hfile : FileOpen L t fd data cluster clusters At) (hclose₁ : Closes L t fd u.files)
    (hclose₂ : Closes L t fd w.files) (hat : hs ≠ [] → At pos u.files ∧ At pos w.files)
    (h : ImagesAlike m₁ m₂ d ps W u.phys w.phys) (hfree₁ : m₁.freeCount = free + 1)
    (hfree₂ : m₂.freeCount = free + 1)
    (hlen : data.length < 4294967296) (hhs : hs = elfPhdrs data phentsize n off)
    (hheaders : ∀ hd ∈ hs, hd.1 + 32 ≤ data.length) (hseeks : SeeksHit cluster clusters pos hs)
    (hsegs : ∀ ph ∈ loadSegs hs, SegOk data ph ∧
      (ph.pVaddr % 4096 = 0 ∨ ph.pVaddr % 4096 + ph.pFilesz ≤ 4096))
    (hnodup : (ps ++ (loadSegs hs).flatMap loadPages).Nodup)
    (hle : mapCost (fun _ => false) (ps ++ (loadSegs hs).flatMap loadPages) ≤ free) :
    ∃ w₁ w₂, loadPhdrs L t fd (frameAddr d) phentsize n off buf u = some (true, w₁) ∧
      loadPhdrs L t fd (frameAddr d) phentsize n off buf w = some (true, w₂) ∧
      Closes L t fd w₁.files ∧ Closes L t fd w₂.files ∧
      ImagesAlike m₁ m₂ d (ps ++ (loadSegs hs).flatMap loadPages)
        (fun v => W v ∨ FileBytes (loadSegs hs) v) w₁.phys w₂.phys := by
  induction n generalizing u w pos off buf hs ps W with
  | zero =>
    subst hhs
    refine ⟨u, w, rfl, rfl, hclose₁, hclose₂, ?_⟩
    simpa [loadSegs, elfPhdrs, FileBytes] using h
  | succ n ih =>
    obtain ⟨hs', hhs'⟩ : ∃ hs', hs' = elfPhdrs data phentsize n (off + phentsize) := ⟨_, rfl⟩
    have hall : ∀ hd ∈ elfPhdrs data phentsize (n + 1) off, hd.1 + 32 ≤ data.length :=
      hhs ▸ hheaders
    rw [elfPhdrs, ← hhs'] at hhs
    subst hhs
    have hheaders' : ∀ hd ∈ hs', hd.1 + 32 ≤ data.length := fun hd hmem =>
      hheaders hd (List.mem_cons_of_mem _ hmem)
    obtain ⟨hpos, hseeks⟩ := hseeks
    obtain ⟨hat₁, hat₂⟩ := hat (List.cons_ne_nil _ _)
    obtain ⟨f₁, hat₁', hpass₁, hstep₁⟩ :=
      loadPhdrs_step (frameAddr d) buf hfile hat₁ hpos hlen hall
    obtain ⟨f₂, hat₂', hpass₂, hstep₂⟩ :=
      loadPhdrs_step (frameAddr d) buf hfile hat₂ hpos hlen hall
    rw [loadSegs_cons] at hsegs hnodup hle ⊢
    by_cases hload : Loadable (elfPhdr data off)
    · rw [if_pos hload] at hsegs hnodup hle hseeks ⊢
      obtain ⟨hfirst, hempty, hseeks⟩ := hseeks
      obtain ⟨hok, hpieces⟩ := hsegs _ List.mem_cons_self
      rw [List.flatMap_cons, ← List.append_assoc] at hnodup hle ⊢
      have hle₁ : mapCost (fun _ => false) (ps ++ loadPages (elfPhdr data off)) ≤ free := by
        rw [mapCost_append] at hle
        omega
      obtain ⟨m₁', m₂', f₁', f₂', hphdr₁, hphdr₂, hat', hend₁', hend₂', halike⟩ :=
        loadPhdr_alike (u := { u with files := f₁ }) (w := { w with files := f₂ }) hfile hat₁'
          hat₂' (hfirst.imp_right And.left) (.segment hfile.fills hok hfirst hempty) hload.2 hok
          hpieces h hfree₁ hfree₂ hnodup.of_append_left hle₁
      obtain ⟨w₁, w₂, hrun₁, hrun₂, hend₁, hend₂, hrest⟩ :=
        ih (u := OsState.setTask { u with phys := m₁', files := f₁' } t { u.task t with
            heapStart := heapAfter 0 [elfPhdr data off]
            heapEnd := heapAfter 0 [elfPhdr data off] })
          (w := OsState.setTask { w with phys := m₂', files := f₂' } t { w.task t with
            heapStart := heapAfter 0 [elfPhdr data off]
            heapEnd := heapAfter 0 [elfPhdr data off] })
          (copyTo buf 0 32 fun i => dataAt data (off + i)) hend₁' hend₂'
          (fun hmore => hat' (hfirst.resolve_right fun hlast => hmore hlast.2)) halike hhs'
          hheaders' hseeks (fun ph hph => hsegs ph (List.mem_cons_of_mem _ hph)) hnodup hle
      refine ⟨w₁, w₂, ?_, ?_, hend₁, hend₂, ?_⟩
      · rw [hstep₁ hload m₁' f₁' hphdr₁]
        exact hrun₁
      · rw [hstep₂ hload m₂' f₂' hphdr₂]
        exact hrun₂
      · simpa [FileBytes, or_assoc] using hrest
    · rw [if_neg hload] at hsegs hnodup hle hseeks ⊢
      rw [hpass₁ hload, hpass₂ hload]
      exact ih (u := { u with files := f₁ }) (w := { w with files := f₂ }) _
        (hfile.close f₁ _ hat₁') (hfile.close f₂ _ hat₂') (fun _ => ⟨hat₁', hat₂'⟩) h hhs'
        hheaders' hseeks hsegs hnodup hle

/-- `load_elf_file` in both. -/
theorem loadElfFile_alike {name : List UInt8} {f₁ f₂ : φ} (junk : Nat → UInt8)
    (helf : ElfOk data) (hfile : FileOpen L t fd data cluster clusters At) (hfd : 0 ≤ fd)
    (hopen₁ : L.sysOpen u.files t name = some (fd, f₁)) (hat₁ : At 0 f₁)
    (hopen₂ : L.sysOpen w.files t name = some (fd, f₂)) (hat₂ : At 0 f₂)
    (hseeks : SeeksHit cluster clusters 52 (elfHeaders data))
    (hpieces : ∀ ph ∈ elfLoads data,
      ph.pVaddr % 4096 = 0 ∨ ph.pVaddr % 4096 + ph.pFilesz ≤ 4096)
    (h : ImagesAlike m₁ m₂ d [] (fun _ => False) u.phys w.phys)
    (hfree₁ : m₁.freeCount = free + 1) (hfree₂ : m₂.freeCount = free + 1)
    (hnodup : ((elfLoads data).flatMap loadPages).Nodup)
    (hle : mapCost (fun _ => false) ((elfLoads data).flatMap loadPages) ≤ free) :
    ∃ w₁ w₂, loadElfFile L t name (frameAddr d) junk u = some (elfEntry data, w₁) ∧
      loadElfFile L t name (frameAddr d) junk w = some (elfEntry data, w₂) ∧
      ImagesAlike m₁ m₂ d ((elfLoads data).flatMap loadPages) (FileBytes (elfLoads data))
        w₁.phys w₂.phys := by
  obtain ⟨g₁, hat₁', haround₁⟩ :=
    loadElfFile_around (frameAddr d) junk helf hfile hopen₁ hfd hat₁
  obtain ⟨g₂, hat₂', haround₂⟩ :=
    loadElfFile_around (frameAddr d) junk helf hfile hopen₂ hfd hat₂
  obtain ⟨w₁, w₂, hrun₁, hrun₂, hend₁, hend₂, hloaded⟩ :=
    loadPhdrs_alike (u := { u with files := g₁ }) (w := { w with files := g₂ })
      (fun i => junk (52 + i)) hfile (hfile.close g₁ _ hat₁') (hfile.close g₂ _ hat₂')
      (fun _ => ⟨hat₁', hat₂'⟩) h hfree₁ hfree₂ helf.size rfl helf.headers hseeks
      (fun ph hph => ⟨helf.segs ph hph, hpieces ph hph⟩) hnodup hle
  obtain ⟨e₁, hload₁⟩ := haround₁ w₁ hrun₁ hend₁
  obtain ⟨e₂, hload₂⟩ := haround₂ w₂ hrun₂ hend₂
  refine ⟨{ w₁ with files := e₁ }, { w₂ with files := e₂ }, hload₁, hload₂, ?_⟩
  simpa [elfLoads, elfHeaders] using hloaded

end Segments

/-! ## The frame of the call and the old space -/

section Old

variable {m₀ m : PhysMem} {d c k : Nat} {ps : List Nat}

theorem execFrame_leaves {esp0 a : Nat} (entry stackTop : Nat) (hesp : syscallFrameSize ≤ esp0)
    (ha : a < esp0 - syscallFrameSize ∨ esp0 ≤ a) :
    Leaves (fun m : PhysMem => (m.paddrAlloc, m.kernelPageDir, m.mem a))
      (execFrame esp0 entry stackTop) := by
  have hsize : syscallFrameSize = 88 := rfl
  have hword : ∀ o ≤ 84, ∀ v, Leaves (fun m : PhysMem => (m.paddrAlloc, m.kernelPageDir, m.mem a))
      (storeWord (esp0 - syscallFrameSize + o) v) := by
    intro o ho v
    refine .store fun m => ?_
    have hsame : put32 m.mem (esp0 - syscallFrameSize + o) v a = m.mem a :=
      put32_of_not_mem (by omega)
    exact congrArg (fun b => (m.paddrAlloc, m.kernelPageDir, b)) hsame
  refine (hword 52 (by omega) _).seq fun _ => (hword 40 (by omega) _).seq fun _ => ?_
  refine (hword 44 (by omega) _).seq fun _ => (hword 36 (by omega) _).seq fun _ => ?_
  refine (hword 48 (by omega) _).seq fun _ => (hword 28 (by omega) _).seq fun _ => ?_
  refine (hword 20 (by omega) _).seq fun _ => (hword 24 (by omega) _).seq fun _ => ?_
  exact (hword 0 (by omega) _).seq fun _ => hword 80 (by omega) _

/-- The frame on the kernel stack `k` is filled and the old space given back: the
new program finds what it has found before. -/
theorem execEnd_keeps (h : NewSpace m₀ d ps m) (hold : SpaceOk m₀ (frameAddr c))
    (hused : m₀.used k = true) (hdir : c ≠ k) (htable : ¬TableFrame m₀.mem (frameAddr c) k)
    (entry stackTop : Nat) : ∃ m₁ m',
      execFrame (frameAddr k + 4096) entry stackTop m = some ((), m₁) ∧
        memoryDestroyUvm (frameAddr c) m₁ = some ((), m') ∧
          ∀ v, memoryTaskBase ≤ v → v < 4294967296 →
            translate m' (frameAddr d) v = translate m (frameAddr d) v ∧
              ∀ a, translate m (frameAddr d) v = some a → m'.mem a = m.mem a := by
  obtain ⟨m₁, hrun₁⟩ : ∃ m₁, execFrame (frameAddr k + 4096) entry stackTop m = some ((), m₁) :=
    ⟨_, rfl⟩
  have hleaves : ∀ b, ¬InFrame k b →
      (m₁.paddrAlloc, m₁.kernelPageDir, m₁.mem b) = (m.paddrAlloc, m.kernelPageDir, m.mem b) := by
    intro b hb
    have hsize : syscallFrameSize = 88 := rfl
    refine execFrame_leaves (a := b) entry stackTop (by omega) ?_ m _ hrun₁
    by_contra hc
    exact hb ⟨by omega, by omega⟩
  -- the old space is what it was
  have hm₁ : m₁ = { m with mem := m₁.mem } := by
    have hzero := hleaves 0 fun hin => by
      unfold InFrame frameAddr at hin
      omega
    rw [Prod.mk.injEq, Prod.mk.injEq] at hzero
    rw [← hzero.1, ← hzero.2.1]
  have hold₁ : SpaceOk m₁ (frameAddr c) := by
    rw [hm₁]
    refine ((h.grown.spaceOk hold).edit (fun b hlo hhi => ?_) fun j hj b hb => ?_).1
    · have hout : ¬InFrame k b := fun hin => hdir (InFrame.unique ⟨hlo, hhi⟩ hin)
      exact congrArg (fun r => r.2.2) (hleaves b hout)
    · have hout : ¬InFrame k b := by
        intro hin
        obtain rfl := hb.unique hin
        obtain ⟨i, hi, hpres, ha⟩ := hj
        rw [h.grown.dirWord hold.toDirOk hi] at hpres ha
        exact htable ⟨i, hi, hpres, ha⟩
      exact congrArg (fun r => r.2.2) (hleaves b hout)
  obtain ⟨⟨⟨⟩, m'⟩, hrun, hfreed⟩ :=
    memoryDestroyUvm_frees (fun _ => hold₁.uvmFrames) m₁ (.start hold₁.phys)
  refine ⟨m₁, m', hrun₁, hrun, fun v => h.elsewhere fun j hj b hb => ?_⟩
  have hout : ¬InFrame k b := by
    intro hin
    obtain rfl := hb.unique hin
    rw [h.fresh j hj] at hused
    cases hused
  rw [show m'.mem = m₁.mem from hfreed.mem]
  exact congrArg (fun r => r.2.2) (hleaves b hout)

end Old

/-! ## The whole call -/

/-- The pages of a program that has been started: segments and stack. -/
def imagePages (data : List UInt8) : List Nat := (elfLoads data).flatMap loadPages ++ stackPages

/-- A program file that `sys_execve` loads to its end: it is an ELF file with an
entry point, its seeks hit, no piece of a segment lies across two pages, no page
is mapped twice, and there are frames for the pages, their tables and the
directory. The pointers to the arguments lie in the first page of their area, and
the strings end in it. -/
structure ExecLoads (L : FileLayer φ) (t : TaskId) (name : List UInt8) (argv : List (List UInt8))
    (data : List UInt8) (s : OsState φ) : Prop where
  elf : ElfOk data
  entry : elfEntry data ≠ 0
  file : ∃ fd f₀ cluster clusters At, 0 ≤ fd ∧ L.sysOpen s.files t name = some (fd, f₀) ∧
    FileOpen L t fd data cluster clusters At ∧ At 0 f₀ ∧
      SeeksHit cluster clusters 52 (elfHeaders data)
  pieces : ∀ ph ∈ elfLoads data, ph.pVaddr % 4096 = 0 ∨ ph.pVaddr % 4096 + ph.pFilesz ≤ 4096
  once : (imagePages data).Nodup
  frames : framesNeeded (fun _ => false) (imagePages data) + 1 ≤ s.phys.freeCount
  argsPage : 12 + 4 * (argv.length + 1) ≤ 4096
  argsSize : 12 + 4 * (argv.length + 1) + argBytes argv ≤ memTaskArgSize

/-- Both kernels have started the program `data`: it has the same pages on the
same frames in both, and outside of its segments, where no argument was put, it
finds what their frames held before. -/
structure StartedAlike (t : TaskId) (data : List UInt8) (argv : List (List UInt8))
    (s₁ s₂ w₁ w₂ : OsState φ) : Prop where
  cr3 : (w₁.task t).tss.cr3 = (w₂.task t).tss.cr3
  pages : ∀ v, memoryTaskBase ≤ v → v < 4294967296 →
    (translate w₁.phys (w₁.task t).tss.cr3 v ≠ none ↔ v / 4096 ∈ imagePages data)
  frames : ∀ v, memoryTaskBase ≤ v → v < 4294967296 →
    translate w₁.phys (w₁.task t).tss.cr3 v = translate w₂.phys (w₂.task t).tss.cr3 v
  held : ∀ v, memoryTaskBase ≤ v → v < 4294967296 → ¬SegmentBytes (elfLoads data) v →
    ¬ArgBytes argv v → HeldAt s₁.phys s₂.phys (w₁.task t).tss.cr3 w₁.phys w₂.phys v

/-- The caller with the name of the file that it is to run. -/
def callerNamed (t : TaskId) (name : List UInt8) (s : OsState φ) : OsState φ :=
  s.setTask t { s.task t with
    name := kernelStrncpy (s.task t).name (cString (getFileName name)) taskNameSize }

section Exec

variable {L : FileLayer φ} {t : TaskId} {s s₁ s₂ w : OsState φ} {name : List UInt8}
  {argv : List (List UInt8)} {data : List UInt8} {junk : Nat → UInt8} {d entry : Nat}

theorem mem_stackPages {p : Nat} : p ∈ stackPages ↔ 917004 ≤ p ∧ p < 917504 := by
  have hcount : up2 memTaskStackSize 4096 / 4096 = 500 := by decide
  have hstart : (memTaskStackTop - memTaskStackSize) / 4096 = 917004 := by decide
  rw [stackPages_eq, loopPages, hcount, hstart, List.mem_map]
  simp only [List.mem_range]
  constructor
  · rintro ⟨i, hi, rfl⟩
    omega
  · rintro ⟨hlo, hhi⟩
    exact ⟨p - 917004, by omega, by omega⟩

theorem stackPages_nodup : stackPages.Nodup := by
  have hcount : up2 memTaskStackSize 4096 / 4096 = 500 := by decide
  rw [stackPages_eq, loopPages, hcount]
  refine List.nodup_range.map_on fun i hi j hj hij => ?_
  rw [List.mem_range] at hi hj
  omega

theorem stackPages_user {p : Nat} (hp : p ∈ stackPages) : UserPage p := by
  obtain ⟨hlo, hhi⟩ := mem_stackPages.mp hp
  unfold UserPage
  omega

theorem areaPage_mem {p : Nat} (hp : AreaPage p) : p ∈ stackPages := by
  obtain ⟨hlo, hhi⟩ := hp
  rw [stackTop_eq] at hlo
  rw [memTaskStackTop_eq] at hhi
  exact mem_stackPages.mpr ⟨by omega, by omega⟩

/-- `sys_execve` up to the line that tests `entry`. -/
theorem sysExecve_loaded {m : PhysMem} (hcreate : memoryCreateUvm s.phys = some (frameAddr d, m))
    (hload : loadElfFile L t name (frameAddr d) junk { callerNamed t name s with phys := m } =
      some (entry, w)) :
    sysExecve L t name argv junk s =
      execEntry t (s.task t).tss (frameAddr d) argv junk entry w := by
  have htss : ((callerNamed t name s).task t).tss = (s.task t).tss := by
    simp [callerNamed, OsState.setTask]
  rw [sysExecve, editTask, store_seq]
  change (look _ >>= _) (callerNamed t name s) = _
  rw [look_seq, htss, onPhys_seq (s := callerNamed t name s) hcreate rfl,
    if_neg (frameAddr_pos d), seq_some hload]
  rfl

/-- The rest of a call that goes through. -/
theorem execEntry_goes {tss : Tss} {dir : Nat} {m₁ m₂ m₃ m₄ : PhysMem} (hentry : entry ≠ 0)
    (halloc : memoryAllocForPageDir dir (memTaskStackTop - memTaskStackSize) memTaskStackSize
      ptePuw w.phys = some (0, m₁))
    (hargs : copyArgs stackTop dir argv (le32 junk 84) m₁ = some (0, m₂))
    (hframe : execFrame tss.esp0 entry stackTop m₂ = some ((), m₃))
    (hdestroy : memoryDestroyUvm tss.cr3 m₃ = some ((), m₄)) :
    ∃ w', execEntry t tss dir argv junk entry w = some (0, w') ∧ w'.phys = m₄ ∧
      (w'.task t).tss.cr3 = dir := by
  refine ⟨{ OsState.setTask w t { w.task t with tss := { (w.task t).tss with cr3 := dir } } with
    phys := m₄ }, ?_, rfl, ?_⟩
  · rw [execEntry, if_neg hentry, onPhys_seq halloc rfl, if_neg (by decide),
      onPhys_seq (s := { w with phys := m₁ }) hargs rfl, if_neg (by decide),
      onPhys_seq (s := { w with phys := m₂ }) hframe rfl, editTask, store_seq,
      onPhys_seq (s := OsState.setTask { w with phys := m₃ } t _) hdestroy rfl]
    rfl
  · simp [OsState.setTask]

/-- `sys_execve` in two kernels that are equal but for the free frames. -/
theorem sysExecve_alike (hcaller : CallerSpace t s₁) (h : EqualButFree s₁ s₂)
    (hexec : ExecLoads L t name argv data s₁) (junk : Nat → UInt8) :
    ∃ w₁ w₂, sysExecve L t name argv junk s₁ = some (0, w₁) ∧
      sysExecve L t name argv junk s₂ = some (0, w₂) ∧
        StartedAlike t data argv s₁ s₂ w₁ w₂ := by
  have hgrown := h.grown hcaller.space.phys
  have hfiles : s₂.files = s₁.files := (congrArg OsState.files h.rest :)
  have htask : s₂.task = s₁.task := (congrArg OsState.task h.rest :)
  -- the frames
  have hframes := hexec.frames
  rw [← mapCost_eq] at hframes
  obtain ⟨free, hfree₁⟩ : ∃ free, s₁.phys.freeCount = free + 1 :=
    ⟨_, (Nat.succ_pred (by omega)).symm⟩
  have hfree₂ : s₂.phys.freeCount = free + 1 :=
    (hgrown.sameMap hcaller.space.toDirOk h.paddrAlloc).freeCount ▸ hfree₁
  have hle : mapCost (fun _ => false) (imagePages data) ≤ free := by omega
  have hsegs : mapCost (fun _ => false) ((elfLoads data).flatMap loadPages) ≤ free := by
    rw [imagePages, mapCost_append] at hle
    omega
  -- the directory and the file
  obtain ⟨d, a₁, a₂, hcreate₁, hcreate₂, hstart⟩ :=
    ImagesAlike.start hcaller.kernel hgrown h.paddrAlloc (by omega)
  obtain ⟨fd, f₀, cluster, clusters, At, hfd, hopen, hfile, hat, hseeks⟩ := hexec.file
  obtain ⟨w₁, w₂, hload₁, hload₂, hloaded⟩ :=
    loadElfFile_alike (u := { callerNamed t name s₁ with phys := a₁ })
      (w := { callerNamed t name s₂ with phys := a₂ }) junk hexec.elf hfile hfd hopen hat
      (hfiles ▸ hopen) hat hseeks hexec.pieces hstart hfree₁ hfree₂ hexec.once.of_append_left hsegs
  -- the stack
  obtain ⟨hclean, hback⟩ := allocClean_of_le (fun _ => stackPages_user) hexec.once hle
  obtain ⟨b₁, b₂, halloc₁, halloc₂, hstack⟩ :=
    hloaded.alloc hfree₁ hfree₂ stackPages_eq.symm (show ptePuw < 4096 by decide) hclean
  rw [hback] at hstack
  -- the arguments
  have harea : ∀ {m₀ m}, NewSpace m₀ d (imagePages data) m → ArgArea m (frameAddr d) := by
    intro m₀ m hspace
    refine ⟨hspace.space, fun p hp => (hspace.pages p (stackPages_user (areaPage_mem hp))).mpr ?_⟩
    exact List.mem_append_right _ (areaPage_mem hp)
  obtain ⟨c₁, hargs₁, htouched₁, -⟩ := copyArgs_touched (harea hstack.left.toNewSpace)
    hexec.argsPage hexec.argsSize (le32 junk 84)
  obtain ⟨c₂, hargs₂, htouched₂, -⟩ := copyArgs_touched (harea hstack.right.toNewSpace)
    hexec.argsPage hexec.argsSize (le32 junk 84)
  have hargs : ∀ v, ArgBytes argv v → memoryTaskBase ≤ v ∧ v < 4294967296 := by
    rintro v ⟨hlo, hhi⟩
    have hsize := hexec.argsSize
    have hbase : memoryTaskBase = 2147483648 := rfl
    have harea : memTaskArgSize = 16384 := rfl
    rw [stackTop_eq] at hlo hhi
    exact ⟨by omega, by omega⟩
  have hfull := hstack.touched hargs htouched₁ htouched₂
  -- the end of the call
  obtain ⟨c, hdir⟩ := hcaller.dir
  obtain ⟨k, hesp, hused, hne, htable⟩ := hcaller.stack
  have hold := hcaller.space
  rw [hdir] at hold hne htable
  have htable₂ : ¬TableFrame s₂.phys.mem (frameAddr c) k := by
    rintro ⟨i, hi, hpres, ha⟩
    rw [hgrown.dirWord hold.toDirOk hi] at hpres ha
    exact htable ⟨i, hi, hpres, ha⟩
  have hck : c ≠ k := fun hc => hne (congrArg frameAddr hc)
  obtain ⟨e₁, g₁, hframe₁, hdestroy₁, hkeep₁⟩ := execEnd_keeps hfull.left.toNewSpace hold hused hck
    htable (elfEntry data) stackTop
  obtain ⟨e₂, g₂, hframe₂, hdestroy₂, hkeep₂⟩ := execEnd_keeps hfull.right.toNewSpace
    (hgrown.spaceOk hold) (hgrown.used k hused) hck htable₂ (elfEntry data) stackTop
  rw [← hesp] at hframe₁ hframe₂
  rw [← hdir] at hdestroy₁ hdestroy₂
  obtain ⟨w₁', hrun₁, hphys₁, hcr₁⟩ :=
    execEntry_goes hexec.entry halloc₁ hargs₁ hframe₁ hdestroy₁
  obtain ⟨w₂', hrun₂, hphys₂, hcr₂⟩ :=
    execEntry_goes hexec.entry halloc₂ hargs₂ hframe₂ hdestroy₂
  refine ⟨w₁', w₂', (sysExecve_loaded hcreate₁ hload₁).trans hrun₁, ?_, ?_⟩
  · rw [sysExecve_loaded hcreate₂ hload₂, htask]
    exact hrun₂
  have hsame : ∀ v, memoryTaskBase ≤ v → v < 4294967296 →
      translate w₁'.phys (frameAddr d) v = translate c₁ (frameAddr d) v ∧
        translate w₂'.phys (frameAddr d) v = translate c₁ (frameAddr d) v := by
    intro v hlo hhi
    rw [hphys₁, hphys₂, (hkeep₁ v hlo hhi).1, (hkeep₂ v hlo hhi).1, hfull.same.translate hhi]
    exact ⟨rfl, rfl⟩
  refine ⟨hcr₁.trans hcr₂.symm, fun v hlo hhi => ?_, fun v hlo hhi => ?_,
    fun v hlo hhi hsegsout hargsout => ?_⟩
  · have huser : UserPage (v / 4096) := by
      unfold memoryTaskBase at hlo
      unfold UserPage
      omega
    rw [hcr₁, (hsame v hlo hhi).1, translate_pageEntry, Ne, Option.map_eq_none_iff]
    exact hfull.left.pages _ huser
  · rw [hcr₁, hcr₂, (hsame v hlo hhi).1, (hsame v hlo hhi).2]
  · rw [hcr₁]
    obtain ⟨hs₁, hs₂⟩ := hsame v hlo hhi
    refine ⟨hs₁.trans hs₂.symm, fun a ha => ?_⟩
    have hout : ¬(FileBytes (elfLoads data) v ∨ ArgBytes argv v) :=
      not_or.mpr ⟨fun hin => hsegsout (hin.segment hexec.elf.segs), hargsout⟩
    rw [hs₁] at ha
    have ha₂ : translate c₂ (frameAddr d) v = some a := by rwa [← hfull.same.translate hhi]
    rw [hphys₁, hphys₂, (hkeep₁ v hlo hhi).2 a ha, (hkeep₂ v hlo hhi).2 a ha₂]
    exact ⟨hfull.left.byte hlo hhi hout ha, hfull.right.byte hlo hhi hout ha₂⟩

end Exec

/-- The words of a memory: a kernel directory, the table in which the kernel sees
600 frames, a directory, its user table. -/
def pageWord (i : Nat) : Nat :=
  if i = 0x400 then 0x100003
  else if 0x40100 ≤ i ∧ i < 0x40358 then frameAddr (i - 0x40100) + 3
  else if i = 0x40400 then 0x100003
  else if i = 0x40600 then 0x102007
  else if i = 0x40800 then 0x103007
  else 0

/-- 600 frames, of which five are used: the kernel's table, a directory, its user
table, a page and a kernel stack. -/
def pageMem : PhysMem where
  paddrAlloc :=
    { bitmap := { bitCount := 600, bits := fun i => if i = 0 then 0x1F else 0 }
      start := memExtStart
      size := 4096 * 600
      pageSize := memPageSize }
  kernelPageDir := 0x1000
  mem := wordMem pageWord

section PageMem

theorem pageWord_lt (i : Nat) : pageWord i < 4294967296 := by
  unfold pageWord frameAddr
  split_ifs <;> omega

theorem pageMem_word {a : Nat} (i : Nat) (ha : a = 4 * i) : le32 pageMem.mem a = pageWord i := by
  rw [ha, ← Nat.mod_eq_of_lt (pageWord_lt i)]
  exact le32_wordMem pageWord i

theorem pageMem_pde {i : Nat} (hi : i < 1024) : uvmPde pageMem.mem 0x101000 i =
    if i = 0 then 0x100003 else if i = 512 then 0x102007 else 0 := by
  rw [uvmPde, pageMem_word (0x40400 + i) (by omega), pageWord, if_neg (by omega), if_neg (by omega)]
  by_cases hzero : i = 0
  · rw [if_pos (by omega), if_pos hzero]
  · rw [if_neg (by omega), if_neg hzero]
    by_cases huser : i = 512
    · rw [if_pos (by omega), if_pos huser]
    · rw [if_neg (by omega), if_neg (by omega), if_neg huser]

theorem pageMem_kernelPde {i : Nat} (hi : i < 1024) : uvmPde pageMem.mem 0x1000 i =
    if i = 0 then 0x100003 else 0 := by
  rw [uvmPde, pageMem_word (0x400 + i) (by omega), pageWord]
  by_cases hzero : i = 0
  · rw [if_pos (by omega), if_pos hzero]
  · rw [if_neg (by omega), if_neg (by omega), if_neg (by omega), if_neg (by omega),
      if_neg (by omega), if_neg hzero]

theorem pageMem_kernelPte {j : Nat} (hj : j < 1024) : le32 pageMem.mem (0x100000 + 4 * j) =
    if 256 ≤ j ∧ j < 856 then frameAddr (j - 256) + 3 else 0 := by
  rw [pageMem_word (0x40000 + j) (by omega), pageWord, if_neg (by omega)]
  by_cases hframe : 256 ≤ j ∧ j < 856
  · rw [if_pos (by omega), if_pos hframe, show 0x40000 + j - 0x40100 = j - 256 by omega]
  · rw [if_neg (by omega), if_neg (by omega), if_neg (by omega), if_neg (by omega), if_neg hframe]

theorem pageMem_pte {j : Nat} (hj : j < 1024) : le32 pageMem.mem (0x102000 + 4 * j) =
    if j = 0 then 0x103007 else 0 := by
  rw [pageMem_word (0x40800 + j) (by omega), pageWord, if_neg (by omega), if_neg (by omega),
    if_neg (by omega), if_neg (by omega)]
  by_cases hzero : j = 0
  · rw [if_pos (by omega), if_pos hzero]
  · rw [if_neg (by omega), if_neg hzero]

theorem pageMem_ok : PhysOk pageMem := ⟨rfl, rfl, by decide, by decide⟩

/-- The table of the kernel has no entries but those of the frames. -/
theorem pageMem_kernelTable {j : Nat} (hj : j < 1024)
    (hno : entryPresent (le32 pageMem.mem (0x100000 + 4 * j)) = false) :
    le32 pageMem.mem (0x100000 + 4 * j) = 0 := by
  rw [pageMem_kernelPte hj] at hno ⊢
  split at hno
  next =>
    rw [entryPresent_frame] at hno
    cases hno
  next h => rw [if_neg h]

theorem pageMem_table {i : Nat} (hi : i < 1024)
    (hpres : entryPresent (uvmPde pageMem.mem 0x101000 i) = true) : i = 0 ∨ i = 512 := by
  rw [pageMem_pde hi] at hpres
  by_contra hc
  rw [not_or] at hc
  rw [if_neg hc.1, if_neg hc.2] at hpres
  cases hpres

theorem pageMem_kernelTableOnly {i : Nat} (hi : i < 1024)
    (hpres : entryPresent (uvmPde pageMem.mem 0x1000 i) = true) : i = 0 := by
  rw [pageMem_kernelPde hi] at hpres
  by_contra hc
  rw [if_neg hc] at hpres
  cases hpres

theorem pageMem_kernelDir : DirOk pageMem 0x1000 := by
  refine ⟨pageMem_ok, .inl (by decide), fun i hi hpres => ?_, fun i hi j hj hpres hpres' _ => ?_,
    fun i hi j hj hpres hno => ?_⟩
  · obtain rfl := pageMem_kernelTableOnly hi hpres
    rw [pageMem_kernelPde hi]
    exact ⟨0, by decide, by decide, by decide, by decide⟩
  · rw [pageMem_kernelTableOnly hi hpres, pageMem_kernelTableOnly hj hpres']
  · obtain rfl := pageMem_kernelTableOnly hi hpres
    rw [uvmPte, pageMem_kernelPde hi] at hno ⊢
    exact pageMem_kernelTable hj hno

theorem pageMem_dirOk : DirOk pageMem 0x101000 := by
  refine ⟨pageMem_ok, .inr ⟨1, by decide, by decide, by decide⟩, fun i hi hpres => ?_,
    fun i hi j hj hpres hpres' hsame => ?_, fun i hi j hj hpres hno => ?_⟩
  · rcases pageMem_table hi hpres with rfl | rfl
    · rw [pageMem_pde hi]
      exact ⟨0, by decide, by decide, by decide, by decide⟩
    · rw [pageMem_pde hi]
      exact ⟨2, by decide, by decide, by decide, by decide⟩
  · rw [pageMem_pde hi, pageMem_pde hj] at hsame
    rcases pageMem_table hi hpres with rfl | rfl <;>
      rcases pageMem_table hj hpres' with rfl | rfl <;> first | rfl | exact absurd hsame (by decide)
  · rcases pageMem_table hi hpres with rfl | rfl
    · rw [uvmPte, pageMem_pde hi] at hno ⊢
      exact pageMem_kernelTable hj hno
    · rw [uvmPte, pageMem_pde hi] at hno ⊢
      change entryPresent (le32 pageMem.mem (0x102000 + 4 * j)) = false at hno
      change le32 pageMem.mem (0x102000 + 4 * j) = 0
      rw [pageMem_pte hj] at hno ⊢
      split at hno
      next => cases hno
      next h => rw [if_neg h]

theorem pageMem_tableFrame {k : Nat} (h : TableFrame pageMem.mem 0x101000 k) : k = 0 ∨ k = 2 := by
  obtain ⟨i, hi, hpres, ha⟩ := h
  rcases pageMem_table hi hpres with rfl | rfl
  · rw [pageMem_pde hi] at ha
    exact .inl (frameAddr_inj (show frameAddr 0 = frameAddr k from ha)).symm
  · rw [pageMem_pde hi] at ha
    exact .inr (frameAddr_inj (show frameAddr 2 = frameAddr k from ha)).symm

theorem pageMem_entry {p e : Nat} (hp : UserPage p) (he : pageEntry pageMem 0x101000 p = some e) :
    p = 524288 ∧ e = 0x103007 := by
  obtain ⟨hlo, hhi⟩ := hp
  rw [pageEntry] at he
  split at he
  next hpres =>
    simp only [pagePresent, Bool.and_eq_true] at hpres
    have htable : p / 1024 = 512 := by
      rcases pageMem_table (by omega) hpres.1 with h | h <;> omega
    have hpte : uvmPte pageMem.mem 0x101000 512 (p % 1024) =
        if p % 1024 = 0 then 0x103007 else 0 := by
      rw [uvmPte, pageMem_pde (by decide)]
      exact pageMem_pte (Nat.mod_lt _ (by decide))
    rw [htable, hpte] at hpres he
    by_cases hzero : p % 1024 = 0
    · rw [if_pos hzero] at he
      exact ⟨by omega, (Option.some.inj he).symm⟩
    · rw [if_neg hzero] at hpres
      exact absurd hpres.2 (by decide)
  next => cases he

theorem pageMem_space : SpaceOk pageMem 0x101000 := by
  refine ⟨pageMem_dirOk, fun p hp e he => ?_, fun p q hp hq e e' he he' _ => ?_⟩
  · obtain ⟨-, rfl⟩ := pageMem_entry hp he
    refine ⟨3, by decide, by decide, by decide, fun htable => ?_, by decide⟩
    rcases pageMem_tableFrame htable with h | h <;> omega
  · rw [(pageMem_entry hp he).1, (pageMem_entry hq he').1]

/-- `first_task` with this memory, a heap that ends with its page, and a program
file. -/
def pageTask : OsState (Volume × File) :=
  { elfTask 0 84 84 with
    phys := pageMem
    task := fun _ => { TaskT.zero with
      heapStart := 0x80000100
      heapEnd := 0x80001000
      tss := { Tss.zero with cr3 := 0x101000, esp0 := 0x105000 } } }

/-- The first free frame holds something else. -/
def otherPageTask : OsState (Volume × File) :=
  { pageTask with phys := { pageMem with mem := Function.update pageMem.mem 0x105000 1 } }

theorem pageTask_caller : CallerSpace .first pageTask where
  space := pageMem_space
  frames := by
    show ∀ k < 600, pageEntry pageMem 0x101000 (frameAddr k / 4096) ≠ none
    decide +kernel
  kernel := pageMem_kernelDir
  dir := ⟨1, rfl⟩
  stack := by
    refine ⟨4, rfl, by decide, by decide, fun htable => ?_⟩
    rcases pageMem_tableFrame htable with h | h <;> omega

theorem pageTask_equal : EqualButFree pageTask otherPageTask := by
  refine ⟨rfl, rfl, rfl, fun a ha => Function.update_of_ne (fun hc => ?_) ..⟩
  exact ha 5 (by decide) (by decide) (hc ▸ ⟨by decide, by decide⟩)

/-- The program file is loaded to its end, with one argument. -/
theorem pageTask_loads : ExecLoads (fatFiles idealDev tinyFat 0) .first [] [[65, 66]]
    (tinyElf 0 84 84) pageTask := by
  have hchain : HoldsClusters (image tinyFat (elfVol 0 84 84).disk).fat 2 1 := by decide +kernel
  have hopen : FileOpen (fatFiles idealDev tinyFat 0) .first 1 (elfBytes 0 84 84) 512 1
      fun pos s => StandsAt tinyFat (image tinyFat (elfVol 0 84 84).disk) 2 84 pos s :=
    fatFiles_fileOpen idealDev_works tinyFat_ok 0 (by decide) hchain (by decide) .first
  rw [elfBytes_full] at hopen
  refine ⟨tinyElf_ok tiny_full rfl ⟨by decide, by decide, by decide⟩, by decide,
    ⟨1, _, 512, 1, _, by decide, rfl, hopen, elfVol_standsAt (by decide +kernel), ?_⟩, ?_, ?_, ?_,
    by decide, by decide⟩
  · exact (tinyElf_fits rfl tiny_full ⟨.inr (by decide), .inl (by decide), rfl⟩ (by decide)
      (by decide)).seeks
  · rw [tiny_full]
    intro ph hph
    obtain rfl := List.mem_singleton.mp hph
    exact .inl (by decide)
  · rw [imagePages, tiny_full]
    refine List.nodup_cons.mpr ⟨fun hmem => ?_, stackPages_nodup⟩
    exact absurd (mem_stackPages.mp hmem).1 (by decide)
  · rw [← mapCost_eq]
    decide +kernel

end PageMem

end Wjos.Os
