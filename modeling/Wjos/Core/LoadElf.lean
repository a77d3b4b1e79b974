/-
Wjos.Core.LoadElf — the image that `load_elf_file` builds in a new address
space.

`FileOpen` is what the loader relies on of the file layer: a descriptor on a
file of known bytes, read from its position on, and a position that a seek sets
when the file stands in its first cluster, which is as much as `fatfs_seek`
does. A seek from elsewhere only goes through while the clusters last. `Loaded`
is an address space to which the segments have been added: pages, bytes, and
nothing else written. One segment adds itself (`loadPhdr_loaded`), the loop over
the program headers adds them all (`loadPhdrs_loaded`).

The loader counts the pages of a segment without the offset of `p_vaddr` in its
page, reads in pieces of a page from `p_vaddr` on through one physical address
each, does not clear what is behind `p_filesz`, and sets the heap to the end of
the segment it has loaded last. `LoadFits` leaves out the files for which that
matters.
-/
import Wjos.Core.LifeTheorems
import Wjos.Core.SpaceGrowth

namespace Wjos.Os

open Lib

variable {φ : Type}

/-! ## Files -/

/-- The whole clusters of `off`, counted from the one of `pos` on, are among the
first `clusters`. -/
def SeekGoes (cluster clusters pos off : Nat) : Prop :=
  off < cluster ∨ pos / cluster + off / cluster < clusters

/-- `fd` can be closed. -/
def Closes (L : FileLayer φ) (t : TaskId) (fd : Int) (f : φ) : Prop :=
  ∃ r f', L.sysClose f t fd = some (r, f')

/-- `fd` is open on a file of the bytes `data`, which fill no more than its
`clusters` clusters; `At pos` are the states of the file layer in which it stands
at `pos`. A seek is right from the first cluster. -/
structure FileOpen (L : FileLayer φ) (t : TaskId) (fd : Int) (data : List UInt8)
    (cluster clusters : Nat) (At : Nat → φ → Prop) : Prop where
  fills : data.length ≤ clusters * cluster
  read : ∀ f pos len, At pos f → pos + len ≤ data.length →
    ∃ f', L.sysRead f t fd len = some (((len : Int), (data.drop pos).take len), f') ∧
      At (pos + len) f'
  seek : ∀ f pos off, At pos f → off ≤ data.length → SeekGoes cluster clusters pos off →
    ∃ f', L.sysLseek f t fd off = some (0, f') ∧ (pos < cluster → At off f') ∧ Closes L t fd f'
  close : ∀ f pos, At pos f → Closes L t fd f

/-- A byte of the file is reached from the first cluster. -/
theorem SeekGoes.of_lt {cluster clusters pos off length : Nat} (hfill : length ≤ clusters * cluster)
    (hpos : pos < cluster) (hoff : off < length) : SeekGoes cluster clusters pos off := by
  refine .inr ?_
  rw [Nat.div_eq_of_lt hpos, Nat.zero_add]
  exact Nat.div_lt_of_lt_mul (by rw [Nat.mul_comm]; omega)

/-- Byte `i` of a file. -/
def dataAt (data : List UInt8) (i : Nat) : UInt8 := data.getD i 0

/-- The program header at `off`. -/
def elfPhdr (data : List UInt8) (off : Nat) : Phdr := Phdr.ofBytes fun o => dataAt data (off + o)

/-- `n` program headers from `off` on, with their places. -/
def elfPhdrs (data : List UInt8) (phentsize : Nat) : (n off : Nat) → List (Nat × Phdr)
  | 0, _ => []
  | n + 1, off => (off, elfPhdr data off) :: elfPhdrs data phentsize n (off + phentsize)

/-- The program headers of a file. -/
def elfHeaders (data : List UInt8) : List (Nat × Phdr) :=
  elfPhdrs data (le16 (dataAt data) 42) (le16 (dataAt data) 44) (le32 (dataAt data) 28)

/-- `e_entry`. -/
def elfEntry (data : List UInt8) : Nat := le32 (dataAt data) 24

/-- A `PT_LOAD` segment at a user address. -/
def Loadable (ph : Phdr) : Prop := ph.pType = 1 ∧ memoryTaskBase ≤ ph.pVaddr

instance (ph : Phdr) : Decidable (Loadable ph) := inferInstanceAs (Decidable (_ ∧ _))

/-- The segments to load among these headers. -/
def loadSegs (hs : List (Nat × Phdr)) : List Phdr := (hs.map Prod.snd).filter Loadable

/-- The bytes of a segment in the file. -/
def segBytes (data : List UInt8) (ph : Phdr) : List UInt8 := (data.drop ph.pOffset).take ph.pFilesz

/-- The pages of a segment. -/
def segPages (ph : Phdr) : List Nat := rangePages ph.pVaddr ph.pMemsz

/-- What a segment of an ELF file has to be. -/
structure SegOk (data : List UInt8) (ph : Phdr) : Prop where
  inFile : ph.pOffset + ph.pFilesz ≤ data.length
  filesz : ph.pFilesz ≤ ph.pMemsz
  user : ph.pVaddr + ph.pMemsz ≤ 4294967296

/-- A segment that the loader gets right: its pages are as many as `p_memsz`
needs from the start of a page, no piece of the file lies across two pages, and
nothing is to be cleared. -/
structure SegFits (ph : Phdr) : Prop where
  pages : FitsPages ph.pVaddr ph.pMemsz
  pieces : ph.pVaddr % 4096 = 0 ∨ ph.pVaddr % 4096 + ph.pFilesz ≤ 4096
  full : ph.pFilesz = ph.pMemsz

/-! ## Segments that have been added -/

/-- Between `m` and `m'` the segments have been added to the address space. -/
structure Loaded (dir : Nat) (data : List UInt8) (segs : List Phdr) (m m' : PhysMem) : Prop where
  ok : SpaceOk m' dir
  tables : ∀ k, TableFrame m.mem dir k → TableFrame m'.mem dir k
  entries : ∀ p, UserPage p → ∀ e, pageEntry m dir p = some e → pageEntry m' dir p = some e
  pages : ∀ p, UserPage p → pageEntry m' dir p ≠ none →
    pageEntry m dir p ≠ none ∨ ∃ ph ∈ segs, p ∈ segPages ph
  keep : ∀ v b, memoryTaskBase ≤ v → v < 4294967296 → userByte m dir v = some b →
    userByte m' dir v = some b
  bytes : ∀ ph ∈ segs, UserHolds m' dir ph.pVaddr (segBytes data ph)
  outside : ∀ a, ¬(dir ≤ a ∧ a < dir + 4096) → (∀ k, TableFrame m'.mem dir k → ¬InFrame k a) →
    (∀ ph ∈ segs, ∀ p ∈ segPages ph, ¬InPage m' dir p a) → m'.mem a = m.mem a
  frames : ∀ qs : List Nat, (∀ q ∈ qs, q < 1048576) →
    mapCost (hasTable m dir) (segs.flatMap segPages ++ qs) ≤ m.freeCount →
      mapCost (hasTable m' dir) qs ≤ m'.freeCount

section Segments

variable {m m' m'' : PhysMem} {dir v : Nat} {data bytes : List UInt8} {segs segs' : List Phdr}
    {ph : Phdr}

theorem Loaded.nil (h : SpaceOk m dir) : Loaded dir data [] m m where
  ok := h
  tables _ hk := hk
  entries _ _ _ he := he
  pages _ _ hp := .inl hp
  keep _ _ _ _ hb := hb
  bytes := by simp
  outside _ _ _ _ := rfl
  frames qs _ hle := by simpa using hle

theorem segPages_user (hlo : memoryTaskBase ≤ ph.pVaddr) (hok : SegOk data ph) {p : Nat}
    (hp : p ∈ segPages ph) : UserPage p := by
  have huser := hok.user
  unfold memoryTaskBase at hlo
  unfold segPages rangePages at hp
  split at hp
  next => cases hp
  next hsize =>
    obtain ⟨i, hi, rfl⟩ := List.mem_map.mp hp
    rw [List.mem_range] at hi
    unfold UserPage
    omega

/-- The page of an address of the segment. -/
theorem mem_segPages (hok : SegOk data ph) (hlo : ph.pVaddr ≤ v) (hhi : v < ph.pVaddr + ph.pMemsz) :
    v / 4096 ∈ segPages ph := by
  have huser := hok.user
  unfold segPages rangePages
  rw [if_neg (by omega)]
  refine List.mem_map.mpr ⟨v / 4096 - ph.pVaddr / 4096, ?_, by omega⟩
  rw [List.mem_range]
  omega

theorem Loaded.append (h : Loaded dir data segs m m') (h' : Loaded dir data segs' m' m'')
    (hsegs : ∀ ph ∈ segs, memoryTaskBase ≤ ph.pVaddr ∧ SegOk data ph)
    (hsegs' : ∀ ph ∈ segs', memoryTaskBase ≤ ph.pVaddr ∧ SegOk data ph) :
    Loaded dir data (segs ++ segs') m m'' where
  ok := h'.ok
  tables k hk := h'.tables k (h.tables k hk)
  entries p hp e he := h'.entries p hp e (h.entries p hp e he)
  pages p hp hmap := by
    rcases h'.pages p hp hmap with hmap' | ⟨ph, hph, hin⟩
    · rcases h.pages p hp hmap' with hold | ⟨ph, hph, hin⟩
      · exact .inl hold
      · exact .inr ⟨ph, List.mem_append_left _ hph, hin⟩
    · exact .inr ⟨ph, List.mem_append_right _ hph, hin⟩
  keep v b hlo hhi hb := h'.keep v b hlo hhi (h.keep v b hlo hhi hb)
  bytes ph hph := by
    rcases List.mem_append.mp hph with hfirst | hlater
    · obtain ⟨hlo, hok⟩ := hsegs ph hfirst
      have hend := hok.user
      have hsize := hok.filesz
      intro i hi
      have hlen : (segBytes data ph).length ≤ ph.pFilesz := List.length_take_le ..
      have hat := h.bytes ph hfirst i hi
      rw [List.getElem?_eq_getElem hi] at hat ⊢
      exact h'.keep _ _ (by omega) (by omega) hat
    · exact h'.bytes ph hlater
  outside a hdir htables hpages := by
    refine (h'.outside a hdir htables fun ph hph => hpages ph (List.mem_append_right _ hph)).trans
      (h.outside a hdir (fun k hk => htables k (h'.tables k hk)) fun ph hph p hp hin => ?_)
    obtain ⟨e, he, hin⟩ := hin
    obtain ⟨hlo, hok⟩ := hsegs ph hph
    exact hpages ph (List.mem_append_left _ hph) p hp
      ⟨e, h'.entries p (segPages_user hlo hok hp) e he, hin⟩
  frames qs hqs hle := by
    rw [List.flatMap_append, List.append_assoc] at hle
    refine h'.frames qs hqs (h.frames _ (fun q hq => ?_) hle)
    rcases List.mem_append.mp hq with hseg | hrest
    · obtain ⟨ph, hph, hin⟩ := List.mem_flatMap.mp hseg
      obtain ⟨hlo, hok⟩ := hsegs' ph hph
      exact (segPages_user hlo hok hin).2
    · exact hqs q hrest

theorem segBytes_length (hok : SegOk data ph) : (segBytes data ph).length = ph.pFilesz := by
  have hfile := hok.inFile
  rw [segBytes, List.length_take, List.length_drop]
  omega

/-- A segment with new pages and its bytes in them. -/
theorem Loaded.segment {m₁ : PhysMem} {perm : Nat} (hlo : memoryTaskBase ≤ ph.pVaddr)
    (hok : SegOk data ph) (hnew : ∀ p ∈ segPages ph, pageEntry m dir p = none)
    (hpages : NewPages dir (segPages ph) m m₁) (hback : Backed dir perm (segPages ph) m m₁)
    (hw : Wrote dir ph.pVaddr (segBytes data ph) m₁ m') : Loaded dir data [ph] m m' := by
  have hlen := segBytes_length hok
  have hsize := hok.filesz
  have huser := hok.user
  have hin : ∀ u, ph.pVaddr ≤ u → u < ph.pVaddr + (segBytes data ph).length →
      u / 4096 ∈ segPages ph := fun u hulo huhi => mem_segPages hok hulo (by omega)
  have htable := hw.tableFrame hpages.ok hlo (by omega)
  refine ⟨hw.ok, fun k hk => (htable k).mpr (hpages.tableFrame hk), fun p hp e he => ?_,
    fun p hp hmap => ?_, fun v b hvlo hvhi hb => ?_, fun ph' hph => ?_,
    fun a hdir htables hout => ?_,
    fun qs hqs hle => ?_⟩
  · rw [hw.entries p hp.2, hpages.others p hp.2 fun hc => ?_]
    · exact he
    · rw [hnew p hc] at he
      cases he
  · by_cases hseg : p ∈ segPages ph
    · exact .inr ⟨ph, List.mem_singleton_self ph, hseg⟩
    · rw [hw.entries p hp.2, hpages.others p hp.2 hseg] at hmap
      exact .inl hmap
  · have hkept := hpages.byte hnew hvlo hvhi hb
    rw [hw.byte v hvlo hvhi, if_neg fun hc => ?_]
    · exact hkept
    · rw [userByte_eq, hnew _ (hin v hc.1 hc.2)] at hb
      cases hb
  · obtain rfl := List.mem_singleton.mp hph
    exact hw.holds hlo (by omega)
  · refine (hw.outside a fun u hulo huhi hc => ?_).trans
      (hpages.mem a hdir fun i _ hi k hk => htables k ((htable k).mpr (hk.frame hi)))
    obtain ⟨e, he, hbounds⟩ := hc
    refine hout ph (List.mem_singleton_self ph) _ (hin u hulo huhi) ⟨e, ?_, hbounds⟩
    rw [hw.entries _ (by omega)]
    exact he
  · rw [List.flatMap_singleton] at hle
    have hfree : m'.freeCount = m₁.freeCount := by
      rw [PhysMem.freeCount, PhysMem.freeCount, PhysMem.freeFrames, PhysMem.freeFrames,
        PhysMem.frames,
        PhysMem.frames]
      unfold PhysMem.used
      rw [hw.paddrAlloc]
    rw [hfree, mapCost_congr hqs hw.tables]
    exact hback.frames hqs hle

end Segments

/-! ## The loader -/

section Loader

variable {L : FileLayer φ} {t : TaskId} {fd : Int} {data : List UInt8}
    {cluster clusters dir pos v size : Nat}
  {At : Nat → φ → Prop} {s : OsState φ} {ph : Phdr}

/-- `sys_read` to an address in a user page. -/
theorem readTo_wrote (hfile : FileOpen L t fd data cluster clusters At) (hat : At pos s.files)
    (hlen : pos + size ≤ data.length) (h : SpaceOk s.phys dir) (hlo : memoryTaskBase ≤ v)
    (hhi : v < 4294967296) {a : Nat} (ht : translate s.phys dir v = some a) (hne : a ≠ 0)
    (hpage : v % 4096 + size ≤ 4096) : ∃ m' f', readTo L t fd a size s =
      some ((size : Int), { s with phys := m', files := f' }) ∧ At (pos + size) f' ∧
        Wrote dir v ((data.drop pos).take size) s.phys m' := by
  obtain ⟨f', hread, hat'⟩ := hfile.read s.files pos size hat hlen
  have hbytes : ((data.drop pos).take size).length = size := by
    rw [List.length_take, List.length_drop]
    omega
  obtain ⟨m', hstore, hwrote⟩ := h.wrote ((data.drop pos).take size) hlo hhi ht (by omega)
  refine ⟨m', f', ?_, hat', hwrote⟩
  rw [readTo, if_neg hne, onFiles_seq hread]
  exact onPhys_seq hstore rfl

theorem loadPhdrLoop_zero (fuel v : Nat) : loadPhdrLoop L t fd dir fuel v 0 s = some (0, s) := by
  cases fuel <;> rfl

/-- The loop of `load_phdr` over pieces that lie in one page each. -/
theorem loadPhdrLoop_reads {fuel : Nat} (hfile : FileOpen L t fd data cluster clusters At)
    (hat : At pos s.files) (hlen : pos + size ≤ data.length) (h : SpaceOk s.phys dir)
    (hlo : memoryTaskBase ≤ v) (hend : v + size ≤ 4294967296) (hfuel : size / 4096 < fuel)
    (hpieces : v % 4096 = 0 ∨ v % 4096 + size ≤ 4096)
    (hmap : ∀ u, v ≤ u → u < v + size → pageEntry s.phys dir (u / 4096) ≠ none) :
    ∃ m' f', loadPhdrLoop L t fd dir fuel v size s = some (0, { s with phys := m', files := f' }) ∧
      At (pos + size) f' ∧ Wrote dir v ((data.drop pos).take size) s.phys m' := by
  induction fuel generalizing s pos v size with
  | zero => omega
  | succ fuel ih =>
    by_cases hzero : size = 0
    · subst hzero
      exact ⟨s.phys, s.files, loadPhdrLoop_zero .., hat, .nil h v⟩
    · obtain ⟨n, hn⟩ : ∃ n, n = if size > 4096 then 4096 else size := ⟨_, rfl⟩
      have hn' : n ≤ size ∧ n ≤ 4096 ∧ 0 < n ∧ (n < size → n = 4096) := by
        split at hn <;> omega
      obtain ⟨a, ht, hne, -, hget⟩ := h.getPaddr hlo (by omega) (hmap v le_rfl (by omega))
      obtain ⟨m₁, f₁, hread, hat₁, hwrote₁⟩ := readTo_wrote hfile hat
        (show pos + n ≤ data.length by omega) h hlo (by omega) ht hne (by omega)
      have hbytes : ((data.drop pos).take n).length = n := by
        rw [List.length_take, List.length_drop]
        omega
      have hsplit : (data.drop pos).take size =
          (data.drop pos).take n ++ (data.drop (pos + n)).take (size - n) := by
        rw [show size = n + (size - n) by omega, List.take_add, List.drop_drop,
          Nat.add_sub_cancel_left]
      have hrest : ∃ m' f', loadPhdrLoop L t fd dir fuel ((v + n) % 4294967296) (size - n)
          { s with phys := m₁, files := f₁ } = some (0, { s with phys := m', files := f' }) ∧
          At (pos + size) f' ∧ Wrote dir (v + n) ((data.drop (pos + n)).take (size - n)) m₁ m' := by
        by_cases hdone : n = size
        · rw [hdone, Nat.sub_self, List.take_zero]
          exact ⟨m₁, f₁, loadPhdrLoop_zero .., hdone ▸ hat₁, hdone ▸ .nil hwrote₁.ok _⟩
        · rw [Nat.mod_eq_of_lt (by omega)]
          obtain ⟨m', f', hrun, hat', hwrote⟩ := ih (s := { s with phys := m₁, files := f₁ })
            (v := v + n) hat₁ (show pos + n + (size - n) ≤ data.length by omega) hwrote₁.ok
            (by omega)
            (by omega) (by omega) (by omega) fun u hulo huhi => by
              rw [hwrote₁.entries _ (by omega)]
              exact hmap u (by omega) (by omega)
          refine ⟨m', f', hrun, ?_, hwrote⟩
          rwa [show pos + n + (size - n) = pos + size by omega] at hat'
      obtain ⟨m', f', hrun, hat', hwrote⟩ := hrest
      refine ⟨m', f', ?_, hat', ?_⟩
      · rw [loadPhdrLoop, if_neg hzero, ← hn, onPhys_seq hget rfl, seq_some hread,
          if_neg (lt_irrefl _)]
        exact hrun
      · rw [hsplit]
        refine hwrote₁.append (hbytes.symm ▸ hwrote) ?_
        rw [hbytes, List.length_take, List.length_drop]
        omega

/-- `load_phdr` behind its allocation, where the file part has pages. Of an empty
segment nothing is read, wherever the seek has gone. -/
theorem loadPhdr_wrote {m₁ : PhysMem} (hfile : FileOpen L t fd data cluster clusters At)
    (hat : At pos s.files) (hpos : pos < cluster ∨ ph.pFilesz = 0)
    (hgoes : SeekGoes cluster clusters pos ph.pOffset)
    (hlo : memoryTaskBase ≤ ph.pVaddr) (hok : SegOk data ph)
    (hpieces : ph.pVaddr % 4096 = 0 ∨ ph.pVaddr % 4096 + ph.pFilesz ≤ 4096)
    (halloc : memoryAllocForPageDir dir ph.pVaddr ph.pMemsz ptePuw s.phys = some (0, m₁))
    (h : SpaceOk m₁ dir)
    (hmap : ∀ u, ph.pVaddr ≤ u → u < ph.pVaddr + ph.pFilesz → pageEntry m₁ dir (u / 4096) ≠ none) :
    ∃ m' f', loadPhdr L t fd ph dir s = some (0, { s with phys := m', files := f' }) ∧
      (pos < cluster → At (ph.pOffset + ph.pFilesz) f') ∧ Closes L t fd f' ∧
        Wrote dir ph.pVaddr (segBytes data ph) m₁ m' := by
  have huser := hok.user
  have hsize := hok.filesz
  have hin := hok.inFile
  obtain ⟨f₁, hseek, hat₁, hclose₁⟩ := hfile.seek s.files pos ph.pOffset hat (by omega) hgoes
  -- up to the loop
  have hrun : loadPhdr L t fd ph dir s = loadPhdrLoop L t fd dir (ph.pFilesz / 4096 + 1) ph.pVaddr
      ph.pFilesz { s with phys := m₁, files := f₁ } := by
    rw [loadPhdr, onPhys_seq halloc rfl, if_neg (by decide), onFiles_seq hseek, if_neg (by decide)]
  by_cases hempty : ph.pFilesz = 0
  · have hnil : segBytes data ph = [] := by rw [segBytes, hempty, List.take_zero]
    rw [hrun, hempty, hnil]
    exact ⟨m₁, f₁, loadPhdrLoop_zero .., hat₁, hclose₁, .nil h _⟩
  · have hfirst : pos < cluster := hpos.resolve_right hempty
    obtain ⟨m', f', hread, hat', hwrote⟩ := loadPhdrLoop_reads
      (s := { s with phys := m₁, files := f₁ }) hfile (hat₁ hfirst) hin h hlo (by omega)
      (Nat.lt_succ_self _) hpieces hmap
    exact ⟨m', f', hrun.trans hread, fun _ => hat', hfile.close f' _ hat', hwrote⟩

/-- `load_phdr` of a segment that fits, with frames for its pages. -/
theorem loadPhdr_loaded (hfile : FileOpen L t fd data cluster clusters At) (hat : At pos s.files)
    (hpos : pos < cluster ∨ ph.pFilesz = 0) (hgoes : SeekGoes cluster clusters pos ph.pOffset)
    (h : SpaceOk s.phys dir)
    (hlo : memoryTaskBase ≤ ph.pVaddr) (hok : SegOk data ph) (hfits : SegFits ph)
    (hnew : ∀ p ∈ segPages ph, pageEntry s.phys dir p = none)
    (hfree : mapCost (hasTable s.phys dir) (segPages ph) ≤ s.phys.freeCount) :
    ∃ m' f', loadPhdr L t fd ph dir s = some (0, { s with phys := m', files := f' }) ∧
      (pos < cluster → At (ph.pOffset + ph.pFilesz) f') ∧ Closes L t fd f' ∧
        Loaded dir data [ph] s.phys m' := by
  have huser := hok.user
  have hsize := hok.filesz
  have hbase : memoryTaskBase = 2147483648 := rfl
  have hloop : segPages ph = loopPages ph.pVaddr ph.pMemsz := rangePages_fits (by omega) hfits.pages
  have huserPages : ∀ p ∈ segPages ph, UserPage p := fun p hp => segPages_user hlo hok hp
  obtain ⟨m₁, halloc, hpages, hback⟩ := memoryAllocForPageDir_grown h ph.pVaddr
    ph.pMemsz ptePuw (by omega) (by decide) (hloop ▸ huserPages)
    (hloop ▸ hnew) (hloop ▸ hfree)
  rw [← hloop] at hpages hback
  obtain ⟨m', f', hrun, hat', hclose, hwrote⟩ := loadPhdr_wrote hfile hat hpos hgoes hlo hok
    hfits.pieces halloc hpages.ok fun u hulo huhi =>
      hpages.mapped _ (mem_segPages hok hulo (by omega))
  exact ⟨m', f', hrun, hat', hclose, .segment hlo hok hnew hpages hback hwrote⟩

/-- A header that is read. -/
theorem readHeader_at {len : Nat} (hfile : FileOpen L t fd data cluster clusters At)
    (hat : At pos s.files) (hlen : pos + len ≤ data.length) (buf : Nat → UInt8) :
    ∃ f', readHeader L t fd buf len s = some (((len : Int), copyTo buf 0 len fun i =>
      dataAt data (pos + i)), { s with files := f' }) ∧ At (pos + len) f' := by
  obtain ⟨f', hread, hat'⟩ := hfile.read s.files pos len hat hlen
  have hbytes : ((data.drop pos).take len).length = len := by
    rw [List.length_take, List.length_drop]
    omega
  have hsame : copyTo buf 0 len (fun i => ((data.drop pos).take len).getD i 0) =
      copyTo buf 0 len fun i => dataAt data (pos + i) := by
    refine copyTo_congr fun i hi => ?_
    rw [dataAt, List.getD_eq_getElem?_getD, List.getD_eq_getElem?_getD, List.getElem?_take_of_lt hi,
      List.getElem?_drop]
  refine ⟨f', ?_, hat'⟩
  rw [readHeader, onFiles_seq (x := fun f => L.sysRead f t fd len) hread, ← hsame]
  dsimp only
  rw [hbytes]
  rfl

/-- The program header in the buffer. -/
theorem ofBytes_read (data : List UInt8) (off : Nat) (buf : Nat → UInt8) :
    Phdr.ofBytes (copyTo buf 0 32 fun i => dataAt data (off + i)) = elfPhdr data off := by
  have hword : ∀ o ≤ 28, le32 (copyTo buf 0 32 fun i => dataAt data (off + i)) o =
      le32 (fun o => dataAt data (off + o)) o :=
    fun o ho => le32_congr fun j hj => copyTo_zero_of_lt (by omega)
  rw [elfPhdr, Phdr.ofBytes, Phdr.ofBytes]
  simp only [hword 0 (by omega), hword 4 (by omega), hword 8 (by omega), hword 16 (by omega),
    hword 20 (by omega)]

/-- The heap after these segments, when it was at `heap`. -/
def heapAfter (heap : Nat) (segs : List Phdr) : Nat :=
  segs.foldl (fun _ ph => (ph.pVaddr + ph.pMemsz) % 4294967296) heap

/-- Each seek of the loop over the headers goes through, and it is made from the
first cluster where a read or another seek comes after it. -/
def SeeksHit (cluster clusters : Nat) : (pos : Nat) → List (Nat × Phdr) → Prop
  | _, [] => True
  | pos, (off, ph) :: hs => pos < cluster ∧
    if Loadable ph then
      (off + 32 < cluster ∨ ph.pFilesz = 0 ∧ hs = []) ∧
        (ph.pFilesz = 0 → SeekGoes cluster clusters (off + 32) ph.pOffset) ∧
          SeeksHit cluster clusters (ph.pOffset + ph.pFilesz) hs
    else SeeksHit cluster clusters (off + 32) hs

theorem loadSegs_cons (off : Nat) (ph : Phdr) (hs : List (Nat × Phdr)) :
    loadSegs ((off, ph) :: hs) = if Loadable ph then ph :: loadSegs hs else loadSegs hs := by
  simp [loadSegs, List.filter_cons]

theorem loadable_of_mem {hs : List (Nat × Phdr)} (h : ph ∈ loadSegs hs) : Loadable ph := by
  simpa using (List.mem_filter.mp h).2

/-- The place of the next header does not wrap around where there is one. -/
theorem loadPhdrs_next {phentsize n next : Nat} {buf : Nat → UInt8}
    (hlen : data.length < 4294967296)
    (hheaders : ∀ hd ∈ elfPhdrs data phentsize n next, hd.1 + 32 ≤ data.length) :
    loadPhdrs L t fd dir phentsize n (next % 4294967296) buf =
      loadPhdrs L t fd dir phentsize n next buf := by
  cases n with
  | zero => rfl
  | succ n =>
    have hnext : next + 32 ≤ data.length := hheaders _ List.mem_cons_self
    rw [Nat.mod_eq_of_lt (by omega)]

/-- One program header: the loop passes over it or loads its segment. -/
theorem loadPhdrs_step {phentsize n off : Nat} (dir : Nat) (buf : Nat → UInt8)
    (hfile : FileOpen L t fd data cluster clusters At) (hat : At pos s.files) (hpos : pos < cluster)
    (hlen : data.length < 4294967296)
    (hheaders : ∀ hd ∈ elfPhdrs data phentsize (n + 1) off, hd.1 + 32 ≤ data.length) :
    ∃ f₂, At (off + 32) f₂ ∧
      (¬Loadable (elfPhdr data off) → loadPhdrs L t fd dir phentsize (n + 1) off buf s =
        loadPhdrs L t fd dir phentsize n (off + phentsize)
          (copyTo buf 0 32 fun i => dataAt data (off + i)) { s with files := f₂ }) ∧
      (Loadable (elfPhdr data off) → ∀ m' f',
        loadPhdr L t fd (elfPhdr data off) dir { s with files := f₂ } =
            some (0, { s with phys := m', files := f' }) →
          loadPhdrs L t fd dir phentsize (n + 1) off buf s =
            loadPhdrs L t fd dir phentsize n (off + phentsize)
              (copyTo buf 0 32 fun i => dataAt data (off + i))
              (OsState.setTask { s with phys := m', files := f' } t { s.task t with
                heapStart := heapAfter 0 [elfPhdr data off]
                heapEnd := heapAfter 0 [elfPhdr data off] })) := by
  have hoff : off + 32 ≤ data.length := hheaders _ List.mem_cons_self
  have hnext : ∀ hd ∈ elfPhdrs data phentsize n (off + phentsize), hd.1 + 32 ≤ data.length :=
    fun hd hmem => hheaders hd (List.mem_cons_of_mem _ hmem)
  obtain ⟨f₁, hseek, hat₁, -⟩ := hfile.seek s.files pos off hat (by omega)
    (SeekGoes.of_lt hfile.fills hpos (by omega))
  obtain ⟨f₂, hheader, hat₂⟩ :=
    readHeader_at (s := { s with files := f₁ }) hfile (hat₁ hpos) hoff buf
  refine ⟨f₂, hat₂, fun hskip => ?_, fun hload m' f' hphdr => ?_⟩ <;>
    rw [loadPhdrs, onFiles_seq hseek, if_neg (by decide), seq_some hheader] <;>
    dsimp only <;>
    rw [if_neg (by decide), ofBytes_read data off buf]
  · rw [Loadable, not_and_or, Nat.not_le] at hskip
    rw [if_pos hskip, loadPhdrs_next hlen hnext]
  · have hboth : ¬((elfPhdr data off).pType ≠ 1 ∨ (elfPhdr data off).pVaddr < memoryTaskBase) :=
      not_or.mpr ⟨not_not.mpr hload.1, Nat.not_lt.mpr hload.2⟩
    rw [if_neg hboth, seq_some hphdr, if_neg (by decide), editTask, store_seq,
      loadPhdrs_next hlen hnext]
    rfl

/-- The seek to a segment among those that hit. -/
theorem SeekGoes.segment {off : Nat} {hs : List (Nat × Phdr)}
    (hfill : data.length ≤ clusters * cluster)
    (hok : SegOk data ph) (hfirst : off + 32 < cluster ∨ ph.pFilesz = 0 ∧ hs = [])
    (hempty : ph.pFilesz = 0 → SeekGoes cluster clusters (off + 32) ph.pOffset) :
    SeekGoes cluster clusters (off + 32) ph.pOffset := by
  have hin := hok.inFile
  by_cases hsize : ph.pFilesz = 0
  · exact hempty hsize
  · have hpos : off + 32 < cluster := hfirst.resolve_right fun h => hsize h.1
    exact SeekGoes.of_lt hfill hpos (by omega)

/-- The loop over the program headers. -/
theorem loadPhdrs_loaded {phentsize n off : Nat} {hs : List (Nat × Phdr)} (buf : Nat → UInt8)
    (hfile : FileOpen L t fd data cluster clusters At) (hclose : Closes L t fd s.files)
    (hat : hs ≠ [] → At pos s.files) (h : SpaceOk s.phys dir)
    (hlen : data.length < 4294967296) (hhs : hs = elfPhdrs data phentsize n off)
    (hheaders : ∀ hd ∈ hs, hd.1 + 32 ≤ data.length) (hseeks : SeeksHit cluster clusters pos hs)
    (hsegs : ∀ ph ∈ loadSegs hs, SegOk data ph ∧ SegFits ph)
    (hnew : ∀ ph ∈ loadSegs hs, ∀ p ∈ segPages ph, pageEntry s.phys dir p = none)
    (hapart : (loadSegs hs).Pairwise fun a b => ∀ p ∈ segPages a, p ∉ segPages b)
    (hfree : mapCost (hasTable s.phys dir) ((loadSegs hs).flatMap segPages) ≤ s.phys.freeCount) :
    ∃ s', loadPhdrs L t fd dir phentsize n off buf s = some (true, s') ∧ Closes L t fd s'.files ∧
      Loaded dir data (loadSegs hs) s.phys s'.phys ∧
      (s'.task t).heapStart = heapAfter (s.task t).heapStart (loadSegs hs) := by
  induction n generalizing s pos off buf hs with
  | zero =>
    subst hhs
    exact ⟨s, rfl, hclose, .nil h, rfl⟩
  | succ n ih =>
    obtain ⟨hs', hhs'⟩ : ∃ hs', hs' = elfPhdrs data phentsize n (off + phentsize) := ⟨_, rfl⟩
    rw [elfPhdrs, ← hhs'] at hhs
    subst hhs
    have hheaders' : ∀ hd ∈ hs', hd.1 + 32 ≤ data.length := fun hd hmem =>
      hheaders hd (List.mem_cons_of_mem _ hmem)
    obtain ⟨hpos, hseeks⟩ := hseeks
    obtain ⟨f₂, hat₂, hpass, hstep⟩ := loadPhdrs_step dir buf hfile
      (hat (List.cons_ne_nil _ _)) hpos hlen (by rwa [elfPhdrs, ← hhs'])
    rw [loadSegs_cons] at hsegs hnew hapart hfree ⊢
    by_cases hload : Loadable (elfPhdr data off)
    · rw [if_pos hload] at hsegs hnew hapart hfree hseeks ⊢
      obtain ⟨hfirst, hempty, hseeks⟩ := hseeks
      obtain ⟨hok, hfits⟩ := hsegs _ List.mem_cons_self
      rw [List.flatMap_cons] at hfree
      have hfree₁ :
          mapCost (hasTable s.phys dir) (segPages (elfPhdr data off)) ≤ s.phys.freeCount := by
        rw [mapCost_append] at hfree
        omega
      obtain ⟨m₁, f₃, hphdr, hat₃, hclose₃, hloaded⟩ :=
        loadPhdr_loaded (s := { s with files := f₂ }) hfile hat₂ (hfirst.imp_right And.left)
          (.segment hfile.fills hok hfirst hempty) h hload.2 hok hfits
          (hnew _ List.mem_cons_self) hfree₁
      -- another header is sought from the first cluster
      have hat₃' : hs' ≠ [] → At ((elfPhdr data off).pOffset + (elfPhdr data off).pFilesz) f₃ :=
        fun hmore => hat₃ (hfirst.resolve_right fun hlast => hmore hlast.2)
      have huser : ∀ ph ∈ loadSegs hs', memoryTaskBase ≤ ph.pVaddr ∧ SegOk data ph := fun ph hph =>
        ⟨(loadable_of_mem hph).2, (hsegs ph (List.mem_cons_of_mem _ hph)).1⟩
      have hpages : ∀ ph ∈ loadSegs hs', ∀ p ∈ segPages ph, p < 1048576 := fun ph hph p hp =>
        (segPages_user (huser ph hph).1 (huser ph hph).2 hp).2
      rw [List.pairwise_cons] at hapart
      -- the pages of the other segments are still free
      have hnew' : ∀ ph ∈ loadSegs hs', ∀ p ∈ segPages ph, pageEntry m₁ dir p = none := by
        intro ph hph p hp
        by_contra hmap
        rcases hloaded.pages p (segPages_user (huser ph hph).1 (huser ph hph).2 hp) hmap with
          hold | ⟨ph', hph', hin'⟩
        · exact hold (hnew ph (List.mem_cons_of_mem _ hph) p hp)
        · rw [List.mem_singleton.mp hph'] at hin'
          exact hapart.1 ph hph p hin' hp
      have hfree' : mapCost (hasTable m₁ dir) ((loadSegs hs').flatMap segPages) ≤ m₁.freeCount := by
        refine hloaded.frames _ (fun q hq => ?_) (by simpa using hfree)
        obtain ⟨ph, hph, hp⟩ := List.mem_flatMap.mp hq
        exact hpages ph hph q hp
      let heap := heapAfter 0 [elfPhdr data off]
      obtain ⟨s', hrun, hclose', hrest, hheap⟩ :=
        ih (s := OsState.setTask { s with phys := m₁, files := f₃ }
        t { s.task t with heapStart := heap, heapEnd := heap }) (copyTo buf 0
        32 fun i => dataAt data (off + i)) hclose₃ hat₃' hloaded.ok hhs' hheaders' hseeks
        (fun ph hph => hsegs ph (List.mem_cons_of_mem _ hph)) hnew' hapart.2 hfree'
      refine ⟨s', ?_, hclose', ?_, ?_⟩
      · rw [hstep hload m₁ f₃ hphdr]
        exact hrun
      · refine hloaded.append hrest (fun ph hph => ?_) huser
        rw [List.mem_singleton.mp hph]
        exact ⟨hload.2, hok⟩
      · rw [hheap]
        simp [OsState.setTask, heapAfter, heap]
    · rw [if_neg hload] at hsegs hnew hapart hfree hseeks ⊢
      rw [hpass hload]
      exact ih (s := { s with files := f₂ }) _ (hfile.close f₂ _ hat₂) (fun _ => hat₂) h hhs'
        hheaders' hseeks hsegs hnew hapart hfree

/-- The segments of a file that are to be loaded. -/
def elfLoads (data : List UInt8) : List Phdr := loadSegs (elfHeaders data)

/-- An ELF file: its headers and segments are inside it, and segments to load
are on different pages. -/
structure ElfOk (data : List UInt8) : Prop where
  long : 52 ≤ data.length
  size : data.length < 4294967296
  magic : dataAt data 0 = 0x7F ∧ dataAt data 1 = 69 ∧ dataAt data 2 = 76 ∧ dataAt data 3 = 70
  headers : ∀ hd ∈ elfHeaders data, hd.1 + 32 ≤ data.length
  segs : ∀ ph ∈ elfLoads data, SegOk data ph
  apart : (elfLoads data).Pairwise fun a b => ∀ p ∈ segPages a, p ∉ segPages b

/-- A file that the loader gets right: each of its segments fits, none ends
behind the one that is loaded last, and the seeks hit. -/
structure LoadFits (data : List UInt8) (cluster clusters : Nat) : Prop where
  segs : ∀ ph ∈ elfLoads data, SegFits ph
  heap : ∀ ph ∈ elfLoads data, ph.pVaddr + ph.pMemsz ≤ heapAfter 0 (elfLoads data)
  seeks : SeeksHit cluster clusters 52 (elfHeaders data)

/-- Between `s` and `s'` the image of the file has been built in the address
space of `dir`: the bytes of each segment, zeros behind them, no store but into
the directory, its tables and the frames of the image, and the heap behind all
of it. -/
structure ImageBuilt (t : TaskId) (dir : Nat) (data : List UInt8) (s s' : OsState φ) : Prop where
  bytes : ∀ ph ∈ elfLoads data, ∀ i < ph.pMemsz, userByte s'.phys dir (ph.pVaddr + i) =
    some (if i < ph.pFilesz then dataAt data (ph.pOffset + i) else 0)
  outside : ∀ a, ¬(dir ≤ a ∧ a < dir + 4096) → (∀ k, TableFrame s'.phys.mem dir k → ¬InFrame k a) →
    (∀ ph ∈ elfLoads data, ∀ p ∈ segPages ph, ¬InPage s'.phys dir p a) →
      s'.phys.mem a = s.phys.mem a
  heap : ∀ ph ∈ elfLoads data, ph.pVaddr + ph.pMemsz ≤ (s'.task t).heapStart

/-- A new address space with nothing in it and frames for all pages of the file. -/
structure RoomFor (m : PhysMem) (dir : Nat) (data : List UInt8) : Prop extends SpaceOk m dir where
  unmapped : ∀ p, UserPage p → pageEntry m dir p = none
  frames : framesNeeded (hasTable m dir) ((elfLoads data).flatMap segPages) ≤ m.freeCount

theorem segBytes_getElem {i : Nat} (hok : SegOk data ph) (hi : i < ph.pFilesz) :
    (segBytes data ph)[i]? = some (dataAt data (ph.pOffset + i)) := by
  have hin := hok.inFile
  rw [segBytes, List.getElem?_take_of_lt hi, List.getElem?_drop, dataAt, List.getD_eq_getElem?_getD,
    List.getElem?_eq_getElem (by omega)]
  rfl

theorem heapAfter_of_mem {segs : List Phdr} (heap heap' : Nat) (h : ph ∈ segs) :
    heapAfter heap segs = heapAfter heap' segs := by
  cases segs with
  | nil => cases h
  | cons _ segs => rfl

/-- `load_elf_file` around the loop over the program headers. -/
theorem loadElfFile_around {name : List UInt8} {f₀ : φ} (dir : Nat) (junk : Nat → UInt8)
    (helf : ElfOk data) (hfile : FileOpen L t fd data cluster clusters At)
    (hopen : L.sysOpen s.files t name = some (fd, f₀)) (hfd : 0 ≤ fd) (hat : At 0 f₀) :
    ∃ f₁, At 52 f₁ ∧ ∀ s₁, loadPhdrs L t fd dir (le16 (dataAt data) 42) (le16 (dataAt data) 44)
        (le32 (dataAt data) 28) (fun i => junk (52 + i)) { s with files := f₁ } = some (true, s₁) →
      Closes L t fd s₁.files →
        ∃ f₂, loadElfFile L t name dir junk s = some (elfEntry data, { s₁ with files := f₂ }) := by
  have hlong := helf.long
  obtain ⟨f₁, hheader, hat₁⟩ := readHeader_at (s := { s with files := f₀ }) hfile hat
    (show 0 + 52 ≤ data.length by omega) junk
  obtain ⟨hdr, hhdr⟩ : ∃ hdr, hdr = copyTo junk 0 52 fun i => dataAt data (0 + i) := ⟨_, rfl⟩
  have hbyte : ∀ i < 52, hdr i = dataAt data i := by
    intro i hi
    rw [hhdr, copyTo_zero_of_lt hi, Nat.zero_add]
  have hword : ∀ i ≤ 48, le32 hdr i = le32 (dataAt data) i := fun i hi =>
    le32_congr fun o ho => hbyte _ (by omega)
  have hhalf : ∀ i ≤ 50, le16 hdr i = le16 (dataAt data) i := fun i hi =>
    le16_congr (hbyte _ (by omega)) (hbyte _ (by omega))
  have hmagic : ¬(hdr 0 ≠ 0x7F ∨ hdr 1 ≠ 69 ∨ hdr 2 ≠ 76 ∨ hdr 3 ≠ 70) := by
    obtain ⟨h₀, h₁, h₂, h₃⟩ := helf.magic
    rw [hbyte 0 (by omega), hbyte 1 (by omega), hbyte 2 (by omega), hbyte 3 (by omega)]
    simp [h₀, h₁, h₂, h₃]
  refine ⟨f₁, hat₁, fun s₁ hrun hcloses => ?_⟩
  obtain ⟨r, f₂, hclose⟩ := hcloses
  refine ⟨f₂, ?_⟩
  rw [loadElfFile, onFiles_seq hopen, if_neg (Int.not_lt.mpr hfd), seq_some hheader]
  dsimp only
  rw [if_neg (by decide), ← hhdr, if_neg hmagic, hhalf 42 (by omega), hhalf 44 (by omega),
    hword 28 (by omega), seq_some hrun, if_pos rfl, onFiles_seq hclose, hword 24 (by omega)]
  rfl

/-- `load_elf_file` builds the image of a file that fits. -/
theorem loadElfFile_builds {name : List UInt8} {f₀ : φ} (junk : Nat → UInt8) (helf : ElfOk data)
    (hfile : FileOpen L t fd data cluster clusters At)
    (hopen : L.sysOpen s.files t name = some (fd, f₀)) (hfd : 0 ≤ fd) (hat : At 0 f₀)
    (hroom : RoomFor s.phys dir data) (hfits : LoadFits data cluster clusters) :
    ∃ s', loadElfFile L t name dir junk s = some (elfEntry data, s') ∧
      ImageBuilt t dir data s s' := by
  obtain ⟨f₁, hat₁, haround⟩ := loadElfFile_around dir junk helf hfile hopen hfd hat
  -- the segments
  have hsegs : ∀ ph ∈ elfLoads data, SegOk data ph ∧ SegFits ph := fun ph hph =>
    ⟨helf.segs ph hph, hfits.segs ph hph⟩
  have huser : ∀ ph ∈ elfLoads data, ∀ p ∈ segPages ph, UserPage p := fun ph hph p hp =>
    segPages_user (loadable_of_mem hph).2 (helf.segs ph hph) hp
  have hframes := hroom.frames
  rw [← mapCost_eq] at hframes
  obtain ⟨s₁, hrun, hclose, hloaded, hheap⟩ := loadPhdrs_loaded (s := { s with files := f₁ })
    (fun i => junk (52 + i)) hfile (hfile.close f₁ 52 hat₁) (fun _ => hat₁) hroom.toSpaceOk
    helf.size rfl helf.headers hfits.seeks hsegs
    (fun ph hph p hp => hroom.unmapped p (huser ph hph p hp)) helf.apart hframes
  obtain ⟨f₂, hload⟩ := haround s₁ hrun hclose
  refine ⟨{ s₁ with files := f₂ }, hload, fun ph hph i hi => ?_, hloaded.outside, fun ph hph => ?_⟩
  · have hfull := (hfits.segs ph hph).full
    have hat := hloaded.bytes ph hph i (by rw [segBytes_length (helf.segs ph hph)]; omega)
    rw [segBytes_getElem (helf.segs ph hph) (by omega)] at hat
    rw [if_pos (by omega)]
    exact hat
  · have hlast := hfits.heap ph hph
    rw [heapAfter_of_mem 0 (s.task t).heapStart hph] at hlast
    exact hlast.trans_eq hheap.symm

end Loader

end Wjos.Os
