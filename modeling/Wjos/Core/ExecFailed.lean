/-
Wjos.Core.ExecFailed — what a failed `sys_execve` leaves behind.

The call stores the name and, segment by segment, the bounds of the heap before
it knows whether the file can be loaded. A descriptor 0 that it has opened it
neither closes nor removes, a frame is lost where there is none for its table,
and a piece of a segment that lies across two pages goes into a frame that need
not be the caller's to write. `FailsClean` leaves these out; where it holds, the
caller is as it was.

The condition follows the load without the memory. `ReadsClean`, `SegClean`,
`HeadersClean` and `LoadClean` go along with the answers of the file layer and
keep account of the pages that have got a frame and of the bounds of the heap:
each says that no frame is lost and no store leaves the pages, and that `K`
holds of the account in the end. `Loading` ties the account to the state of the
kernel, so a call whose account is kept ends with `K` if and only if the
condition has said so (`loadElfFile_account`).
-/
import Wjos.Core.ExecFiles
import Wjos.Core.LoadElf
import Wjos.Core.NewSpace

namespace Wjos.Os

open Lib

variable {φ ψ β : Type}

/-! ## The load without the memory -/

/-- `P` holds of the answer of a call, if there is one. -/
def Answers (x : Option (β × φ)) (P : β → φ → Prop) : Prop := ∀ b f, x = some (b, f) → P b f

theorem Answers.iff {x : Option (β × φ)} {P : β → φ → Prop} {b : β} {f : φ}
    (h : x = some (b, f)) : Answers x P ↔ P b f := by
  constructor
  · exact fun hall => hall b f h
  · intro hp b' f' h'
    rw [h] at h'
    cases h'
    exact hp

/-- The loop of `load_phdr` with the pages `ps`: what a read stores stays in its
page, and no address is found where there is no page. -/
def ReadsClean (L : FileLayer φ) (t : TaskId) (fd : Int) (ps : List Nat) (K : Int → φ → Prop) :
    (fuel vaddr size : Nat) → φ → Prop
  | 0, _, _, f => K 0 f
  | fuel + 1, vaddr, size, f =>
    if size = 0 then K 0 f
    else
      let currSize := if size > 4096 then 4096 else size
      memoryTaskBase ≤ vaddr ∧
        if vaddr / 4096 ∈ ps then
          Answers (L.sysRead f t fd currSize) fun r f =>
            vaddr % 4096 + r.2.length ≤ 4096 ∧
              if r.1 < currSize then K (-1) f
              else ReadsClean L t fd ps K fuel ((vaddr + currSize) % 4294967296)
                (size - currSize) f
        else (vaddr % 4096 = 0 ∨ ∀ p ∈ ps, vaddr / 4096 / 1024 ≠ p / 1024) ∧ K (-1) f

/-- `load_phdr` with the pages `ps`, and `free` frames for all pages. -/
def SegClean (L : FileLayer φ) (t : TaskId) (fd : Int) (free : Nat) (ps : List Nat)
    (K : List Nat → Int → φ → Prop) (phdr : Phdr) (f : φ) : Prop :=
  let ps' := backedPages free ps (loopPages phdr.pVaddr phdr.pMemsz)
  AllocClean free ps (loopPages phdr.pVaddr phdr.pMemsz) ∧
    Answers (L.sysLseek f t fd phdr.pOffset) fun pos f =>
      if pos < 0 then K ps' (-1) f
      else ReadsClean L t fd ps' (K ps') (phdr.pFilesz / 4096 + 1) phdr.pVaddr phdr.pFilesz f

/-- A buffer after a read. -/
def readBuf (buf : Nat → UInt8) (bytes : List UInt8) : Nat → UInt8 :=
  copyTo buf 0 bytes.length fun i => bytes.getD i 0

/-- The loop of `load_elf_file` over the program headers; `heap` are the bounds
of the heap. -/
def HeadersClean (L : FileLayer φ) (t : TaskId) (fd : Int) (phentsize free : Nat)
    (K : List Nat → Nat × Nat → Bool → φ → Prop) :
    (n phoff : Nat) → (buf : Nat → UInt8) → List Nat → Nat × Nat → φ → Prop
  | 0, _, _, ps, heap, f => K ps heap true f
  | n + 1, phoff, buf, ps, heap, f =>
    let next := (phoff + phentsize) % 4294967296
    Answers (L.sysLseek f t fd phoff) fun pos f =>
      if pos < 0 then K ps heap false f
      else Answers (L.sysRead f t fd 32) fun r f =>
        if u32 r.1 < 32 then K ps heap false f
        else
          let buf := readBuf buf r.2
          let phdr := Phdr.ofBytes buf
          if phdr.pType ≠ 1 ∨ phdr.pVaddr < memoryTaskBase then
            HeadersClean L t fd phentsize free K n next buf ps heap f
          else
            let finish := (phdr.pVaddr + phdr.pMemsz) % 4294967296
            SegClean L t fd free ps (fun ps err f =>
              if err < 0 then K ps heap false f
              else HeadersClean L t fd phentsize free K n next buf ps (finish, finish) f) phdr f

/-- `load_elf_file`; `K` is to hold of the pages, the bounds of the heap and the
entry point. -/
def LoadClean (L : FileLayer φ) (t : TaskId) (name : List UInt8) (junk : Nat → UInt8) (free : Nat)
    (K : List Nat → Nat × Nat → Nat → Prop) (heap : Nat × Nat) (f : φ) : Prop :=
  Answers (L.sysOpen f t name) fun file f =>
    if file < 0 then K [] heap 0
    else Answers (L.sysRead f t file 52) fun r f =>
      let hdr := readBuf junk r.2
      if u32 r.1 < 52 then K [] heap 0
      else if hdr 0 ≠ 0x7F ∨ hdr 1 ≠ 69 ∨ hdr 2 ≠ 76 ∨ hdr 3 ≠ 70 then K [] heap 0
      else HeadersClean L t file (le16 hdr 42) free
        (fun ps heap ok _ => K ps heap (if ok then le32 hdr 24 else 0))
        (le16 hdr 44) (le32 hdr 28) (fun i => junk (52 + i)) [] heap f

/-! ## The account of a load -/

/-- The state of a load that has got as far as the pages `ps` and the bounds
`heap`, in the task whose structure was `τ`. -/
structure Loading (m₀ : PhysMem) (d : Nat) (t : TaskId) (τ : TaskT) (ps : List Nat)
    (heap : Nat × Nat) (s : OsState φ) : Prop where
  space : NewSpace m₀ d ps s.phys
  task : s.task t = { τ with heapStart := heap.1, heapEnd := heap.2 }

section Load

variable {L : FileLayer φ} {t : TaskId} {fd : Int} {m₀ : PhysMem} {d free : Nat} {τ : TaskT}
  {ps : List Nat} {heap : Nat × Nat} {s : OsState φ}

theorem onFiles_bind {α : Type} (x : φ → Option (α × φ)) (g : α → Prog (OsState φ) β) :
    (onFiles x >>= g) s = (x s.files).bind fun r => g r.1 { s with files := r.2 } := by
  cases h : x s.files with
  | none =>
    refine seq_none ?_
    rw [onFiles, zoom, h]
    rfl
  | some r => exact onFiles_seq h

/-- `sys_read` to an address in a page of the space. -/
theorem readTo_account {v a n : Nat} {q : Int × OsState φ} (h : Loading m₀ d t τ ps heap s)
    (hlo : memoryTaskBase ≤ v) (hv : v < 4294967296)
    (ht : translate s.phys (frameAddr d) v = some a) (hne : a ≠ 0)
    (hfit : Answers (L.sysRead s.files t fd n) fun r _ => v % 4096 + r.2.length ≤ 4096)
    (hrun : readTo L t fd a n s = some q) :
    ∃ bytes, L.sysRead s.files t fd n = some ((q.1, bytes), q.2.files) ∧
      Loading m₀ d t τ ps heap q.2 := by
  rw [readTo, if_neg hne, onFiles_bind] at hrun
  obtain ⟨⟨⟨cnt, bytes⟩, f'⟩, hread, hrun⟩ := Option.bind_eq_some_iff.mp hrun
  have hbytes : v % 4096 + bytes.length ≤ 4096 := hfit _ _ hread
  obtain ⟨m', hstore, hwrote⟩ := h.space.space.wrote bytes hlo hv ht hbytes
  dsimp only at hrun
  rw [onPhys_seq (s := { s with files := f' }) hstore rfl] at hrun
  cases hrun
  exact ⟨bytes, hread, h.space.wrote hwrote hlo (by omega), h.task⟩

/-- The loop of `load_phdr`. -/
theorem loadPhdrLoop_account {K₀ : Int → φ → Prop} {fuel v size : Nat} {r : Int × OsState φ}
    (h : Loading m₀ d t τ ps heap s) (hv : v < 4294967296)
    (hclean : ReadsClean L t fd ps K₀ fuel v size s.files)
    (hrun : loadPhdrLoop L t fd (frameAddr d) fuel v size s = some r) :
    Loading m₀ d t τ ps heap r.2 ∧
      ∀ K, ReadsClean L t fd ps K fuel v size s.files ↔ K r.1 r.2.files := by
  induction fuel generalizing s v size with
  | zero =>
    cases hrun
    exact ⟨h, fun K => Iff.rfl⟩
  | succ fuel ih =>
    rw [loadPhdrLoop] at hrun
    simp only [ReadsClean] at hclean ⊢
    by_cases hzero : size = 0
    · simp only [if_pos hzero] at hrun ⊢
      cases hrun
      exact ⟨h, fun K => Iff.rfl⟩
    · simp only [if_neg hzero] at hrun hclean ⊢
      have hpos : 0 < if size > 4096 then 4096 else size := by
        split <;> omega
      generalize (if size > 4096 then 4096 else size) = n at hrun hclean hpos ⊢
      obtain ⟨hlo, hclean⟩ := hclean
      simp only [hlo, true_and]
      by_cases hin : v / 4096 ∈ ps
      · simp only [if_pos hin] at hclean ⊢
        obtain ⟨a, ht, hne, -, hget⟩ := h.space.space.getPaddr hlo hv
          ((h.space.pages _ (h.space.user _ hin)).mpr hin)
        rw [onPhys_seq hget rfl] at hrun
        obtain ⟨⟨cnt, s₁⟩, hread, hrun⟩ := Option.bind_eq_some_iff.mp hrun
        obtain ⟨bytes, hfile, h₁⟩ := readTo_account h hlo hv ht hne
          (fun b f hb => (hclean b f hb).1) hread
        dsimp only at hrun hfile h₁
        simp only [Answers.iff hfile] at hclean ⊢
        obtain ⟨hfit, hclean⟩ := hclean
        simp only [hfit, true_and]
        split at hclean
        next hshort =>
          simp only [if_pos hshort] at hrun ⊢
          cases hrun
          exact ⟨h₁, fun K => Iff.rfl⟩
        next hfull =>
          simp only [if_neg hfull] at hrun ⊢
          exact ih h₁ (Nat.mod_lt _ (by decide)) hclean hrun
      · simp only [if_neg hin] at hclean ⊢
        obtain ⟨hoff, -⟩ := hclean
        simp only [hoff, true_and]
        rw [onPhys_seq (h.space.getPaddr_absent hlo hv hin hoff) rfl] at hrun
        have hread : readTo L t fd 0 n s = some (0, s) := rfl
        rw [seq_some hread, if_pos (by omega)] at hrun
        cases hrun
        exact ⟨h, fun K => Iff.rfl⟩

/-- `load_phdr`. -/
theorem loadPhdr_account {K₀ : List Nat → Int → φ → Prop} {ph : Phdr} {r : Int × OsState φ}
    (h : Loading m₀ d t τ ps heap s) (hfree : m₀.freeCount = free + 1)
    (hv : ph.pVaddr < 4294967296) (hclean : SegClean L t fd free ps K₀ ph s.files)
    (hrun : loadPhdr L t fd ph (frameAddr d) s = some r) :
    ∃ ps', Loading m₀ d t τ ps' heap r.2 ∧
      ∀ K, SegClean L t fd free ps K ph s.files ↔ K ps' r.1 r.2.files := by
  simp only [SegClean] at hclean ⊢
  obtain ⟨halloc, hclean⟩ := hclean
  obtain ⟨m₁, -, hrun₁, hspace, -⟩ := h.space.alloc hfree rfl (show ptePuw < 4096 by decide) halloc
  rw [loadPhdr, onPhys_seq hrun₁ rfl, if_neg (by decide), onFiles_bind] at hrun
  obtain ⟨⟨pos, f⟩, hseek, hrun⟩ := Option.bind_eq_some_iff.mp hrun
  have h₁ : Loading m₀ d t τ _ heap { s with phys := m₁, files := f } := ⟨hspace, h.task⟩
  refine ⟨backedPages free ps (loopPages ph.pVaddr ph.pMemsz), ?_⟩
  simp only [Answers.iff hseek] at hclean ⊢
  simp only [halloc, true_and]
  dsimp only at hrun
  split at hclean
  next hfail =>
    simp only [if_pos hfail] at hrun ⊢
    cases hrun
    exact ⟨h₁, fun K => Iff.rfl⟩
  next hfound =>
    simp only [if_neg hfound] at hrun ⊢
    obtain ⟨h₂, hK⟩ := loadPhdrLoop_account h₁ hv hclean hrun
    exact ⟨h₂, fun K => hK _⟩

theorem ofBytes_pVaddr_lt (buf : Nat → UInt8) : (Phdr.ofBytes buf).pVaddr < 4294967296 :=
  le32_lt _ _

/-- A header that is read. -/
theorem readHeader_some {buf : Nat → UInt8} {len : Nat} {q : (Int × (Nat → UInt8)) × OsState φ}
    (hrun : readHeader L t fd buf len s = some q) :
    ∃ bytes f, L.sysRead s.files t fd len = some ((q.1.1, bytes), f) ∧
      q.1.2 = readBuf buf bytes ∧ q.2 = { s with files := f } := by
  rw [readHeader, onFiles_bind] at hrun
  obtain ⟨⟨⟨cnt, bytes⟩, f⟩, hread, hrun⟩ := Option.bind_eq_some_iff.mp hrun
  cases hrun
  exact ⟨bytes, f, hread, rfl, rfl⟩

/-- The loop over the program headers. -/
theorem loadPhdrs_account {K₀ : List Nat → Nat × Nat → Bool → φ → Prop} {phentsize n phoff : Nat}
    {buf : Nat → UInt8} {r : Bool × OsState φ} (h : Loading m₀ d t τ ps heap s)
    (hfree : m₀.freeCount = free + 1)
    (hclean : HeadersClean L t fd phentsize free K₀ n phoff buf ps heap s.files)
    (hrun : loadPhdrs L t fd (frameAddr d) phentsize n phoff buf s = some r) :
    ∃ ps' heap', Loading m₀ d t τ ps' heap' r.2 ∧
      ∀ K, HeadersClean L t fd phentsize free K n phoff buf ps heap s.files ↔
        K ps' heap' r.1 r.2.files := by
  induction n generalizing s phoff buf ps heap with
  | zero =>
    cases hrun
    exact ⟨ps, heap, h, fun K => Iff.rfl⟩
  | succ n ih =>
    simp only [HeadersClean] at hclean ⊢
    rw [loadPhdrs, onFiles_bind] at hrun
    obtain ⟨⟨pos, f₁⟩, hseek, hrun⟩ := Option.bind_eq_some_iff.mp hrun
    simp only [Answers.iff hseek] at hclean ⊢
    dsimp only at hrun
    split at hclean
    next hfail =>
      simp only [if_pos hfail] at hrun ⊢
      cases hrun
      exact ⟨ps, heap, ⟨h.space, h.task⟩, fun K => Iff.rfl⟩
    next hfound =>
      simp only [if_neg hfound] at hrun ⊢
      obtain ⟨⟨⟨cnt, buf'⟩, s₂⟩, hheader, hrun⟩ := Option.bind_eq_some_iff.mp hrun
      obtain ⟨bytes, f₂, hread, rfl, rfl⟩ := readHeader_some hheader
      simp only [Answers.iff hread] at hclean ⊢
      have h₂ : Loading m₀ d t τ ps heap { s with files := f₂ } := ⟨h.space, h.task⟩
      dsimp only at hrun
      split at hclean
      next hshort =>
        simp only [if_pos hshort] at hrun ⊢
        cases hrun
        exact ⟨ps, heap, h₂, fun K => Iff.rfl⟩
      next hfull =>
        simp only [if_neg hfull] at hrun ⊢
        split at hclean
        next hskip =>
          simp only [if_pos hskip] at hrun ⊢
          exact ih h₂ hclean hrun
        next hload =>
          simp only [if_neg hload] at hrun ⊢
          obtain ⟨⟨err, s₃⟩, hphdr, hrun⟩ := Option.bind_eq_some_iff.mp hrun
          obtain ⟨ps', h₃, hseg⟩ := loadPhdr_account h₂ hfree (ofBytes_pVaddr_lt _) hclean hphdr
          rw [hseg] at hclean
          simp only [hseg]
          dsimp only at hrun
          split at hclean
          next hfail =>
            simp only [if_pos hfail] at hrun ⊢
            cases hrun
            exact ⟨ps', heap, h₃, fun K => Iff.rfl⟩
          next hdone =>
            simp only [if_neg hdone] at hrun ⊢
            rw [editTask, store_seq] at hrun
            have htask : s₃.task t = _ := h₃.task
            refine ih (s := OsState.setTask s₃ t _) ⟨h₃.space, ?_⟩ hclean hrun
            simp [OsState.setTask, htask]

/-- `load_failed` closes the file, unless it is descriptor 0. -/
theorem loadFailed_some {file : Int} {r : Nat × OsState φ}
    (hrun : loadFailed L t file s = some r) :
    r.1 = 0 ∧ ∃ f, r.2 = { s with files := f } ∧
      (file = 0 ∧ f = s.files ∨ ∃ c, L.sysClose s.files t file = some (c, f)) := by
  rw [loadFailed, onlyIf] at hrun
  by_cases hfile : file ≠ 0
  · rw [if_pos hfile] at hrun
    obtain ⟨⟨⟨⟩, s₁⟩, hclose, hrun⟩ := Option.bind_eq_some_iff.mp hrun
    cases hrun
    rw [onFiles_bind] at hclose
    obtain ⟨⟨c, f⟩, hcall, hrun⟩ := Option.bind_eq_some_iff.mp hclose
    cases hrun
    exact ⟨rfl, f, rfl, .inr ⟨c, hcall⟩⟩
  · rw [if_neg hfile] at hrun
    cases hrun
    exact ⟨rfl, s.files, rfl, .inl ⟨not_not.mp hfile, rfl⟩⟩

theorem loadFailed_account {file : Int} {r : Nat × OsState φ} (h : Loading m₀ d t τ ps heap s)
    (hrun : loadFailed L t file s = some r) : r.1 = 0 ∧ Loading m₀ d t τ ps heap r.2 := by
  obtain ⟨hzero, f, hs, -⟩ := loadFailed_some hrun
  rw [hs]
  exact ⟨hzero, h.space, h.task⟩

/-- `load_elf_file`. -/
theorem loadElfFile_account {K₀ : List Nat → Nat × Nat → Nat → Prop} {name : List UInt8}
    {junk : Nat → UInt8} {r : Nat × OsState φ} (h : Loading m₀ d t τ [] heap s)
    (hfree : m₀.freeCount = free + 1) (hclean : LoadClean L t name junk free K₀ heap s.files)
    (hrun : loadElfFile L t name (frameAddr d) junk s = some r) :
    ∃ ps' heap', Loading m₀ d t τ ps' heap' r.2 ∧
      ∀ K, LoadClean L t name junk free K heap s.files ↔ K ps' heap' r.1 := by
  simp only [LoadClean] at hclean ⊢
  rw [loadElfFile, onFiles_bind] at hrun
  obtain ⟨⟨file, f₁⟩, hopen, hrun⟩ := Option.bind_eq_some_iff.mp hrun
  simp only [Answers.iff hopen] at hclean ⊢
  have h₁ : Loading m₀ d t τ [] heap { s with files := f₁ } := ⟨h.space, h.task⟩
  dsimp only at hrun
  split at hclean
  next hneg =>
    simp only [if_pos hneg] at hrun ⊢
    obtain ⟨hzero, h'⟩ := loadFailed_account h₁ hrun
    exact ⟨[], heap, h', fun K => by rw [hzero]⟩
  next hopened =>
    simp only [if_neg hopened] at hrun ⊢
    obtain ⟨⟨⟨cnt, hdr⟩, s₂⟩, hheader, hrun⟩ := Option.bind_eq_some_iff.mp hrun
    obtain ⟨bytes, f₂, hread, rfl, rfl⟩ := readHeader_some hheader
    simp only [Answers.iff hread] at hclean ⊢
    have h₂ : Loading m₀ d t τ [] heap { s with files := f₂ } := ⟨h.space, h.task⟩
    dsimp only at hrun
    split at hclean
    next hshort =>
      simp only [if_pos hshort] at hrun ⊢
      obtain ⟨hzero, h'⟩ := loadFailed_account h₂ hrun
      exact ⟨[], heap, h', fun K => by rw [hzero]⟩
    next hlong =>
      simp only [if_neg hlong] at hrun ⊢
      split at hclean
      next hmagic =>
        simp only [if_pos hmagic] at hrun ⊢
        obtain ⟨hzero, h'⟩ := loadFailed_account h₂ hrun
        exact ⟨[], heap, h', fun K => by rw [hzero]⟩
      next helf =>
        simp only [if_neg helf] at hrun ⊢
        obtain ⟨⟨ok, s₃⟩, hphdrs, hrun⟩ := Option.bind_eq_some_iff.mp hrun
        obtain ⟨ps', heap', h₃, hheaders⟩ := loadPhdrs_account h₂ hfree hclean hphdrs
        simp only [hheaders]
        refine ⟨ps', heap', ?_⟩
        dsimp only at hrun
        cases ok with
        | true =>
          rw [if_pos rfl, onFiles_bind] at hrun
          obtain ⟨⟨c, f₄⟩, -, hrun⟩ := Option.bind_eq_some_iff.mp hrun
          cases hrun
          exact ⟨⟨h₃.space, h₃.task⟩, fun K => Iff.rfl⟩
        | false =>
          rw [if_neg (by decide)] at hrun
          obtain ⟨hzero, h'⟩ := loadFailed_account h₃ hrun
          exact ⟨h', fun K => by rw [hzero]; rfl⟩

end Load

/-! ## The descriptors -/

/-- The descriptor tables. -/
def tables (s : OsState (Files × ψ)) : Files := s.files.1

section Descriptors

variable {op : FsOp ψ} {t : TaskId} {fd : Int} {s : OsState (Files × ψ)}

theorem tables_onPhys (x : Prog PhysMem β) : Leaves (tables (ψ := ψ)) (onPhys x) :=
  .part fun _ _ => rfl

theorem tables_onFiles {x : Files × ψ → Option (β × Files × ψ)}
    (h : ∀ f b f', x f = some (b, f') → f'.1 = f.1) : Leaves tables (onFiles x) := by
  intro s r hr
  obtain ⟨q, hq, rfl⟩ := Option.map_eq_some_iff.mp hr
  exact h s.files q.1 q.2 hq

theorem tables_sysRead (t : TaskId) (fd : Int) (len : Nat) :
    Leaves tables (onFiles fun f => (openFiles op).sysRead f t fd len) :=
  tables_onFiles fun _ _ _ h => readFile_files h

theorem tables_sysLseek (t : TaskId) (fd : Int) (ptr : Nat) :
    Leaves tables (onFiles fun f => (openFiles op).sysLseek f t fd ptr) :=
  tables_onFiles fun _ _ _ h => seekFile_files h

theorem tables_readHeader (buf : Nat → UInt8) (len : Nat) :
    Leaves tables (readHeader (openFiles op) t fd buf len) :=
  (tables_sysRead t fd len).seq fun _ => .ret

theorem tables_loadPhdrLoop (dir fuel v size : Nat) :
    Leaves tables (loadPhdrLoop (openFiles op) t fd dir fuel v size) := by
  induction fuel generalizing v size with
  | zero => exact .ret
  | succ fuel ih =>
    refine .branch .ret ((tables_onPhys _).seq fun a => .seq ?_ fun cnt => .branch .ret (ih _ _))
    exact .branch .ret ((tables_sysRead t fd _).seq fun _ => (tables_onPhys _).seq fun _ => .ret)

theorem tables_loadPhdr (ph : Phdr) (dir : Nat) :
    Leaves tables (loadPhdr (openFiles op) t fd ph dir) :=
  (tables_onPhys _).seq fun _ => .branch .ret ((tables_sysLseek t fd _).seq fun _ =>
    .branch .ret (tables_loadPhdrLoop _ _ _ _))

theorem tables_loadPhdrs (dir phentsize n phoff : Nat) (buf : Nat → UInt8) :
    Leaves tables (loadPhdrs (openFiles op) t fd dir phentsize n phoff buf) := by
  induction n generalizing phoff buf with
  | zero => exact .ret
  | succ n ih =>
    refine (tables_sysLseek t fd _).seq fun pos => .branch .ret ?_
    refine (tables_readHeader buf 32).seq fun q => .branch .ret (.branch (ih _ _) ?_)
    refine (tables_loadPhdr _ dir).seq fun err => .branch .ret ?_
    exact .seq (.store fun _ => rfl) fun _ => ih _ _

/-- The end of a load whose file has been opened: a close, or none of
descriptor 0. -/
theorem loadFailed_ends {Q : Files → Prop} {file : Int} {r : Nat × OsState (Files × ψ)}
    (hclose : ∀ f c f', f.1 = tables s → closeFile op f t file = some (c, f') → Q f'.1)
    (hkeep : file = 0 → Q (tables s)) (hrun : loadFailed (openFiles op) t file s = some r) :
    Q (tables r.2) := by
  obtain ⟨-, f, hs, hend⟩ := loadFailed_some hrun
  rw [hs]
  rcases hend with ⟨hzero, rfl⟩ | ⟨c, hcall⟩
  · exact hkeep hzero
  · exact hclose s.files c f rfl hcall

theorem loadElfFile_ends {Q : Files → Prop} {file : Int} {f₁ : Files × ψ} {name : List UInt8}
    {dir : Nat} {junk : Nat → UInt8} {r : Nat × OsState (Files × ψ)}
    (hopen : openFile op s.files t name = some (file, f₁))
    (hclose : ∀ f c f', f.1 = f₁.1 → closeFile op f t file = some (c, f') → Q f'.1)
    (hkeep : file = 0 → Q f₁.1) (hrun : loadElfFile (openFiles op) t name dir junk s = some r) :
    Q (tables r.2) := by
  have hends : ∀ s₁ r, tables s₁ = f₁.1 → loadFailed (openFiles op) t file s₁ = some r →
      Q (tables r.2) := fun s₁ r hs hend =>
    loadFailed_ends (fun f c f' hf => hclose f c f' (hf.trans hs)) (fun hzero => hs ▸ hkeep hzero)
      hend
  rw [loadElfFile, onFiles_seq hopen] at hrun
  split at hrun
  next => exact hends _ _ rfl hrun
  next =>
    obtain ⟨⟨⟨cnt, hdr⟩, s₂⟩, hheader, hrun⟩ := Option.bind_eq_some_iff.mp hrun
    have hs₂ : tables s₂ = f₁.1 := tables_readHeader _ _ _ _ hheader
    dsimp only at hrun
    split at hrun
    next => exact hends _ _ hs₂ hrun
    next =>
      split at hrun
      next => exact hends _ _ hs₂ hrun
      next =>
        obtain ⟨⟨ok, s₃⟩, hphdrs, hrun⟩ := Option.bind_eq_some_iff.mp hrun
        have hs₃ : tables s₃ = f₁.1 := (tables_loadPhdrs _ _ _ _ _ _ _ hphdrs).trans hs₂
        dsimp only at hrun
        split at hrun
        next =>
          rw [onFiles_bind] at hrun
          obtain ⟨⟨c, f⟩, hcall, hrun⟩ := Option.bind_eq_some_iff.mp hrun
          cases hrun
          exact hclose _ c f hs₃ hcall
        next => exact hends _ _ hs₃ hrun

/-- The descriptor tables after `load_elf_file` are those of before if and only
if the call was not given descriptor 0. -/
theorem loadElfFile_tables {name : List UInt8} {dir : Nat} {junk : Nat → UInt8}
    {r : Nat × OsState (Files × ψ)}
    (hrun : loadElfFile (openFiles op) t name dir junk s = some r) :
    OpenKeeps (tables s) t ∧ (tables r.2).fileTable = (tables s).fileTable ∨
      ¬OpenKeeps (tables s) t ∧ (tables s).fileTable (t, 0) ≠ (tables r.2).fileTable (t, 0) := by
  have hrun' := hrun
  rw [loadElfFile, onFiles_bind] at hrun'
  obtain ⟨⟨file, f₁⟩, hopen, -⟩ := Option.bind_eq_some_iff.mp hrun'
  rcases openFile_cases hopen with ⟨hkeep, rfl, hsame⟩ |
    ⟨hkeep, n, hn, slot, rfl, hpos, hnone, hone, hopened⟩ | ⟨hzero, hle, hset⟩
  · refine .inl ⟨hkeep, loadElfFile_ends (Q := fun f => f.fileTable = (tables s).fileTable) hopen
      (fun f c f' hf hcall => ?_) (fun hc => absurd hc (by decide)) hrun⟩
    rw [closeFile_keeps (by decide) hcall, hf]
    exact hsame
  · refine .inl ⟨hkeep, loadElfFile_ends (Q := fun f => f.fileTable = (tables s).fileTable) hopen
      (fun f c f' hf hcall => ?_) (fun hc => absurd hc (by omega)) hrun⟩
    have hat : f.1.fileTable (t, n) = some slot := by
      rw [hf, hopened, Function.update_self]
    rw [closeFile_undoes hn hpos hat (by rw [hf, hone]) hcall, hf, hopened, Function.update_idem]
    exact Function.update_eq_self_iff.mpr hnone.symm
  · have hnone : (tables s).fileTable (t, 0) = none := not_not.mp (not_or.mp hzero).1
    refine .inr ⟨hzero, ?_⟩
    rw [hnone]
    refine Ne.symm (loadElfFile_ends (Q := fun f => f.fileTable (t, 0) ≠ none) hopen
      (fun f c f' hf hcall => ?_) (fun _ => hset) hrun)
    rw [closeFile_keeps hle hcall, hf]
    exact hset

end Descriptors

/-! ## The whole call -/

/-- The pages of the stack. -/
@[irreducible] def stackPages : List Nat :=
  loopPages (memTaskStackTop - memTaskStackSize) memTaskStackSize

theorem stackPages_eq : stackPages =
    loopPages (memTaskStackTop - memTaskStackSize) memTaskStackSize := by
  rw [stackPages]

/-- There are no arguments, and no frame is lost for the stack. -/
def StackClean (free : Nat) (argv : List (List UInt8)) (ps : List Nat) : Prop :=
  AllocClean free ps stackPages ∧ argv = []

/-- Besides, the frames do not reach as far as the page of the arguments. -/
def StackStarved (free : Nat) (argv : List (List UInt8)) (ps : List Nat) : Prop :=
  StackClean free argv ps ∧ stackTop / 4096 ∉ backedPages free ps stackPages

/-- The caller as it was: its name, the bounds of its heap, its descriptors, its
page directory with what it maps, and the frames that are handed out. -/
structure CallerKept (t : TaskId) (s s' : OsState (Files × ψ)) : Prop where
  name : (s'.task t).name = (s.task t).name
  heapStart : (s'.task t).heapStart = (s.task t).heapStart
  heapEnd : (s'.task t).heapEnd = (s.task t).heapEnd
  fileTable : ∀ fd, s'.files.1.fileTable (t, fd) = s.files.1.fileTable (t, fd)
  cr3 : (s'.task t).tss.cr3 = (s.task t).tss.cr3
  pages : ∀ p < 1048576,
    pageEntry s'.phys (s.task t).tss.cr3 p = pageEntry s.phys (s.task t).tss.cr3 p
  bitmap : s'.phys.paddrAlloc.bitmap = s.phys.paddrAlloc.bitmap

/-- The load from the state of the caller, with `K` of its account in the end. -/
def CallerLoads (op : FsOp ψ) (t : TaskId) (name : List UInt8) (junk : Nat → UInt8)
    (s : OsState (Files × ψ)) (K : List Nat → Nat × Nat → Nat → Prop) : Prop :=
  LoadClean (openFiles op) t name junk (s.phys.freeCount - 1) K
    ((s.task t).heapStart, (s.task t).heapEnd) s.files

/-- No frame is lost and no store goes anywhere but to the new pages. -/
def LoadSafe (op : FsOp ψ) (t : TaskId) (name : List UInt8) (argv : List (List UInt8))
    (junk : Nat → UInt8) (s : OsState (Files × ψ)) : Prop :=
  s.phys.freeCount = 0 ∨ CallerLoads op t name junk s fun ps _ entry =>
    entry = 0 ∨ StackClean (s.phys.freeCount - 1) argv ps

/-- The new name is the old one; and there is no frame for a directory, or the
file does not get descriptor 0 and the load is safe and fails, for want of a file
that can be loaded, of an entry point or of a stack, before the bounds of the
heap are other than they were. -/
structure FailsClean (op : FsOp ψ) (t : TaskId) (name : List UInt8) (argv : List (List UInt8))
    (junk : Nat → UInt8) (s : OsState (Files × ψ)) : Prop where
  sameName :
    kernelStrncpy (s.task t).name (cString (getFileName name)) taskNameSize = (s.task t).name
  load : s.phys.freeCount = 0 ∨ OpenKeeps s.files.1 t ∧
    CallerLoads op t name junk s fun ps heap entry =>
      heap = ((s.task t).heapStart, (s.task t).heapEnd) ∧
        (entry = 0 ∨ StackStarved (s.phys.freeCount - 1) argv ps)

/-- `sys_execve` from the line on that tests `entry`. -/
def execEntry (t : TaskId) (tss : Tss) (newPageDir : Nat) (argv : List (List UInt8))
    (junk : Nat → UInt8) (entry : Nat) : Prog (OsState φ) Int := do
  if entry = 0 then execFailed t tss.cr3 newPageDir
  else do
    let err ← onPhys (memoryAllocForPageDir newPageDir (memTaskStackTop - memTaskStackSize)
      memTaskStackSize ptePuw)
    if err < 0 then execFailed t tss.cr3 newPageDir
    else do
      let err ← onPhys (copyArgs stackTop newPageDir argv (le32 junk 84))
      if err < 0 then execFailed t tss.cr3 newPageDir
      else do
        onPhys (execFrame tss.esp0 entry stackTop)
        editTask t fun p => { p with tss := { p.tss with cr3 := newPageDir } }
        onPhys (memoryDestroyUvm tss.cr3)
        pure 0

section Exec

variable {m₀ m : PhysMem} {d free : Nat} {t : TaskId} {τ : TaskT} {ps : List Nat}
  {heap : Nat × Nat} {argv : List (List UInt8)} {junk : Nat → UInt8}

/-- `copy_args` without arguments. -/
theorem copyArgs_nil {dir : Nat} (h : DirOk m dir) (retAddr : Nat) :
    copyArgs stackTop dir [] retAddr m = memoryCopyUvmData stackTop dir
      (wordBytes retAddr ++ wordBytes 0 ++ wordBytes (stackTop + 12)) m := by
  have hget := h.getPaddr (show stackTop + 12 < 4294967296 by decide)
  rw [copyArgs, seq_some hget]
  rfl

theorem copyArgs_starved (h : NewSpace m₀ d ps m) (hno : stackTop / 4096 ∉ ps) (retAddr : Nat) :
    copyArgs stackTop (frameAddr d) [] retAddr m = some (-1, m) := by
  have hget := h.getPaddr_absent (show memoryTaskBase ≤ stackTop by decide) (by decide) hno
    (.inl (by decide))
  rw [copyArgs_nil h.space.toDirOk, memoryCopyUvmData, wordBytes]
  show copyUvmData (frameAddr d) (11 + 1) _ _ m = _
  rw [copyUvmData, if_neg (by simp), seq_some hget]
  rfl

theorem copyArgs_stored (h : NewSpace m₀ d ps m) (hin : stackTop / 4096 ∈ ps) (retAddr : Nat) :
    ∃ m', copyArgs stackTop (frameAddr d) [] retAddr m = some (0, m') := by
  rw [copyArgs_nil h.space.toDirOk]
  have hlen : (wordBytes retAddr ++ wordBytes 0 ++ wordBytes (stackTop + 12)).length = 12 := rfl
  obtain ⟨m', hrun, -⟩ := memoryCopyUvmData_wrote h.space stackTop
    (wordBytes retAddr ++ wordBytes 0 ++ wordBytes (stackTop + 12))
    (by decide) (by rw [hlen]; decide) fun p hplo hphi => by
      have htop : stackTop = 3758080000 := rfl
      rw [hlen] at hphi
      obtain rfl : p = stackTop / 4096 := by omega
      exact (h.pages _ (h.user _ hin)).mpr hin
  exact ⟨m', hrun⟩

/-- What is left when the new address space has been given back. -/
structure GivenBack (m₀ : PhysMem) (t : TaskId) (τ : TaskT) (heap : Nat × Nat)
    (s s' : OsState φ) : Prop where
  task : s'.task t = { τ with heapStart := heap.1, heapEnd := heap.2 }
  files : s'.files = s.files
  bitmap : s'.phys.paddrAlloc.bitmap = m₀.paddrAlloc.bitmap
  pages : ∀ dir, DirOk m₀ dir → ∀ p < 1048576, pageEntry s'.phys dir p = pageEntry m₀ dir p

theorem execFailed_account {s s' : OsState φ} (h : Loading m₀ d t τ ps heap s)
    (hrun : execFailed t τ.tss.cr3 (frameAddr d) s = some (-1, s')) :
    GivenBack m₀ t τ heap s s' := by
  obtain ⟨m', hdestroy, hbitmap, hpages⟩ := h.space.destroy
  rw [execFailed, editTask, store_seq,
    onPhys_seq (s := OsState.setTask s t _) hdestroy rfl] at hrun
  cases hrun
  refine ⟨?_, rfl, hbitmap, hpages⟩
  show (OsState.setTask s t _).task t = _
  simp [OsState.setTask, h.task]

/-- The rest of a call that fails. -/
theorem execEntry_account {entry : Nat} {s s' : OsState φ} (h : Loading m₀ d t τ ps heap s)
    (hfree : m₀.freeCount = free + 1) (hsafe : entry = 0 ∨ StackClean free argv ps)
    (hrun : execEntry t τ.tss (frameAddr d) argv junk entry s = some (-1, s')) :
    (entry = 0 ∨ StackStarved free argv ps) ∧ GivenBack m₀ t τ heap s s' := by
  rw [execEntry] at hrun
  by_cases hentry : entry = 0
  · rw [if_pos hentry] at hrun
    exact ⟨.inl hentry, execFailed_account h hrun⟩
  · rw [if_neg hentry] at hrun
    have hstack := hsafe.resolve_left hentry
    obtain rfl := hstack.2
    obtain ⟨m₁, -, hrun₁, hspace, -⟩ := h.space.alloc hfree stackPages_eq.symm
      (show ptePuw < 4096 by decide) hstack.1
    rw [onPhys_seq hrun₁ rfl, if_neg (by decide)] at hrun
    by_cases hin : stackTop / 4096 ∈ backedPages free ps stackPages
    · -- the arguments have a page: the call does not fail any more
      obtain ⟨m₂, hargs⟩ := copyArgs_stored hspace hin (le32 junk 84)
      rw [onPhys_seq (s := { s with phys := m₁ }) hargs rfl, if_neg (by decide)] at hrun
      rw [onPhys_bind] at hrun
      obtain ⟨q, -, hrun⟩ := Option.bind_eq_some_iff.mp hrun
      rw [editTask, store_seq, onPhys_bind] at hrun
      obtain ⟨q', -, hrun⟩ := Option.bind_eq_some_iff.mp hrun
      cases hrun
    · have hargs := copyArgs_starved hspace hin (le32 junk 84)
      rw [onPhys_seq (s := { s with phys := m₁ }) hargs rfl, if_pos (by decide)] at hrun
      obtain ⟨htask, hfiles, hbitmap, hpages⟩ :=
        execFailed_account (s := { s with phys := m₁ }) ⟨hspace, h.task⟩ hrun
      exact ⟨.inr ⟨hstack, hin⟩, htask, hfiles, hbitmap, hpages⟩

/-- A call that finds a frame for its directory, and fails. -/
theorem sysExecve_account {op : FsOp ψ} {name : List UInt8}
    {K₀ : List Nat → Nat × Nat → Nat → Prop} {s s' : OsState (Files × ψ)}
    (hkernel : DirOk s.phys s.phys.kernelPageDir) (hfree : 0 < s.phys.freeCount)
    (hload : CallerLoads op t name junk s K₀)
    (hsafe : ∀ ps heap entry, K₀ ps heap entry →
      entry = 0 ∨ StackClean (s.phys.freeCount - 1) argv ps)
    (hrun : sysExecve (openFiles op) t name argv junk s = some (-1, s')) :
    ∃ ps heap entry s₁, (∀ K, CallerLoads op t name junk s K ↔ K ps heap entry) ∧
      (entry = 0 ∨ StackStarved (s.phys.freeCount - 1) argv ps) ∧
      GivenBack s.phys t { s.task t with
        name := kernelStrncpy (s.task t).name (cString (getFileName name)) taskNameSize }
        heap s₁ s' ∧
      (OpenKeeps s.files.1 t ∧ s'.files.1.fileTable = s.files.1.fileTable ∨
        ¬OpenKeeps s.files.1 t ∧ s.files.1.fileTable (t, 0) ≠ s'.files.1.fileTable (t, 0)) := by
  obtain ⟨d, m, hcreate, hspace⟩ := NewSpace.start hkernel hfree
  have hroom : s.phys.freeCount = s.phys.freeCount - 1 + 1 := by omega
  obtain ⟨τ, hτ⟩ : ∃ τ : TaskT, τ = { s.task t with
    name := kernelStrncpy (s.task t).name (cString (getFileName name)) taskNameSize } := ⟨_, rfl⟩
  obtain ⟨s₀, hs₀⟩ : ∃ s₀, s₀ = { s.setTask t τ with phys := m } := ⟨_, rfl⟩
  have htask : s₀.task t = τ := by
    rw [hs₀]
    exact Function.update_self ..
  have h₀ : Loading s.phys d t τ [] (τ.heapStart, τ.heapEnd) s₀ := ⟨hs₀ ▸ hspace, htask⟩
  have hload₀ : LoadClean (openFiles op) t name junk (s.phys.freeCount - 1) K₀
      (τ.heapStart, τ.heapEnd) s₀.files := by
    rw [hτ, hs₀]
    exact hload
  have hstart : ∃ entry s₁, loadElfFile (openFiles op) t name (frameAddr d) junk s₀ =
      some (entry, s₁) ∧
      execEntry t τ.tss (frameAddr d) argv junk entry s₁ = some (-1, s') := by
    rw [sysExecve, editTask, store_seq, look_seq,
      onPhys_seq (s := s.setTask t _) hcreate rfl, if_neg (frameAddr_pos d), ← hτ, ← hs₀] at hrun
    obtain ⟨⟨entry, s₁⟩, hload, hrun⟩ := Option.bind_eq_some_iff.mp hrun
    refine ⟨entry, s₁, hload, ?_⟩
    have htss : ((s.setTask t τ).task t).tss = τ.tss := by simp [OsState.setTask]
    rw [htss] at hrun
    exact hrun
  obtain ⟨entry, s₁, hload₁, hentry⟩ := hstart
  obtain ⟨ps, heap, h₁, hK⟩ := loadElfFile_account h₀ hroom hload₀ hload₁
  have hend := execEntry_account h₁ hroom (hsafe ps heap entry ((hK K₀).mp hload₀)) hentry
  refine ⟨ps, heap, entry, s₁, fun K => ?_, hend.1, hτ ▸ hend.2, ?_⟩
  · rw [← hK K, hτ, hs₀]
    rfl
  · have htables := loadElfFile_tables hload₁
    have hbefore : tables s₀ = s.files.1 := by
      rw [hs₀]
      rfl
    have hafter : tables s₁ = s'.files.1 := by
      rw [hend.2.files]
      rfl
    rwa [hbefore, hafter] at htables

/-- A call that finds no frame: it has stored the name. -/
theorem sysExecve_full {op : FsOp ψ} {name : List UInt8} {s s' : OsState (Files × ψ)}
    (hkernel : DirOk s.phys s.phys.kernelPageDir) (hfull : s.phys.freeCount = 0)
    (hrun : sysExecve (openFiles op) t name argv junk s = some (-1, s')) :
    s' = s.setTask t { s.task t with
      name := kernelStrncpy (s.task t).name (cString (getFileName name)) taskNameSize } := by
  rcases memoryCreateUvm_dirOk hkernel with ⟨-, hcreate⟩ | ⟨d, m, -, -, -, -, hcount, -⟩
  · rw [sysExecve, editTask, store_seq, look_seq, onPhys_seq (s := s.setTask t _) hcreate rfl,
      if_pos rfl] at hrun
    cases hrun
    rfl
  · omega

/-- A `sys_execve` that fails leaves the caller as it was where `FailsClean`
holds of the state before it; of the calls whose load is safe it does so only
there. -/
theorem execve_failed_iff (op : FsOp ψ) (t : TaskId) (name : List UInt8) (argv : List (List UInt8))
    (junk : Nat → UInt8) (s s' : OsState (Files × ψ))
    (hkernel : DirOk s.phys s.phys.kernelPageDir) (hdir : DirOk s.phys (s.task t).tss.cr3)
    (hrun : sysExecve (openFiles op) t name argv junk s = some (-1, s')) :
    FailsClean op t name argv junk s ↔
      LoadSafe op t name argv junk s ∧ CallerKept t s s' := by
  rcases Nat.eq_zero_or_pos s.phys.freeCount with hfull | hfree
  · obtain rfl := sysExecve_full hkernel hfull hrun
    refine ⟨fun h => ⟨.inl hfull, ?_, ?_, ?_, fun _ => rfl, ?_, fun _ _ => rfl, rfl⟩,
      fun h => ⟨?_, .inl hfull⟩⟩
    · simpa [OsState.setTask] using h.sameName
    · simp [OsState.setTask]
    · simp [OsState.setTask]
    · simp [OsState.setTask]
    · simpa [OsState.setTask] using h.2.name
  · have hsome : ¬s.phys.freeCount = 0 := Nat.ne_of_gt hfree
    constructor
    · rintro ⟨hname, hload⟩
      obtain ⟨hopen, hload⟩ := hload.resolve_left hsome
      obtain ⟨ps, heap, entry, s₁, hK, hfail, hback, htables⟩ := sysExecve_account hkernel hfree
        hload (fun _ _ _ h => h.2.imp_right And.left) hrun
      obtain ⟨hheap, -⟩ := (hK _).mp hload
      obtain ⟨-, hsame⟩ := htables.resolve_right fun h => h.1 hopen
      refine ⟨.inr ((hK _).mpr (hfail.imp_right And.left)), ?_, ?_, ?_, fun fd => by rw [hsame],
        ?_, hback.pages _ hdir, hback.bitmap⟩
      · rw [hback.task]
        exact hname
      · rw [hback.task, hheap]
      · rw [hback.task, hheap]
      · rw [hback.task]
    · rintro ⟨hsafe, hkept⟩
      have hload := hsafe.resolve_left hsome
      obtain ⟨ps, heap, entry, s₁, hK, hfail, hback, htables⟩ := sysExecve_account hkernel hfree
        hload (fun _ _ _ h => h) hrun
      have hname := hkept.name
      have hstart := hkept.heapStart
      have hend := hkept.heapEnd
      rw [hback.task] at hname hstart hend
      have hopen : OpenKeeps s.files.1 t := by
        rcases htables with ⟨hopen, -⟩ | ⟨-, hother⟩
        · exact hopen
        · exact absurd (hkept.fileTable 0).symm hother
      exact ⟨hname, .inr ⟨hopen, (hK _).mpr ⟨Prod.ext hstart hend, hfail⟩⟩⟩

end Exec

/-! ## A file that is not there -/

/-- A file system without files. -/
def noFile : FsOp Unit where
  fsOpen := fun x _ _ => some (-1, x)
  fsRead := fun x _ _ => some ((0, []), x)
  fsSeek := fun x _ _ => some (-1, x)
  fsClose := fun x _ => some x
  length_le := by
    intro x i len r h
    cases h
    exact Nat.zero_le _

/-- `first_task` with the name `sh`, its three first descriptors open, and
memory of `size` bytes. -/
def shTask (size : UInt32) : OsState (Files × Unit) :=
  { oneTask with
    phys := emptyMem size
    task := fun _ => { TaskT.zero with
      name := cString [115, 104]
      tss := { Tss.zero with cr3 := 0x1000 } }
    files := ({ filesInit with
      ref := fun i => if i = 0 then 3 else 0
      fileTable := fun p => if p.1 = .first ∧ p.2 < 3 then some 0 else none }, ()) }

/-- `sh` in `/home`. -/
def homeSh : List UInt8 := [47, 104, 111, 109, 101, 47, 115, 104]

theorem shTask_sameName (size : UInt32) :
    kernelStrncpy ((shTask size).task .first).name (cString (getFileName homeSh)) taskNameSize =
      ((shTask size).task .first).name := by
  have hname : getFileName homeSh = [115, 104] := by decide
  have hcopy : kernelStrncpy (cString [115, 104]) (cString [115, 104]) taskNameSize =
      Function.update (Function.update (Function.update (cString [115, 104]) 0 115) 1 104) 2 0 :=
    rfl
  rw [hname]
  refine hcopy.trans (funext fun i => ?_)
  match i with
  | 0 => rfl
  | 1 => rfl
  | 2 => rfl
  | i + 3 => rfl

theorem execve_failed_iff_missing : ∃ s', sysExecve (openFiles noFile) .first homeSh [] (fun _ => 0)
    (shTask 16384) = some (-1, s') ∧ CallerKept .first (shTask 16384) s' := by
  have hresult : (sysExecve (openFiles noFile) .first homeSh [] (fun _ => 0)
      (shTask 16384)).map Prod.fst = some (-1) := by decide +kernel
  obtain ⟨⟨r, s'⟩, hrun, hr⟩ := Option.map_eq_some_iff.mp hresult
  obtain rfl : r = -1 := hr
  have hdir : DirOk (shTask 16384).phys 0x1000 := emptyMem_dirOk (by decide)
  refine ⟨s', hrun, ((execve_failed_iff noFile .first homeSh [] (fun _ => 0) (shTask 16384) s'
    hdir hdir hrun).mp ⟨shTask_sameName 16384, .inr ⟨.inl (by decide), ?_⟩⟩).2⟩
  have hanswer : ((openFiles noFile).sysOpen (shTask 16384).files .first homeSh).map Prod.fst =
      some (-1) := by decide +kernel
  obtain ⟨⟨file, f⟩, hopen, hfile⟩ := Option.map_eq_some_iff.mp hanswer
  obtain rfl : file = -1 := hfile
  rw [CallerLoads, LoadClean, Answers.iff hopen, if_pos (by decide)]
  exact ⟨rfl, .inl rfl⟩

/-- Without a free frame the call fails, and the task has the new name. -/
theorem execve_failed_renames : ¬∀ (op : FsOp Unit) (t : TaskId) (name : List UInt8)
    (argv : List (List UInt8)) (junk : Nat → UInt8) (s s' : OsState (Files × Unit)),
    DirOk s.phys s.phys.kernelPageDir → DirOk s.phys (s.task t).tss.cr3 →
      sysExecve (openFiles op) t name argv junk s = some (-1, s') → CallerKept t s s' := by
  intro h
  have hresult : (sysExecve (openFiles noFile) .first [120] [] (fun _ => 0) (shTask 0)).map
      (fun r => (r.1, (r.2.task .first).name 0)) = some (-1, 120) := by decide +kernel
  obtain ⟨⟨r, s'⟩, hrun, hr⟩ := Option.map_eq_some_iff.mp hresult
  obtain ⟨rfl, hname⟩ := Prod.mk.inj hr
  have hdir : DirOk (shTask 0).phys 0x1000 := emptyMem_dirOk (by decide)
  have hkept := h noFile .first [120] [] (fun _ => 0) (shTask 0) s' hdir hdir hrun
  have hold : ((shTask 0).task .first).name 0 = 115 := rfl
  rw [← hkept.name, hname] at hold
  exact absurd hold (by decide)

end Wjos.Os
