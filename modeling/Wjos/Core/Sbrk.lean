/-
Wjos.Core.Sbrk — runs of `sys_sbrk` of `kernel/core/memory.c` by one process.

`sys_sbrk` never fails: `memory_alloc_for_page_dir` returns 0 also where it
has not mapped what it was asked for. `SbrkFits` is when the heap is backed
after the call all the same: the new end is an address, the pages between the
page of the old end and the new end are not mapped, and there are frames for
them and for their tables. `HeapOk` is the invariant of the calls that fit:
every byte of the heap and the one before it, which belongs to the last
segment, lies in a page that the program may write.
-/
import Wjos.Core.AllocPages
import Wjos.Core.LifeTheorems
import Wjos.Core.PageTableRuns
import Wjos.Lib.Run

namespace Wjos.Os

open Lib

variable {φ : Type}

/-- Page `p` is present, and the program may write to it. -/
def HeapPage (m : PhysMem) (dir p : Nat) : Prop := ∃ e, pageEntry m dir p = some e ∧ e % 8 = ptePuw

/-- Every byte from `lo` up to `hi` lies in such a page. -/
def HeapBacked (m : PhysMem) (dir lo hi : Nat) : Prop :=
  ∀ a, lo ≤ a → a < hi → HeapPage m dir (a / 4096)

/-- The first page boundary from the end of the heap on. -/
def heapPageEnd (heapEnd : Nat) : Nat := (heapEnd + 4095) / 4096 * 4096

/-- The pages that a call makes the heap reach into. -/
def sbrkPages (heapEnd incr : Nat) : List Nat :=
  rangePages (heapPageEnd heapEnd) (heapEnd + incr - heapPageEnd heapEnd)

/-- The call leaves the heap backed. -/
structure SbrkFits (t : TaskId) (s : OsState φ) (incr : Int) : Prop where
  below : (s.task t).heapEnd + incr.toNat < 4294967296
  unmapped : ∀ p ∈ sbrkPages (s.task t).heapEnd incr.toNat,
    pageEntry s.phys (s.task t).tss.cr3 p = none
  frames : framesNeeded (hasTable s.phys (s.task t).tss.cr3)
    (sbrkPages (s.task t).heapEnd incr.toNat) ≤ s.phys.freeCount

/-- Between calls: the heap and the byte before it are backed. -/
structure HeapOk (t : TaskId) (s : OsState φ) : Prop where
  dir : DirOk s.phys (s.task t).tss.cr3
  user : memoryTaskBase < (s.task t).heapStart
  le : (s.task t).heapStart ≤ (s.task t).heapEnd
  below : (s.task t).heapEnd < 4294967296
  backed : HeapBacked s.phys (s.task t).tss.cr3 ((s.task t).heapStart - 1) (s.task t).heapEnd

/-- A call of `sys_sbrk`. -/
def sbrkStep (t : TaskId) (s : OsState φ) (incr : Int) : Option (OsState φ) :=
  if 0 ≤ incr ∧ incr < 2147483648 then (sysSbrk t incr s).map Prod.snd else none

/-- What a call that returns `r` should do: fail and leave the end of the
heap, or return it, move it by `incr` and have the heap backed. -/
def SbrkOk (t : TaskId) (s : OsState φ) (incr : Int) (r : Int) (s' : OsState φ) : Prop :=
  (r = -1 ∧ (s'.task t).heapEnd = (s.task t).heapEnd) ∨
    (r = (s.task t).heapEnd ∧ ((s'.task t).heapEnd : Int) = (s.task t).heapEnd + incr ∧
      HeapBacked s'.phys (s'.task t).tss.cr3 (s'.task t).heapStart (s'.task t).heapEnd)

/-! ## One call -/

section Call

variable {t : TaskId} {s : OsState φ} {m m' : PhysMem} {dir lo hi heapEnd n : Nat} {incr : Int}

/-- The end of the heap moved inside its page. -/
theorem HeapBacked.inPage (h : HeapBacked m dir lo heapEnd) (hlo : lo < heapEnd)
    (hpage : heapEnd + n ≤ heapPageEnd heapEnd) : HeapBacked m dir lo (heapEnd + n) := by
  intro a ha hlt
  rcases Nat.lt_or_ge a heapEnd with hold | hnew
  · exact h a ha hold
  · have hsame : a / 4096 = (heapEnd - 1) / 4096 := by
      unfold heapPageEnd at hpage
      omega
    rw [hsame]
    exact h (heapEnd - 1) (by omega) (by omega)

theorem mem_sbrkPages {p : Nat} (hn : heapEnd + n < 4294967296)
    (hlo : heapPageEnd heapEnd ≤ 4096 * p)
    (hhi : 4096 * p < heapEnd + n) : p ∈ sbrkPages heapEnd n := by
  unfold sbrkPages rangePages
  rw [if_neg (by omega)]
  unfold heapPageEnd at hlo ⊢
  refine List.mem_map.mpr ⟨p - (heapEnd + 4095) / 4096, List.mem_range.mpr (by omega), ?_⟩
  omega

theorem lt_of_mem_sbrkPages {p : Nat} (hn : heapEnd + n < 4294967296)
    (hp : p ∈ sbrkPages heapEnd n) :
    p < 1048576 ∧ heapEnd ≤ 4096 * p := by
  unfold sbrkPages rangePages heapPageEnd at hp
  split at hp
  · cases hp
  · obtain ⟨i, hi, rfl⟩ := List.mem_map.mp hp
    rw [List.mem_range] at hi
    omega

/-- The end of the heap moved over pages that have been backed. -/
theorem HeapBacked.backed (h : HeapBacked m dir lo heapEnd) (hlo : lo < heapEnd)
    (hn : heapEnd + n < 4294967296) (hback : Backed dir ptePuw (sbrkPages heapEnd n) m m') :
    HeapBacked m' dir lo (heapEnd + n) := by
  have hkeep : HeapBacked m' dir lo heapEnd := by
    intro a ha hlt
    obtain ⟨e, he, hflags⟩ := h a ha hlt
    refine ⟨e, ?_, hflags⟩
    rw [hback.others _ (by omega) fun hmem => ?_, he]
    have := (lt_of_mem_sbrkPages hn hmem).2
    omega
  intro a ha hlt
  rcases Nat.lt_or_ge a (heapPageEnd heapEnd) with hold | hnew
  · -- the page of the old end, as far as the heap reaches into it
    have hin : a < heapEnd + min n (heapPageEnd heapEnd - heapEnd) := by omega
    have hle : heapEnd + min n (heapPageEnd heapEnd - heapEnd) ≤ heapPageEnd heapEnd := by
      unfold heapPageEnd
      omega
    exact hkeep.inPage hlo hle a ha hin
  · have hmem : a / 4096 ∈ sbrkPages heapEnd n := by
      refine mem_sbrkPages hn ?_ (by omega)
      unfold heapPageEnd at hnew ⊢
      omega
    obtain ⟨k, -, -, -, he⟩ := hback.fresh _ hmem
    refine ⟨_, he, ?_⟩
    show (frameAddr k + 7) % 8 = 7
    unfold frameAddr
    omega

theorem setTask_task (s : OsState φ) (t : TaskId) (p : TaskT) : (s.setTask t p).task t = p :=
  Function.update_self ..

/-- The first test of `sys_sbrk` is about the page that the heap ends in. -/
theorem sbrkGrow_inPage (hn : heapEnd + incr.toNat < 4294967296) (hpos : 0 < incr)
    (hpage : heapEnd + incr.toNat ≤ heapPageEnd heapEnd) :
    sbrkGrow t dir heapEnd incr s = heapGrown t heapEnd (heapEnd + incr.toNat) s := by
  unfold heapPageEnd at hpage
  have hoff : heapEnd % 4096 ≠ 0 := by omega
  have hint : cInt ((heapEnd % 4096 : Nat) + incr) = (heapEnd % 4096 : Nat) + incr :=
    cInt_eq (by omega) (by rw [intMax]; omega)
  unfold sbrkGrow
  rw [if_pos ⟨hoff, by rw [hint]; omega⟩, Nat.mod_eq_of_lt hn]

/-- Otherwise it asks for the pages from the next boundary on. -/
theorem sbrkGrow_pages (hn : heapEnd + incr.toNat < 4294967296) (hpos : 0 < incr)
    (huser : memoryTaskBase ≤ heapEnd) (hpage : heapPageEnd heapEnd < heapEnd + incr.toNat)
    {phys : PhysMem}
    (halloc : memoryAllocForPageDir dir (heapPageEnd heapEnd)
      (heapEnd + incr.toNat - heapPageEnd heapEnd) ptePuw s.phys = some (0, phys)) :
    sbrkGrow t dir heapEnd incr s =
      heapGrown t heapEnd (heapEnd + incr.toNat) { s with phys := phys } := by
  have hcurr : (if heapEnd % 4096 ≠ 0 then 4096 - heapEnd % 4096 else 0) =
      heapPageEnd heapEnd - heapEnd := by
    unfold heapPageEnd
    split <;> omega
  have hle : heapEnd ≤ heapPageEnd heapEnd := by
    unfold heapPageEnd
    omega
  have hslow : ¬(heapEnd % 4096 ≠ 0 ∧ cInt ((heapEnd % 4096 : Nat) + incr) ≤ 4096) := by
    rintro ⟨hoff, hfast⟩
    rw [cInt_eq (by omega) (by unfold memoryTaskBase at huser; rw [intMax]; omega)] at hfast
    unfold heapPageEnd at hpage
    omega
  have hsize : u32 (((heapEnd + incr.toNat : Nat) : Int) - (heapPageEnd heapEnd : Nat)) =
      heapEnd + incr.toNat - heapPageEnd heapEnd := u32_sub (by omega) hn
  unfold sbrkGrow
  simp only [hcurr]
  rw [Nat.mod_eq_of_lt hn, Nat.add_sub_cancel' hle,
    Nat.mod_eq_of_lt (show heapPageEnd heapEnd < 4294967296 by omega), if_neg hslow,
    if_pos (by omega), hsize]
  have hphys : onPhys (memoryAllocForPageDir dir (heapPageEnd heapEnd)
      (heapEnd + incr.toNat - heapPageEnd heapEnd) ptePuw) s =
        some (0, { s with phys := phys }) := by
    unfold onPhys zoom
    rw [halloc]
    rfl
  rw [seq_some hphys]
  rfl

/-- A call that fits returns the old end, moves it and keeps the invariant. -/
theorem sysSbrk_spec (h : HeapOk t s) (h0 : 0 ≤ incr) (hfit : SbrkFits t s incr) :
    ∃ s', sysSbrk t incr s = some (((s.task t).heapEnd : Int), s') ∧
      s'.task t = { s.task t with heapEnd := (s.task t).heapEnd + incr.toNat } ∧ HeapOk t s' := by
  have hlook : look (fun s : OsState φ => s.task t) s = some (s.task t, s) := rfl
  have hcheck : check (σ := OsState φ) (decide (incr ≥ 0)) s = some ((), s) := by
    rw [check, if_pos (by simpa using h0)]
  have huser := h.user
  have hle := h.le
  have hbelow := hfit.below
  rw [sysSbrk, seq_some hlook, seq_some hcheck]
  by_cases hzero : incr = 0
  · refine ⟨s, ?_, ?_, h⟩
    · rw [if_pos hzero]
      rfl
    · rw [hzero]
      rfl
  · have hpos : 0 < incr := by omega
    rw [if_neg hzero]
    rcases Nat.lt_or_ge (heapPageEnd (s.task t).heapEnd) ((s.task t).heapEnd + incr.toNat) with
      hpages | hpage
    · obtain ⟨phys, hrun, hcases⟩ := memoryAllocForPageDir_cases h.dir
        (heapPageEnd (s.task t).heapEnd)
        (show (s.task t).heapEnd + incr.toNat - heapPageEnd (s.task t).heapEnd < 4294967296 by
          omega)
        (show ptePuw < 4096 by decide) fun i hi => hfit.unmapped _ (mem_rangePages (by omega) hi)
      have hfits : FitsPages (heapPageEnd (s.task t).heapEnd)
          ((s.task t).heapEnd + incr.toNat - heapPageEnd (s.task t).heapEnd) := by
        right
        rw [up2_page (by omega)]
        unfold heapPageEnd
        omega
      have hback : Backed (s.task t).tss.cr3 ptePuw (sbrkPages (s.task t).heapEnd incr.toNat)
          s.phys phys := by
        have hcost := hfit.frames
        rw [← mapCost_eq, sbrkPages, rangePages_fits (by omega) hfits] at hcost
        rw [sbrkPages, rangePages_fits (by omega) hfits]
        rcases hcases with ⟨-, hback⟩ | ⟨hless, -⟩
        · exact hback
        · exact absurd hcost (Nat.not_le_of_lt hless)
      rw [sbrkGrow_pages hbelow hpos (by omega) hpages hrun]
      refine ⟨_, rfl, setTask_task .., ?_⟩
      have htask := setTask_task { s with phys := phys } t
        { s.task t with heapEnd := (s.task t).heapEnd + incr.toNat }
      refine ⟨?_, ?_, ?_, ?_, ?_⟩ <;> rw [htask]
      · exact hback.ok
      · exact huser
      · exact Nat.le_add_right_of_le hle
      · exact hbelow
      · exact h.backed.backed (by omega) hbelow hback
    · rw [sbrkGrow_inPage hbelow hpos hpage]
      refine ⟨_, rfl, setTask_task .., ?_⟩
      have htask := setTask_task s t
        { s.task t with heapEnd := (s.task t).heapEnd + incr.toNat }
      refine ⟨?_, ?_, ?_, ?_, ?_⟩ <;> rw [htask]
      · exact h.dir
      · exact huser
      · exact Nat.le_add_right_of_le hle
      · exact hbelow
      · exact h.backed.inPage (by omega) hpage

end Call

/-! ## Runs -/

/-- An empty heap at the end of a segment: the last byte of the segment lies
in a user page that may be written. -/
structure HeapStart (t : TaskId) (s : OsState φ) : Prop where
  dir : DirOk s.phys (s.task t).tss.cr3
  user : memoryTaskBase < (s.task t).heapStart
  empty : (s.task t).heapEnd = (s.task t).heapStart
  below : (s.task t).heapEnd < 4294967296
  segment : HeapPage s.phys (s.task t).tss.cr3 (((s.task t).heapStart - 1) / 4096)

section Runs

variable {t : TaskId} {s s' : OsState φ} {incr : Int}

theorem HeapStart.heapOk (h : HeapStart t s) : HeapOk t s := by
  refine ⟨h.dir, h.user, Nat.le_of_eq h.empty.symm, h.below, fun a ha hlt => ?_⟩
  have hpos := h.user
  have hend := h.empty
  rw [show a = (s.task t).heapStart - 1 by omega]
  exact h.segment

theorem sbrkStep_ok (h : HeapOk t s) (hfit : SbrkFits t s incr) (hs : sbrkStep t s incr = some s') :
    HeapOk t s' := by
  unfold sbrkStep at hs
  split at hs
  next hint =>
    obtain ⟨s₁, hrun, -, hok⟩ := sysSbrk_spec h hint.1 hfit
    rw [hrun, Option.map_some, Option.some.injEq] at hs
    exact hs ▸ hok
  · cases hs

/-- In every run of `sys_sbrk` from an empty heap whose calls all fit, the
heap is backed, and the next call that fits returns and does what it should. -/
theorem sbrk_run (t : TaskId) (s s' : OsState φ) (incrs : List Int) (hstart : HeapStart t s)
    (hrun : run (sbrkStep t) s incrs = some s') (hfits : Along (sbrkStep t) (SbrkFits t) s incrs) :
    HeapBacked s'.phys (s'.task t).tss.cr3 (s'.task t).heapStart (s'.task t).heapEnd ∧
    ∀ incr, 0 ≤ incr → incr < 2147483648 → SbrkFits t s' incr →
      ∃ r s'', sysSbrk t incr s' = some (r, s'') ∧ SbrkOk t s' incr r s'' := by
  have hok : HeapOk t s' :=
    run_invariant_along (fun _ _ _ h hfit hs => sbrkStep_ok h hfit hs) hstart.heapOk hfits hrun
  refine ⟨fun a ha => hok.backed a (by omega), fun incr h0 _ hfit => ?_⟩
  obtain ⟨s'', hcall, htask, hok'⟩ := sysSbrk_spec hok h0 hfit
  refine ⟨_, s'', hcall, .inr ⟨rfl, ?_, fun a ha => hok'.backed a (by omega)⟩⟩
  rw [htask]
  push_cast
  omega

/-- `first_task` with a heap in its only page. -/
def heapTask (n : Nat) : OsState Unit :=
  { oneTask with phys := smallMem n }.setTask .first
    { oneTask.task .first with heapStart := 0x80000100, heapEnd := 0x80000100 }

theorem heapTask_first (n : Nat) : (heapTask n).task .first =
    { oneTask.task .first with heapStart := 0x80000100, heapEnd := 0x80000100 } :=
  setTask_task ..

theorem heapTask_start {n : Nat} (hn : 4 ≤ n) (hn' : n ≤ 16) :
    HeapStart .first (heapTask n) := by
  have hfirst := heapTask_first n
  refine ⟨?_, ?_, ?_, ?_, ?_⟩ <;> rw [hfirst]
  · exact smallMem_dirOk hn hn'
  · show memoryTaskBase < 0x80000100
    decide
  · show 0x80000100 < 4294967296
    decide
  · refine ⟨0x102007, ?_, rfl⟩
    show pageEntry (smallMem n) 0x100000 0x80000 = some 0x102007
    have hpte : uvmPte (smallMem n).mem 0x100000 512 0 = 0x102007 := smallMem_pte (by decide)
    have hpde : uvmPde (smallMem n).mem 0x100000 512 = 0x101007 := smallMem_pde (by decide)
    simp [pageEntry, pagePresent, hpte, hpde, entryPresent]

/-- Two pages and a part of its own: the call needs two frames. -/
theorem heapTask_grows : SbrkFits .first (heapTask 16) 8192 := by
  have hfirst := heapTask_first 16
  have hpages : sbrkPages 0x80000100 8192 = [0x80001, 0x80002] := by decide
  refine ⟨?_, ?_, ?_⟩ <;> rw [hfirst]
  · show 0x80000100 + 8192 < 4294967296
    decide
  · show ∀ p ∈ sbrkPages 0x80000100 8192, pageEntry (smallMem 16) 0x100000 p = none
    rw [hpages]
    decide +kernel
  · show framesNeeded (hasTable (smallMem 16) 0x100000) (sbrkPages 0x80000100 8192) ≤ _
    rw [hpages]
    decide +kernel

/-- The rule for a call that maps two pages, and one more inside the last. -/
theorem sbrk_run_first : ∃ s', run (sbrkStep .first) (heapTask 16) [8192] = some s' ∧
    (s'.task .first).heapEnd = 0x80002100 ∧
    HeapBacked s'.phys (s'.task .first).tss.cr3 0x80000100 0x80002100 ∧
    ∃ r s'', sysSbrk .first 100 s' = some (r, s'') ∧ SbrkOk .first s' 100 r s'' := by
  have hval : (run (sbrkStep .first) (heapTask 16) [8192]).map (fun s =>
      ((s.task .first).heapStart, (s.task .first).heapEnd)) = some (0x80000100, 0x80002100) := by
    decide +kernel
  obtain ⟨s', hrun, hheap⟩ := Option.map_eq_some_iff.mp hval
  obtain ⟨hstart, hend⟩ := Prod.mk.inj hheap
  obtain ⟨hback, hnext⟩ := sbrk_run .first (heapTask 16) s' [8192]
    (heapTask_start (by decide) (by decide)) hrun ⟨heapTask_grows, fun _ _ => trivial⟩
  have hpages : sbrkPages 0x80002100 100 = [] := by decide
  have hfits : SbrkFits .first s' 100 := by
    refine ⟨?_, ?_, ?_⟩ <;> rw [hend]
    · decide
    · simp [hpages]
    · rw [show (100 : Int).toNat = 100 from rfl, hpages]
      exact Nat.zero_le _
  rw [hstart, hend] at hback
  exact ⟨s', hrun, hend, hback, hnext 100 (by decide) (by decide) hfits⟩

/-- No frame is left: the heap grows, and its second page is not there. -/
theorem heap_without_frames : ¬ ∀ (t : TaskId) (s s' : OsState Unit) (incrs : List Int),
    HeapStart t s → run (sbrkStep t) s incrs = some s' →
      ∀ incr, 0 ≤ incr → incr < 2147483648 →
        ∃ r s'', sysSbrk t incr s' = some (r, s'') ∧ SbrkOk t s' incr r s'' := by
  intro h
  obtain ⟨r, s'', hcall, hok⟩ := h .first (heapTask 4) (heapTask 4) []
    (heapTask_start (by decide) (by decide)) rfl 8192 (by decide) (by decide)
  have hval : (sysSbrk .first 8192 (heapTask 4)).map (fun r => (r.1,
      (r.2.task .first).tss.cr3, (r.2.task .first).heapStart, (r.2.task .first).heapEnd,
      pageEntry r.2.phys 0x100000 0x80001)) =
        some (0x80000100, 0x100000, 0x80000100, 0x80002100, none) := by decide +kernel
  rw [hcall, Option.map_some, Option.some.injEq] at hval
  simp only [Prod.mk.injEq] at hval
  obtain ⟨rfl, hcr3, hlo, hhi, hnone⟩ := hval
  rcases hok with ⟨hr, -⟩ | ⟨-, -, hback⟩
  · exact absurd hr (by decide)
  · rw [hcr3, hlo, hhi] at hback
    obtain ⟨e, he, -⟩ := hback 0x80001000 (by decide) (by decide)
    exact absurd (hnone.symm.trans he) (by simp)

end Runs

end Wjos.Os
