/-
Wjos.Core.Frames — the frames that the page allocator hands out, as numbers.

Frame `k` is bit `k` of the map and the 4096 bytes from `frameAddr k` on.
`PhysOk` is what `memory_init` sets up and no call changes: where the frames
start, how large they are, that they end below 4 GiB, and that
`kernel_page_dir` lies before the first of them. Over it an allocation takes a
free frame or finds none (`paddrAllocPage_cases`), and freeing a frame undoes
it. The rest is what a store into one frame does to the words of the others,
and the arithmetic of an entry: the address of a frame with flags added.
-/
import Mathlib.Data.Finset.Card
import Wjos.Core.Paging

namespace Wjos

open Lib

/-- The address of frame `k`. -/
def frameAddr (k : Nat) : Nat := 1048576 + 4096 * k

/-- How many frames there are. -/
def PhysMem.frames (m : PhysMem) : Nat := m.paddrAlloc.bitmap.bitCount

/-- Frame `k` is handed out. -/
def PhysMem.used (m : PhysMem) (k : Nat) : Bool := bitAt m.paddrAlloc.bitmap k

/-- The frames that are not. -/
def PhysMem.freeFrames (m : PhysMem) : Finset Nat :=
  (Finset.range m.frames).filter fun k => m.used k = false

/-- How many there are of these. -/
def PhysMem.freeCount (m : PhysMem) : Nat := m.freeFrames.card

/-- What `memory_init` sets up. -/
structure PhysOk (m : PhysMem) : Prop where
  start : m.paddrAlloc.start = memExtStart
  pageSize : m.paddrAlloc.pageSize = memPageSize
  fits : frameAddr m.frames < 4294967296
  kernelDir : m.kernelPageDir + 4096 ≤ frameAddr 0

/-- `a` lies in frame `k`. -/
def InFrame (k a : Nat) : Prop := frameAddr k ≤ a ∧ a < frameAddr k + 4096

theorem InFrame.unique {j k a : Nat} (hj : InFrame j a) (hk : InFrame k a) : j = k := by
  unfold InFrame frameAddr at *
  omega

theorem frameAddr_inj {j k : Nat} (h : frameAddr j = frameAddr k) : j = k := by
  unfold frameAddr at h
  omega

theorem frameAddr_pos (k : Nat) : frameAddr k ≠ 0 := by
  unfold frameAddr
  omega

theorem frameAddr_lt {m : PhysMem} (hm : PhysOk m) {k : Nat} (hk : k < m.frames) :
    frameAddr k + 4096 ≤ 4294967296 := by
  have := hm.fits
  unfold frameAddr at *
  omega

/-- Frame `k` marked in the map. -/
def PhysMem.mark (m : PhysMem) (k : Nat) (bit : Int) : PhysMem :=
  { m with paddrAlloc :=
      { m.paddrAlloc with bitmap := bitmapSetBit m.paddrAlloc.bitmap k 1 bit } }

section Mark

variable {m : PhysMem} {k : Nat} {bit : Int}

@[simp] theorem mark_frames : (m.mark k bit).frames = m.frames := bitCount_bitmapSetBit ..

@[simp] theorem mark_mem : (m.mark k bit).mem = m.mem := rfl

@[simp] theorem mark_kernelPageDir : (m.mark k bit).kernelPageDir = m.kernelPageDir := rfl

theorem mark_used (hk : k < m.frames) (j : Nat) :
    (m.mark k bit).used j = if j = k then decide (bit ≠ 0) else m.used j := by
  unfold PhysMem.used PhysMem.mark
  rw [bitAt_bitmapSetBit]
  unfold PhysMem.frames at hk
  by_cases hj : j = k
  · rw [if_pos (by omega), if_pos hj]
  · rw [if_neg (by omega), if_neg hj]

theorem PhysOk.mark (hm : PhysOk m) : PhysOk (m.mark k bit) where
  start := hm.start
  pageSize := hm.pageSize
  fits := by
    rw [mark_frames]
    exact hm.fits
  kernelDir := hm.kernelDir

theorem PhysOk.setMem (hm : PhysOk m) (mem : Nat → UInt8) : PhysOk { m with mem := mem } :=
  ⟨hm.start, hm.pageSize, hm.fits, hm.kernelDir⟩

/-- A frame that is taken is free no longer. -/
theorem freeCount_take (hk : k < m.frames) (hfree : m.used k = false) :
    (m.mark k (~~~0)).freeCount + 1 = m.freeCount := by
  have herase : (m.mark k (~~~0)).freeFrames = m.freeFrames.erase k := by
    ext j
    simp only [PhysMem.freeFrames, mark_frames, Finset.mem_filter, Finset.mem_range,
      Finset.mem_erase, mark_used hk]
    by_cases hj : j = k
    · simp [hj, show ¬ ~~~(0 : Int) = 0 by decide]
    · simp [hj]
  have hmem : k ∈ m.freeFrames := by simp [PhysMem.freeFrames, hk, hfree]
  rw [PhysMem.freeCount, herase, PhysMem.freeCount, Finset.card_erase_add_one hmem]

theorem freeCount_eq_zero : m.freeCount = 0 ↔ ∀ k < m.frames, m.used k = true := by
  simp [PhysMem.freeCount, PhysMem.freeFrames, Finset.filter_eq_empty_iff]

/-- `freeCount` is about the map only. -/
@[simp] theorem freeCount_setMem (mem : Nat → UInt8) :
    ({ m with mem := mem } : PhysMem).freeCount = m.freeCount := rfl

end Mark

/-! ## Taking and giving back a frame -/

section Alloc

variable {m : PhysMem} {a k : Nat}

theorem toNat_frameAddr (hm : PhysOk m) (hk : k < m.frames) :
    (pageAddr k).toNat = frameAddr k := by
  have hfits := frameAddr_lt hm hk
  have hs : memExtStart.toNat = 1048576 := by decide
  have hp : memPageSize.toNat = 4096 := by decide
  unfold frameAddr at hfits ⊢
  have hmul : (UInt32.ofNat k * memPageSize).toNat = k * 4096 := by
    rw [UInt32.toNat_mul, UInt32.toNat_ofNat', hp, Nat.mod_eq_of_lt (by omega),
      Nat.mod_eq_of_lt (by omega)]
  rw [pageAddr, UInt32.toNat_add, hs, hmul, Nat.mod_eq_of_lt (by omega)]
  omega

/-- An allocation takes the first free frame, or there is none. -/
theorem paddrAllocPage_cases (hm : PhysOk m) :
    (m.freeCount = 0 ∧ paddrAllocPage m = some (0, m)) ∨
      ∃ k < m.frames, m.used k = false ∧
        paddrAllocPage m = some (frameAddr k, m.mark k (~~~0)) ∧ ∀ j < k, m.used j = true := by
  unfold paddrAllocPage addrAllocPage
  rcases bitmapAllocNbits_one m.paddrAlloc.bitmap with
    ⟨k, hk, hfree, he, hfirst⟩ | ⟨hall, he⟩
  · refine .inr ⟨k, hk, hfree, ?_, hfirst⟩
    have haddr : (m.paddrAlloc.start + UInt32.ofNat k * m.paddrAlloc.pageSize).toNat =
        frameAddr k := by
      rw [hm.start, hm.pageSize]
      exact toNat_frameAddr hm hk
    simp [he, haddr, PhysMem.mark]
  · refine .inl ⟨freeCount_eq_zero.mpr hall, ?_⟩
    simp [he]

/-- The bit that `addr_free_page` starts at. -/
theorem freeIndex_eq (hm : PhysOk m) (ha : a < 4294967296) :
    ((UInt32.ofNat a - m.paddrAlloc.start) / m.paddrAlloc.pageSize).toNat =
      (a + 4293918720) % 4294967296 / 4096 := by
  have hs : memExtStart.toNat = 1048576 := by decide
  have hp : memPageSize.toNat = 4096 := by decide
  have haddr : (UInt32.ofNat a).toNat = a := by
    rw [UInt32.toNat_ofNat', Nat.mod_eq_of_lt ha]
  have hsub : (UInt32.ofNat a - memExtStart).toNat = (a + 4293918720) % 4294967296 := by
    rw [UInt32.toNat_sub, haddr, hs]
    omega
  rw [hm.start, hm.pageSize, UInt32.toNat_div, hsub, hp]

/-- From an address in no frame nothing is given back, however many pages. -/
theorem addrFreePage_outside (hm : PhysOk m) (ha : a < 4294967296)
    (hout : ∀ k < m.frames, ¬InFrame k a) (pageCount : Nat) :
    addrFreePage m.paddrAlloc (UInt32.ofNat a) pageCount = m.paddrAlloc := by
  have hfits := hm.fits
  unfold frameAddr at hfits
  have hge : ¬(a + 4293918720) % 4294967296 / 4096 < m.paddrAlloc.bitmap.bitCount := by
    intro hlt
    refine hout _ hlt ?_
    have hframes : (a + 4293918720) % 4294967296 / 4096 < m.frames := hlt
    unfold InFrame frameAddr
    omega
  have hsame : bitmapSetBit m.paddrAlloc.bitmap ((a + 4293918720) % 4294967296 / 4096)
      pageCount 0 = m.paddrAlloc.bitmap := by
    cases pageCount with
    | zero => rfl
    | succ n => rw [bitmapSetBit, if_neg hge]
  simp only [addrFreePage, freeIndex_eq hm ha, hsame]

/-- What is given back is the frame that `a` lies in, or nothing where it lies in none. -/
theorem paddrFreePage_cases (hm : PhysOk m) (ha : a < 4294967296) :
    (∃ k < m.frames, InFrame k a ∧ paddrFreePage a 1 m = some ((), m.mark k 0)) ∨
      ((∀ k < m.frames, ¬InFrame k a) ∧ paddrFreePage a 1 m = some ((), m)) := by
  have hfits := hm.fits
  unfold frameAddr at hfits
  rcases Nat.lt_or_ge ((a + 4293918720) % 4294967296 / 4096) m.frames with hlt | hge
  · refine .inl ⟨_, hlt, ?_, ?_⟩
    · unfold InFrame frameAddr
      omega
    · simp only [paddrFreePage, store, addrFreePage, freeIndex_eq hm ha]
      rfl
  · have hout : ∀ k < m.frames, ¬InFrame k a := by
      intro k hk hin
      unfold InFrame frameAddr at hin
      omega
    refine .inr ⟨hout, ?_⟩
    simp only [paddrFreePage, store, addrFreePage_outside hm ha hout]

/-- A frame given back. -/
theorem paddrFreePage_frame (hm : PhysOk m) (hk : k < m.frames) :
    paddrFreePage (frameAddr k) 1 m = some ((), m.mark k 0) := by
  have hfits := frameAddr_lt hm hk
  have hself : InFrame k (frameAddr k) := ⟨Nat.le_refl _, by omega⟩
  rcases paddrFreePage_cases hm (show frameAddr k < 4294967296 by omega) with
    ⟨j, -, hj, hrun⟩ | ⟨hnone, -⟩
  · rw [hrun, InFrame.unique hj hself]
  · exact absurd hself (hnone k hk)

end Alloc

/-! ## Words and stores -/

section Words

variable {mem : Nat → UInt8} {a b k j x : Nat}

theorem le32_put32_of_ne (h : b + 4 ≤ a ∨ a + 4 ≤ b) : le32 (put32 mem a x) b = le32 mem b :=
  le32_congr fun _ _ => put32_of_not_mem (by omega)

/-- A store into frame `k` changes nothing outside. -/
theorem put32_outside (hj : j < 1024) (ha : ¬InFrame k a) :
    put32 mem (frameAddr k + 4 * j) x a = mem a := by
  refine put32_of_not_mem ?_
  unfold InFrame at ha
  omega

/-- A block stored in frame `k` changes nothing outside. -/
theorem copyTo_outside {src : Nat → UInt8} (ha : ¬InFrame k a) :
    copyTo mem (frameAddr k) 4096 src a = mem a := if_neg ha

/-- Where frames differ, so do their addresses. -/
theorem not_inFrame {j k o : Nat} (h : j ≠ k) (ho : o < 4096) : ¬InFrame k (frameAddr j + o) :=
  fun hk => h (InFrame.unique ⟨Nat.le_add_right _ _, by omega⟩ hk)

/-- A word of another frame. -/
theorem le32_other {mem' : Nat → UInt8} (hm : ∀ a, ¬InFrame k a → mem' a = mem a) {i : Nat}
    (hi : i ≠ k) (hj : j < 1024) :
    le32 mem' (frameAddr i + 4 * j) = le32 mem (frameAddr i + 4 * j) :=
  le32_congr fun o ho => hm _ (by
    rw [Nat.add_assoc]
    exact not_inFrame hi (by omega))

end Words

/-! ## Entries -/

section Entries

variable {k f v : Nat}

/-- Flags are below the address of a frame. -/
theorem frameAddr_or (hf : f < 4096) : frameAddr k ||| f = frameAddr k + f := by
  have hk : frameAddr k = 2 ^ 12 * (256 + k) := by
    unfold frameAddr
    omega
  rw [hk, Nat.two_pow_add_eq_or_of_lt hf]

theorem entryPaddr_frame (hf : f < 4096) : entryPaddr (frameAddr k + f) = frameAddr k := by
  unfold entryPaddr frameAddr
  omega

theorem getPtePerm_frame (hf : f < 1024) : getPtePerm (frameAddr k + f) = f := by
  unfold getPtePerm frameAddr
  omega

theorem getPtePerm_lt (v : Nat) : getPtePerm v < 1024 := Nat.mod_lt _ (by omega)

theorem entryPresent_frame : entryPresent (frameAddr k + f) = entryPresent f := by
  unfold entryPresent frameAddr
  congr 1
  exact propext ⟨fun h => by omega, fun h => by omega⟩

/-- The flags of a present entry have the bit already. -/
theorem perm_or_one (h : entryPresent v = true) : getPtePerm v ||| 1 = getPtePerm v := by
  have hodd : v % 2 = 1 := by simpa [entryPresent] using h
  unfold getPtePerm
  have hq : v % 1024 = 2 ^ 1 * (v % 1024 / 2) + 1 := by omega
  rw [hq, Nat.two_pow_add_eq_or_of_lt (by decide), Nat.or_assoc, Nat.or_self]

end Entries

end Wjos
