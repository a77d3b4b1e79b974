/-
Wjos.Core.AddrAlloc — the physical page allocator of
`kernel/core/memory.c`: `addr_alloc_init`, `addr_alloc_page`,
`addr_free_page`.

The functions are translated with their `uint32_t` arithmetic. The
`mutex` of `addr_alloc_t` is left out: each call here is one whole
critical section, so nothing observes the lock.

Over them stands `PageUse`, the allocator together with the addresses
that are handed out and not yet given back. `pageStep` is one call:
`alloc` is `addr_alloc_page(alloc, 1)`, `free addr` is
`addr_free_page(alloc, addr, 1)`, refused unless `addr` is held. The
invariant `PageInv` ties the two together: bit `k` of the map is set
exactly when the address of page `k` is held.
-/
import Mathlib.Data.List.Nodup
import Mathlib.Data.UInt
import Wjos.Lib.Run
import Wjos.Tools.Bitmap

namespace Wjos

open Lib

/-- `MEM_EXT_START`. -/
def memExtStart : UInt32 := 1024 * 1024

/-- `MEM_PAGE_SIZE`. -/
def memPageSize : UInt32 := 4096

/-- `addr_alloc_t` without its mutex. -/
structure AddrAlloc where
  bitmap : Bitmap
  start : UInt32
  size : UInt32
  pageSize : UInt32

/-- `addr_alloc_init`; `bits` is the memory the map is placed in. -/
def addrAllocInit (bits : Nat → UInt8) (start size pageSize : UInt32) : AddrAlloc where
  bitmap := bitmapInit bits (size / pageSize).toNat 0
  start := start
  size := size
  pageSize := pageSize

/-- `addr_alloc_page`: the allocator after the call and the returned
address, `0` when no run of pages was found. -/
def addrAllocPage (alloc : AddrAlloc) (pageCount : Nat) : AddrAlloc × UInt32 :=
  let r := bitmapAllocNbits alloc.bitmap 0 pageCount
  ({ alloc with bitmap := r.1 },
    if r.2 ≥ 0 then alloc.start + UInt32.ofNat r.2.toNat * alloc.pageSize else 0)

/-- `addr_free_page`. -/
def addrFreePage (alloc : AddrAlloc) (addr : UInt32) (pageCount : Nat) : AddrAlloc :=
  let pageIndex := (addr - alloc.start) / alloc.pageSize
  { alloc with bitmap := bitmapSetBit alloc.bitmap pageIndex.toNat pageCount 0 }

/-! ## Runs of single-page calls -/

/-- The allocator and the pages handed out and not yet freed. -/
structure PageUse where
  alloc : AddrAlloc
  held : List UInt32

inductive PageEvent where
  | alloc
  | free (addr : UInt32)
  deriving DecidableEq, Repr

/-- The state `memory_init` sets up: pages of `MEM_PAGE_SIZE` bytes from
`MEM_EXT_START`, none of them held. -/
def pageInit (bits : Nat → UInt8) (size : UInt32) : PageUse where
  alloc := addrAllocInit bits memExtStart size memPageSize
  held := []

/-- One call of the kernel. -/
def pageStep (s : PageUse) : PageEvent → Option PageUse
  | .alloc =>
    let r := addrAllocPage s.alloc 1
    some { alloc := r.1, held := if r.2 = 0 then s.held else r.2 :: s.held }
  | .free addr =>
    if addr ∈ s.held then
      some { alloc := addrFreePage s.alloc addr 1, held := s.held.erase addr }
    else none

/-- The address of page `k`. -/
def pageAddr (k : Nat) : UInt32 := memExtStart + UInt32.ofNat k * memPageSize

/-- The allocator regards page `k` as free. -/
def PageFree (alloc : AddrAlloc) (k : Nat) : Prop := bitmapIsSet alloc.bitmap k = 0

theorem pageFree_iff (alloc : AddrAlloc) (k : Nat) :
    PageFree alloc k ↔ bitAt alloc.bitmap k = false := by
  rw [PageFree, bitmapIsSet_eq]
  cases bitAt alloc.bitmap k <;> simp

/-! ## Addresses and indices -/

section Arithmetic

variable {size : UInt32} {k : Nat}

/-- No wrap-around while the page lies below `MEM_EXT_START + size`. -/
theorem toNat_pageAddr (hfit : memExtStart.toNat + size.toNat < 2 ^ 32)
    (hk : k < (size / memPageSize).toNat) :
    (pageAddr k).toNat = 1048576 + k * 4096 := by
  have hs : memExtStart.toNat = 1048576 := by decide
  have hp : memPageSize.toNat = 4096 := by decide
  rw [UInt32.toNat_div, hp] at hk
  rw [hs] at hfit
  have hk' : k < 2 ^ 32 := by omega
  have hmul : (UInt32.ofNat k * memPageSize).toNat = k * 4096 := by
    rw [UInt32.toNat_mul, UInt32.toNat_ofNat', hp, Nat.mod_eq_of_lt hk', Nat.mod_eq_of_lt]
    omega
  rw [pageAddr, UInt32.toNat_add, hs, hmul, Nat.mod_eq_of_lt]
  omega

theorem pageAddr_ne_zero (hfit : memExtStart.toNat + size.toNat < 2 ^ 32)
    (hk : k < (size / memPageSize).toNat) : pageAddr k ≠ 0 := by
  intro h
  have h₁ := toNat_pageAddr hfit hk
  rw [h] at h₁
  have h₀ : (0 : UInt32).toNat = 0 := rfl
  omega

/-- The index computed by `addr_free_page` inverts `pageAddr`. -/
theorem pageIndex_pageAddr (hfit : memExtStart.toNat + size.toNat < 2 ^ 32)
    (hk : k < (size / memPageSize).toNat) :
    ((pageAddr k - memExtStart) / memPageSize).toNat = k := by
  have hs : memExtStart.toNat = 1048576 := by decide
  have hp : memPageSize.toNat = 4096 := by decide
  have ha := toNat_pageAddr hfit hk
  have hle : memExtStart ≤ pageAddr k := by
    rw [UInt32.le_iff_toNat_le, hs, ha]
    omega
  rw [UInt32.toNat_div, UInt32.toNat_sub_of_le _ _ hle, ha, hs, hp]
  omega

theorem pageAddr_inj {j : Nat} (hfit : memExtStart.toNat + size.toNat < 2 ^ 32)
    (hj : j < (size / memPageSize).toNat) (hk : k < (size / memPageSize).toNat)
    (h : pageAddr j = pageAddr k) : j = k := by
  rw [← pageIndex_pageAddr hfit hj, ← pageIndex_pageAddr hfit hk, h]

end Arithmetic

/-! ## The invariant -/

/-- Page `k` is held exactly when its bit is set, and only pages are held. -/
structure PageInv (size : UInt32) (s : PageUse) : Prop where
  start_eq : s.alloc.start = memExtStart
  pageSize_eq : s.alloc.pageSize = memPageSize
  bitCount_eq : s.alloc.bitmap.bitCount = (size / memPageSize).toNat
  nodup : s.held.Nodup
  page_of_held : ∀ addr ∈ s.held, ∃ k < (size / memPageSize).toNat, addr = pageAddr k
  held_iff : ∀ k < (size / memPageSize).toNat,
    pageAddr k ∈ s.held ↔ bitAt s.alloc.bitmap k = true

theorem pageInv_init (bits : Nat → UInt8) (size : UInt32) :
    PageInv size (pageInit bits size) where
  start_eq := rfl
  pageSize_eq := rfl
  bitCount_eq := rfl
  nodup := List.nodup_nil
  page_of_held := by simp [pageInit]
  held_iff := by
    intro k hk
    have hb : bitAt (bitmapInit bits (size / memPageSize).toNat 0) k = false :=
      bitAt_bitmapInit_zero bits hk
    rw [pageInit, addrAllocInit, hb]
    simp

/-- What `addr_alloc_page(alloc, 1)` does: it hands out a page whose bit
was clear and sets that bit, or finds every bit set and returns 0. -/
theorem addrAllocPage_one {size : UInt32} {s : PageUse} (hi : PageInv size s) :
    (∃ k < (size / memPageSize).toNat, bitAt s.alloc.bitmap k = false ∧
        addrAllocPage s.alloc 1 =
          ({ s.alloc with bitmap := bitmapSetBit s.alloc.bitmap k 1 (~~~0) }, pageAddr k)) ∨
      ((∀ k < (size / memPageSize).toNat, bitAt s.alloc.bitmap k = true) ∧
        addrAllocPage s.alloc 1 = (s.alloc, 0)) := by
  rcases bitmapAllocNbits_one s.alloc.bitmap with ⟨k, hk, hb, he, -⟩ | ⟨hb, he⟩
  · refine Or.inl ⟨k, hi.bitCount_eq ▸ hk, hb, ?_⟩
    simp [addrAllocPage, he, hi.start_eq, hi.pageSize_eq, pageAddr]
  · refine Or.inr ⟨fun k hk => hb k (hi.bitCount_eq ▸ hk), ?_⟩
    simp [addrAllocPage, he]

/-- What `addr_free_page` does to the bits when the page is held. -/
theorem bitAt_addrFreePage {size : UInt32} {s : PageUse} (hi : PageInv size s)
    (hfit : memExtStart.toNat + size.toNat < 2 ^ 32) {k : Nat}
    (hk : k < (size / memPageSize).toNat) (j : Nat) :
    bitAt (addrFreePage s.alloc (pageAddr k) 1).bitmap j =
      if j = k then false else bitAt s.alloc.bitmap j := by
  have hidx : ((pageAddr k - s.alloc.start) / s.alloc.pageSize).toNat = k := by
    rw [hi.start_eq, hi.pageSize_eq]
    exact pageIndex_pageAddr hfit hk
  have hrange : (k ≤ j ∧ j < k + 1 ∧ j < s.alloc.bitmap.bitCount) ↔ j = k := by
    rw [hi.bitCount_eq]
    omega
  simp only [addrFreePage, hidx, bitAt_bitmapSetBit, hrange]
  simp

/-- Every call keeps the invariant. -/
theorem pageInv_step {size : UInt32} (hfit : memExtStart.toNat + size.toNat < 2 ^ 32)
    (s : PageUse) (e : PageEvent) (s' : PageUse) (hi : PageInv size s)
    (hs : pageStep s e = some s') : PageInv size s' := by
  cases e with
  | alloc =>
    simp only [pageStep, Option.some.injEq] at hs
    subst hs
    rcases addrAllocPage_one hi with ⟨k, hk, hb, he⟩ | ⟨-, he⟩
    · have hne : pageAddr k ≠ 0 := pageAddr_ne_zero hfit hk
      have hnew : pageAddr k ∉ s.held := fun h => by simp [(hi.held_iff k hk).mp h] at hb
      rw [he]
      simp only [hne, if_false]
      refine ⟨hi.start_eq, hi.pageSize_eq, by simpa using hi.bitCount_eq,
        List.nodup_cons.mpr ⟨hnew, hi.nodup⟩, ?_, ?_⟩
      · intro addr haddr
        rcases List.mem_cons.mp haddr with rfl | haddr
        · exact ⟨k, hk, rfl⟩
        · exact hi.page_of_held addr haddr
      · intro j hj
        have hrange : (k ≤ j ∧ j < k + 1 ∧ j < s.alloc.bitmap.bitCount) ↔ j = k := by
          rw [hi.bitCount_eq]
          omega
        rw [List.mem_cons, bitAt_bitmapSetBit, hi.held_iff j hj]
        simp only [hrange]
        by_cases hjk : j = k
        · have hset : ¬ (~~~(0 : Int)) = 0 := by decide
          simp [hjk, hset]
        · have hne' : pageAddr j ≠ pageAddr k := fun h => hjk (pageAddr_inj hfit hj hk h)
          simp [hjk, hne']
    · rw [he]
      simpa using hi
  | free addr =>
    simp only [pageStep] at hs
    split at hs
    · rename_i hmem
      rw [Option.some.injEq] at hs
      subst hs
      obtain ⟨k, hk, rfl⟩ := hi.page_of_held addr hmem
      refine ⟨hi.start_eq, hi.pageSize_eq, by simpa [addrFreePage] using hi.bitCount_eq,
        hi.nodup.erase _, ?_, ?_⟩
      · intro a ha
        exact hi.page_of_held a (List.mem_of_mem_erase ha)
      · intro j hj
        rw [hi.nodup.mem_erase_iff, hi.held_iff j hj, bitAt_addrFreePage hi hfit hk j]
        by_cases hjk : j = k
        · simp [hjk]
        · have hne : pageAddr j ≠ pageAddr k := fun h => hjk (pageAddr_inj hfit hj hk h)
          simp [hjk, hne]
    · exact absurd hs (by simp)

/-! ## The allocator over whole runs -/

/-- After any sequence of single-page allocations and frees of held pages,
a nonzero result is an aligned page of the range that nobody holds, the
result is 0 exactly when every page is held, a page is free exactly when
it is not held, and freeing a held page frees that page and no other. -/
theorem addrAlloc_run_ok (bits : Nat → UInt8) (size : UInt32)
    (hfit : memExtStart.toNat + size.toNat < 2 ^ 32) (es : List PageEvent) (s : PageUse)
    (hrun : run pageStep (pageInit bits size) es = some s) :
    ((addrAllocPage s.alloc 1).2 ≠ 0 →
        memPageSize.toNat ∣ (addrAllocPage s.alloc 1).2.toNat ∧
        memExtStart ≤ (addrAllocPage s.alloc 1).2 ∧
        (addrAllocPage s.alloc 1).2.toNat + memPageSize.toNat ≤ memExtStart.toNat + size.toNat ∧
        (addrAllocPage s.alloc 1).2 ∉ s.held) ∧
    ((addrAllocPage s.alloc 1).2 = 0 ↔
        ∀ k < size.toNat / memPageSize.toNat, pageAddr k ∈ s.held) ∧
    (∀ k < size.toNat / memPageSize.toNat, PageFree s.alloc k ↔ pageAddr k ∉ s.held) ∧
    (∀ addr ∈ s.held, ∀ k < size.toNat / memPageSize.toNat,
        PageFree (addrFreePage s.alloc addr 1) k ↔ pageAddr k = addr ∨ PageFree s.alloc k) := by
  have hi : PageInv size s :=
    run_invariant (pageInv_step hfit) (pageInv_init bits size) hrun
  have hn : (size / memPageSize).toNat = size.toNat / memPageSize.toNat := UInt32.toNat_div _ _
  rw [← hn]
  refine ⟨?_, ?_, ?_, ?_⟩
  · intro hne
    rcases addrAllocPage_one hi with ⟨k, hk, hb, he⟩ | ⟨-, he⟩
    · have ha := toNat_pageAddr hfit hk
      have hs : memExtStart.toNat = 1048576 := by decide
      have hp : memPageSize.toNat = 4096 := by decide
      rw [hn, hp] at hk
      rw [he]
      refine ⟨?_, ?_, ?_, ?_⟩
      · rw [ha, hp]
        omega
      · rw [UInt32.le_iff_toNat_le, ha, hs]
        omega
      · rw [ha, hs, hp]
        omega
      · rw [hi.held_iff k (by rw [hn, hp]; exact hk), hb]
        simp
    · exact absurd (by rw [he]) hne
  · constructor
    · intro h0
      rcases addrAllocPage_one hi with ⟨k, hk, hb, he⟩ | ⟨hb, -⟩
      · rw [he] at h0
        exact absurd h0 (pageAddr_ne_zero hfit hk)
      · exact fun k hk => (hi.held_iff k hk).mpr (hb k hk)
    · intro hall
      rcases addrAllocPage_one hi with ⟨k, hk, hb, -⟩ | ⟨-, he⟩
      · rw [(hi.held_iff k hk).mp (hall k hk)] at hb
        exact absurd hb (by simp)
      · rw [he]
  · intro k hk
    rw [pageFree_iff, hi.held_iff k hk, Bool.not_eq_true]
  · intro addr haddr k hk
    obtain ⟨j, hj, rfl⟩ := hi.page_of_held addr haddr
    rw [pageFree_iff, pageFree_iff, bitAt_addrFreePage hi hfit hj k]
    by_cases hkj : k = j
    · simp [hkj]
    · have hne : pageAddr k ≠ pageAddr j := fun h => hkj (pageAddr_inj hfit hk hj h)
      simp [hkj, hne]

/-- The rule at two pages of memory, both handed out and the first given
back: a later allocation returns the first page again. -/
theorem addrAlloc_run_ok_two_pages :
    ∃ s, run pageStep (pageInit (fun _ => 0xFF) 8192)
        [.alloc, .alloc, .free memExtStart] = some s ∧
      (∀ k < 2, PageFree s.alloc k ↔ pageAddr k ∉ s.held) := by
  obtain ⟨s, hs⟩ := Option.isSome_iff_exists.mp
    (show (run pageStep (pageInit (fun _ => 0xFF) 8192)
      [.alloc, .alloc, .free memExtStart]).isSome = true by decide)
  exact ⟨s, hs, (addrAlloc_run_ok (fun _ => 0xFF) 8192 (by decide) _ s hs).2.2.1⟩

end Wjos
