/-
Wjos.Core.MemoryInit — the memory that `memory_init` gives to the page
allocator: `total_memory_size` and the first half of `memory_init` of
`kernel/core/memory.c`, over the `boot_info_t` of `comm/boot_info.h`.

The range starts at `MEM_EXT_START`, and its length is the 32-bit sum of the
sizes of all regions less 1 MB. Where the regions lie does not enter.
`PageReal` is what the rest of the kernel relies on: the page is memory that
was reported, and `create_kernel_table` maps it to itself, as it does from
`MEM_EXT_START` to `MEM_EXT_END`. `memoryInit_real_iff` says for which memory
maps all pages of the range are that.
-/
import Wjos.Core.AddrAlloc
import Wjos.Lib.Tiling
import Wjos.Tools.Klib

namespace Wjos

open Lib

/-- `MEM_EXT_END`. -/
def memExtEnd : UInt32 := 127 * 1024 * 1024

/-- `BOOT_RAM_REGION_MAX`. -/
def bootRamRegionMax : Nat := 10

/-- An entry of `ram_region_cfg`. -/
structure RamRegion where
  start : UInt32
  size : UInt32
  deriving DecidableEq, Repr

/-- Where the last whole page of a region ends. -/
def RamRegion.pageEnd (region : RamRegion) : Nat :=
  (region.start.toNat + region.size.toNat) / 4096 * 4096

/-- `boot_info_t`: the entries in use. -/
structure BootInfo where
  ramRegionCfg : List RamRegion
  count_le : ramRegionCfg.length ≤ bootRamRegionMax

/-- `total_memory_size`. -/
def totalMemorySize (bootInfo : BootInfo) : UInt32 :=
  bootInfo.ramRegionCfg.foldl (fun memSize region => memSize + region.size) 0

/-- `memory_init` up to the call of `addr_alloc_init`; `memFree` is the
memory behind the kernel, where the map is placed. -/
def memoryInitAlloc (memFree : Nat → UInt8) (bootInfo : BootInfo) : AddrAlloc :=
  let memUp1MBFree := totalMemorySize bootInfo - memExtStart
  let memUp1MBFree := UInt32.ofNat (down2 memUp1MBFree.toNat memPageSize.toNat)
  addrAllocInit memFree memExtStart memUp1MBFree memPageSize

/-! ## Real memory -/

/-- The page at `p` lies inside a reported region. -/
def InRegion (bootInfo : BootInfo) (p : Nat) : Prop :=
  ∃ region ∈ bootInfo.ramRegionCfg,
    region.start.toNat ≤ p ∧ p + 4096 ≤ region.start.toNat + region.size.toNat

/-- The page at `p` is memory, above 1 MB, that the kernel maps to itself. -/
structure PageReal (bootInfo : BootInfo) (p : Nat) : Prop where
  inRegion : InRegion bootInfo p
  ext_start : memExtStart.toNat ≤ p
  ext_end : p + 4096 ≤ memExtEnd.toNat

/-- All pages of the range of an allocator. -/
def RangeReal (bootInfo : BootInfo) (alloc : AddrAlloc) : Prop :=
  ∀ k < alloc.size.toNat / alloc.pageSize.toNat,
    PageReal bootInfo (alloc.start.toNat + k * alloc.pageSize.toNat)

/-- The sizes of the regions, added up in 32 bits. -/
def reported (bootInfo : BootInfo) : Nat :=
  (bootInfo.ramRegionCfg.map fun region => region.size.toNat).sum % 4294967296

/-- The memory maps that suit `memory_init`: the sizes add up to at least
1 MB and to less than one page more than 127 MB, and from 1 MB up to the
sum there is no gap: a region holds the page at 1 MB, and where a region
ends below the sum another one goes on. -/
structure MemoryFits (bootInfo : BootInfo) : Prop where
  low : 1048576 ≤ reported bootInfo
  high : reported bootInfo < 133169152 + 4096
  first : 1048576 + 4096 ≤ reported bootInfo → InRegion bootInfo 1048576
  gapless : ∀ region ∈ bootInfo.ramRegionCfg, 1048576 < region.pageEnd →
    region.start.toNat + 4096 ≤ region.pageEnd → region.pageEnd + 4096 ≤ reported bootInfo →
      InRegion bootInfo region.pageEnd

/-! ## The size of the range -/

theorem toNat_totalMemorySize (bootInfo : BootInfo) :
    (totalMemorySize bootInfo).toNat = reported bootInfo := by
  have hfold : ∀ (regions : List RamRegion) (memSize : UInt32),
      (regions.foldl (fun memSize region => memSize + region.size) memSize).toNat =
        (memSize.toNat + (regions.map fun region => region.size.toNat).sum) % 4294967296 := by
    intro regions
    induction regions with
    | nil =>
      intro memSize
      have := memSize.toNat_lt
      simp only [List.foldl_nil, List.map_nil, List.sum_nil]
      omega
    | cons region regions ih =>
      intro memSize
      rw [List.foldl_cons, ih, UInt32.toNat_add, List.map_cons, List.sum_cons]
      omega
  rw [totalMemorySize, hfold, reported]
  simp

/-- The number of pages: what lies between 1 MB and the sum, or, for a sum
below 1 MB, almost all of the 4 GB that the subtraction wraps to. -/
theorem memoryInitAlloc_size (memFree : Nat → UInt8) (bootInfo : BootInfo) :
    (memoryInitAlloc memFree bootInfo).size.toNat / 4096 =
      (reported bootInfo + 4293918720) % 4294967296 / 4096 := by
  have hone : memExtStart.toNat = 1048576 := rfl
  have hsub : (totalMemorySize bootInfo - memExtStart).toNat =
      (reported bootInfo + 4293918720) % 4294967296 := by
    rw [UInt32.toNat_sub, toNat_totalMemorySize, hone]
    omega
  have hdown : down2 (totalMemorySize bootInfo - memExtStart).toNat memPageSize.toNat =
      (reported bootInfo + 4293918720) % 4294967296 / 4096 * 4096 := by
    rw [hsub]
    exact down2_eq (k := 12) (by decide) (by omega)
  have hsize : (memoryInitAlloc memFree bootInfo).size.toNat =
      (reported bootInfo + 4293918720) % 4294967296 / 4096 * 4096 := by
    simp only [memoryInitAlloc, addrAllocInit]
    rw [hdown, UInt32.toNat_ofNat_of_lt' (show _ < 2 ^ 32 by omega)]
  rw [hsize]
  omega

/-- A region holds the pages from its first whole one to its last. -/
theorem inRegion_iff {bootInfo : BootInfo} {k : Nat} :
    InRegion bootInfo (k * 4096) ↔ ∃ region ∈ bootInfo.ramRegionCfg,
      (region.start.toNat + 4095) / 4096 ≤ k ∧
        k < (region.start.toNat + region.size.toNat) / 4096 := by
  constructor
  · rintro ⟨region, hmem, h₁, h₂⟩
    exact ⟨region, hmem, by omega, by omega⟩
  · rintro ⟨region, hmem, h₁, h₂⟩
    exact ⟨region, hmem, by omega, by omega⟩

/-- Every page from 1 MB up to `n` pages further lies in a region exactly
when the first one does and no region ends in between without another one
going on. -/
theorem pages_inRegion_iff {bootInfo : BootInfo} {n : Nat} :
    (∀ k < n, InRegion bootInfo (1048576 + k * 4096)) ↔
      (0 < n → InRegion bootInfo 1048576) ∧
      ∀ region ∈ bootInfo.ramRegionCfg, 1048576 < region.pageEnd →
        region.start.toNat + 4096 ≤ region.pageEnd → region.pageEnd + 4096 ≤ 1048576 + n * 4096 →
          InRegion bootInfo region.pageEnd := by
  have hcells : (∀ k < n, InRegion bootInfo (1048576 + k * 4096)) ↔
      ∀ k, 256 ≤ k → k < 256 + n → ∃ region ∈ bootInfo.ramRegionCfg,
        (region.start.toNat + 4095) / 4096 ≤ k ∧
          k < (region.start.toNat + region.size.toNat) / 4096 := by
    constructor
    · intro h k hlo hhi
      have hk := h (k - 256) (by omega)
      rwa [show 1048576 + (k - 256) * 4096 = k * 4096 by omega, inRegion_iff] at hk
    · intro h k hk
      rw [show 1048576 + k * 4096 = (256 + k) * 4096 by omega, inRegion_iff]
      exact h (256 + k) (by omega) (by omega)
  rw [hcells, covered_iff]
  refine and_congr ?_ (forall₂_congr fun region _ => ?_)
  · rw [show (1048576 : Nat) = 256 * 4096 by rfl, inRegion_iff]
    exact imp_congr_left (by omega)
  · rw [RamRegion.pageEnd, inRegion_iff]
    constructor
    · intro h h₁ h₂ h₃
      exact h (by omega) (by omega) (by omega)
    · intro h h₁ h₂ h₃
      exact h (by omega) (by omega) (by omega)

/-- `memory_init` gives the allocator nothing but real pages exactly on the
memory maps of `MemoryFits`. -/
theorem memoryInit_real_iff (memFree : Nat → UInt8) (bootInfo : BootInfo) :
    RangeReal bootInfo (memoryInitAlloc memFree bootInfo) ↔ MemoryFits bootInfo := by
  have hrep : reported bootInfo < 4294967296 := Nat.mod_lt _ (by decide)
  have hstart : (memoryInitAlloc memFree bootInfo).start.toNat = 1048576 := rfl
  have hpage : (memoryInitAlloc memFree bootInfo).pageSize.toNat = 4096 := rfl
  have hone : memExtStart.toNat = 1048576 := rfl
  have hend : memExtEnd.toNat = 133169152 := rfl
  unfold RangeReal
  rw [hstart, hpage, memoryInitAlloc_size]
  constructor
  · intro h
    have hfew : (reported bootInfo + 4293918720) % 4294967296 / 4096 ≤ 32256 := by
      by_contra hmany
      have hlast := (h 32256 (by omega)).ext_end
      omega
    have hn : (reported bootInfo + 4293918720) % 4294967296 = reported bootInfo - 1048576 ∧
        1048576 ≤ reported bootInfo := by omega
    rw [hn.1] at h hfew
    obtain ⟨hfirst, hgap⟩ := pages_inRegion_iff.mp fun k hk => (h k hk).inRegion
    refine ⟨hn.2, by omega, fun hp => hfirst (by omega), fun region hmem h₁ h₂ h₃ => ?_⟩
    refine hgap region hmem h₁ h₂ ?_
    unfold RamRegion.pageEnd at h₃ ⊢
    omega
  · intro h
    have hlow := h.low
    have hhigh := h.high
    have hn : (reported bootInfo + 4293918720) % 4294967296 = reported bootInfo - 1048576 := by
      omega
    rw [hn]
    have hall : ∀ k < (reported bootInfo - 1048576) / 4096,
        InRegion bootInfo (1048576 + k * 4096) :=
      pages_inRegion_iff.mpr ⟨fun hp => h.first (by omega), fun region hmem h₁ h₂ h₃ =>
        h.gapless region hmem h₁ h₂ (by omega)⟩
    exact fun k hk => ⟨hall k hk, by omega, by omega⟩

/-- A machine with 128 MB: 639 KB below 1 MB and one region above it that
ends 128 KB below 128 MB. The range goes on past `MEM_EXT_END`. -/
theorem range_past_ext_end :
    ¬ ∀ (memFree : Nat → UInt8) (bootInfo : BootInfo),
      RangeReal bootInfo (memoryInitAlloc memFree bootInfo) := by
  intro h
  have hbad := (h (fun _ => 0) ⟨[⟨0, 0x9FC00⟩, ⟨0x100000, 0x7EE0000⟩], by decide⟩ 32256
    (by decide)).ext_end
  revert hbad
  decide

end Wjos
