/-
Wjos.Cpu.Gdt — the descriptors of `kernel/cpu/cpu.c`.

Of `gdt_table` only the field `attr` of each descriptor decides anything: a
descriptor is free when it is 0. `Gdt` is that field by index; a selector is
8 times an index. `gdt_alloc_desc` only looks for a free descriptor, and it
is `segment_desc_set` that makes it one in use.
-/
import Mathlib.Logic.Function.Basic
import Wjos.Lib.Search

namespace Wjos

open Lib

/-- `GDT_TABLE_SIZE`. -/
def gdtTableSize : Nat := 256

/-- `sizeof(segment_desc_t)`. -/
def segmentDescSize : Nat := 8

/-- The field `attr` of each descriptor of `gdt_table`. -/
abbrev Gdt := Nat → Nat

/-- The field `attr` that `segment_desc_set` stores. -/
def segmentAttr (limit attr : Nat) : Nat :=
  if limit > 0xFFFFF then attr ||| 0x8000 ||| limit / 0x1000 / 0x10000 % 0x10 * 0x100
  else attr ||| limit / 0x10000 % 0x10 * 0x100

/-- `segment_desc_set`. -/
def segmentDescSet (gdt : Gdt) (selector limit attr : Nat) : Gdt :=
  Function.update gdt (selector / segmentDescSize) (segmentAttr limit attr)

/-- `gdt_alloc_desc`: the search starts at index 1. -/
def gdtAllocDesc (gdt : Gdt) : Int :=
  match findSlot (fun i => gdt i = 0) (gdtTableSize - 1) 1 with
  | some i => (i * segmentDescSize : Nat)
  | none => -1

/-- `gdt_free_sel`. -/
def gdtFreeSel (gdt : Gdt) (sel : Nat) : Gdt := Function.update gdt (sel / segmentDescSize) 0

/-- The attributes of a TSS: `SEG_P_PRESENT | SEG_DPL_0 | SEG_TYPE_TSS`. -/
def segTss : Nat := 0x89

/-- `sizeof(tss_t)`. -/
def tssSize : Nat := 104

/-- A selector that was found is that of a free descriptor. -/
theorem gdtAllocDesc_free {gdt : Gdt} (h : ¬ gdtAllocDesc gdt < 0) :
    ∃ i, 0 < i ∧ i < gdtTableSize ∧ gdtAllocDesc gdt = (i * segmentDescSize : Nat) ∧ gdt i = 0 := by
  unfold gdtAllocDesc at h ⊢
  cases hf : findSlot (fun i => gdt i = 0) (gdtTableSize - 1) 1 with
  | none =>
    rw [hf] at h
    exact absurd (by decide) h
  | some i =>
    obtain ⟨hp, h₁, h₂⟩ := findSlot_eq_some hf
    have hs : gdtTableSize = 256 := rfl
    exact ⟨i, h₁, by omega, rfl, by simpa using hp⟩

end Wjos
