/-
Wjos.Tools.Bitmap — `kernel/tools/bitmap.c`: the bit array under the page
allocator.

A `Bitmap` is the C struct: the number of bits and the bytes behind
`bits`, read as a function of the byte index. The functions keep the
source's argument order and its return values: `bitmapGetBit` returns the
MASKED byte (`bits[i/8] & (1 << (i%8))`), not a normalised bit, and
`bitmapAllocNbits` compares that masked value with its argument `bit` and
writes the complement `~bit`.

`bitAt` is the abstract view, one `Bool` per index; the lemmas below say
what each function does to it.
-/
import Mathlib.Data.Nat.Bitwise
import Mathlib.Tactic.Common

namespace Wjos

/-- `bitmap_t`. The counts passed to it are nonnegative `int`s. -/
structure Bitmap where
  bitCount : Nat
  bits : Nat → UInt8

/-- `bitmap_byte_count`. -/
def bitmapByteCount (bitCount : Nat) : Nat := (bitCount + 8 - 1) / 8

/-- `bitmap_init`: the first `bitmapByteCount count` bytes of the buffer
become `0xFF` or `0`; the memory behind them keeps its contents. -/
def bitmapInit (bits : Nat → UInt8) (count : Nat) (initBit : Int) : Bitmap where
  bitCount := count
  bits := fun i =>
    if i < bitmapByteCount count then (if initBit ≠ 0 then 0xFF else 0) else bits i

/-- `1 << (index % 8)` as a byte. -/
def bitMask (index : Nat) : UInt8 := 1 <<< UInt8.ofNat (index % 8)

/-- `bitmap_get_bit`: the masked byte. -/
def bitmapGetBit (bm : Bitmap) (index : Nat) : Nat :=
  (bm.bits (index / 8) &&& bitMask index).toNat

/-- One store of the loop of `bitmap_set_bit`. -/
def bitmapPutBit (bm : Bitmap) (index : Nat) (bit : Int) : Bitmap :=
  { bm with
    bits := Function.update bm.bits (index / 8)
      (if bit ≠ 0 then bm.bits (index / 8) ||| bitMask index
       else bm.bits (index / 8) &&& ~~~bitMask index) }

/-- `bitmap_set_bit`: `count` positions from `index`, cut off at the end
of the map. -/
def bitmapSetBit (bm : Bitmap) (index : Nat) : Nat → Int → Bitmap
  | 0, _ => bm
  | count + 1, bit =>
    if index < bm.bitCount then
      bitmapSetBit (bitmapPutBit bm index bit) (index + 1) count bit
    else bm

/-- `bitmap_is_set`. -/
def bitmapIsSet (bm : Bitmap) (index : Nat) : Nat :=
  if bitmapGetBit bm index ≠ 0 then 1 else 0

/-- The inner `for` of `bitmap_alloc_nbits`, from its loop state
`(i, search_index, ok_index)`; the first argument bounds the iterations
by `count`. A mismatch leaves the loop with `ok_index = -1`. -/
def bitmapMatchRun (bm : Bitmap) (bit : Int) (count : Nat) :
    Nat → Nat → Nat → Int → Nat × Nat × Int
  | 0, i, search, ok => (i, search, ok)
  | fuel + 1, i, search, ok =>
    if i < count ∧ search < bm.bitCount then
      if (bitmapGetBit bm search : Int) ≠ bit then (i, search + 1, -1)
      else bitmapMatchRun bm bit count fuel (i + 1) (search + 1) ok
    else (i, search, ok)

/-- The outer `while` of `bitmap_alloc_nbits`. Every iteration that does
not return advances `search_index`, so `bit_count` iterations suffice. -/
def bitmapSearch (bm : Bitmap) (bit : Int) (count : Nat) : Nat → Nat → Bitmap × Int
  | 0, _ => (bm, -1)
  | fuel + 1, search =>
    if search < bm.bitCount then
      if (bitmapGetBit bm search : Int) ≠ bit then
        bitmapSearch bm bit count fuel (search + 1)
      else
        let r := bitmapMatchRun bm bit count count 1 search search
        if r.1 ≥ count then (bitmapSetBit bm r.2.2.toNat count (~~~bit), r.2.2)
        else bitmapSearch bm bit count fuel r.2.1
    else (bm, -1)

/-- `bitmap_alloc_nbits`: the map after the call and the returned index. -/
def bitmapAllocNbits (bm : Bitmap) (bit : Int) (count : Nat) : Bitmap × Int :=
  bitmapSearch bm bit count bm.bitCount 0

/-! ## The abstract view -/

/-- The bit at `index`. -/
def bitAt (bm : Bitmap) (index : Nat) : Bool :=
  (bm.bits (index / 8)).toNat.testBit (index % 8)

theorem toNat_bitMask (index : Nat) : (bitMask index).toNat = 2 ^ (index % 8) := by
  have h : index % 8 < 8 := Nat.mod_lt _ (by decide)
  have hall : ∀ k < 8, ((1 : UInt8) <<< UInt8.ofNat k).toNat = 2 ^ k := by decide
  exact hall _ h

/-- `bitmap_get_bit` is zero exactly on a clear bit. -/
theorem bitmapGetBit_eq_zero (bm : Bitmap) (index : Nat) :
    bitmapGetBit bm index = 0 ↔ bitAt bm index = false := by
  rw [bitmapGetBit, UInt8.toNat_and, toNat_bitMask, Nat.and_two_pow, bitAt]
  cases (bm.bits (index / 8)).toNat.testBit (index % 8) <;> simp

theorem bitmapIsSet_eq (bm : Bitmap) (index : Nat) :
    bitmapIsSet bm index = if bitAt bm index then 1 else 0 := by
  rw [bitmapIsSet]
  by_cases h : bitmapGetBit bm index = 0
  · simp [h, (bitmapGetBit_eq_zero bm index).mp h]
  · have hb : bitAt bm index = true := by
      rw [← Bool.not_eq_false]
      exact fun hf => h ((bitmapGetBit_eq_zero bm index).mpr hf)
    simp [h, hb]

@[simp] theorem bitCount_bitmapPutBit (bm : Bitmap) (index : Nat) (bit : Int) :
    (bitmapPutBit bm index bit).bitCount = bm.bitCount := rfl

/-- One store writes one bit. -/
theorem bitAt_bitmapPutBit (bm : Bitmap) (index : Nat) (bit : Int) (j : Nat) :
    bitAt (bitmapPutBit bm index bit) j = if j = index then decide (bit ≠ 0) else bitAt bm j := by
  by_cases hb : j / 8 = index / 8
  · have hne : j = index ↔ j % 8 = index % 8 :=
      ⟨fun h => by rw [h], fun h => by omega⟩
    have hlt : j % 8 < 8 := Nat.mod_lt _ (by decide)
    by_cases hbit : bit = 0
    · simp only [bitAt, bitmapPutBit, hb, Function.update_self, hbit, ne_eq, not_true_eq_false,
        if_false, UInt8.toNat_and, UInt8.toNat_not, Nat.testBit_and]
      have hsub : (UInt8.size - 1 - (bitMask index).toNat).testBit (j % 8)
          = !decide (j % 8 = index % 8) := by
        rw [toNat_bitMask]
        have hall : ∀ a < 8, ∀ b < 8,
            (UInt8.size - 1 - 2 ^ b).testBit a = !decide (a = b) := by decide
        exact hall _ hlt _ (Nat.mod_lt _ (by decide))
      rw [hsub]
      by_cases hj : j = index
      · simp [hj]
      · have hj' : ¬ j % 8 = index % 8 := fun h => hj (hne.mpr h)
        simp [hj, hj']
    · simp only [bitAt, bitmapPutBit, hb, Function.update_self, hbit, ne_eq, not_false_eq_true,
        if_true, UInt8.toNat_or, Nat.testBit_or, toNat_bitMask, Nat.testBit_two_pow]
      by_cases hj : j = index
      · simp [hj]
      · have hj' : ¬ index % 8 = j % 8 := fun h => hj (hne.mpr h.symm)
        simp [hj, hj']
  · have hj : j ≠ index := fun h => hb (by rw [h])
    simp [bitAt, bitmapPutBit, Function.update_of_ne hb, hj]

@[simp] theorem bitCount_bitmapSetBit (bm : Bitmap) (index count : Nat) (bit : Int) :
    (bitmapSetBit bm index count bit).bitCount = bm.bitCount := by
  induction count generalizing bm index with
  | zero => rfl
  | succ count ih =>
    rw [bitmapSetBit]
    split
    · rw [ih, bitCount_bitmapPutBit]
    · rfl

/-- `bitmap_set_bit` writes exactly the positions of its range that lie
inside the map. -/
theorem bitAt_bitmapSetBit (bm : Bitmap) (index count : Nat) (bit : Int) (j : Nat) :
    bitAt (bitmapSetBit bm index count bit) j =
      if index ≤ j ∧ j < index + count ∧ j < bm.bitCount then decide (bit ≠ 0)
      else bitAt bm j := by
  induction count generalizing bm index with
  | zero =>
    have h : ¬ (index ≤ j ∧ j < index + 0 ∧ j < bm.bitCount) := by omega
    rw [if_neg h, bitmapSetBit]
  | succ count ih =>
    rw [bitmapSetBit]
    by_cases hi : index < bm.bitCount
    · rw [if_pos hi, ih, bitCount_bitmapPutBit, bitAt_bitmapPutBit]
      by_cases hj : j = index
      · subst hj
        have h₁ : ¬ (j + 1 ≤ j ∧ j < j + 1 + count ∧ j < bm.bitCount) := by omega
        have h₂ : j ≤ j ∧ j < j + (count + 1) ∧ j < bm.bitCount := by omega
        rw [if_neg h₁, if_pos h₂, if_pos rfl]
      · rw [if_neg hj]
        refine if_congr ?_ rfl rfl
        omega
    · have h : ¬ (index ≤ j ∧ j < index + (count + 1) ∧ j < bm.bitCount) := by omega
      rw [if_neg hi, if_neg h]

/-- A map set up with `init_bit = 0` has no bit set. -/
theorem bitAt_bitmapInit_zero (bits : Nat → UInt8) {count j : Nat} (hj : j < count) :
    bitAt (bitmapInit bits count 0) j = false := by
  have h : j / 8 < bitmapByteCount count := by rw [bitmapByteCount]; omega
  simp [bitAt, bitmapInit, h]

/-- A map is its bits. -/
theorem bitmap_ext {bm bm' : Bitmap} (hc : bm.bitCount = bm'.bitCount)
    (h : ∀ j, bitAt bm j = bitAt bm' j) : bm = bm' := by
  have hbits : bm.bits = bm'.bits := by
    funext i
    apply UInt8.toNat_inj.mp
    apply Nat.eq_of_testBit_eq
    intro b
    by_cases hb : b < 8
    · have hj := h (8 * i + b)
      rwa [bitAt, bitAt, show (8 * i + b) / 8 = i by omega, show (8 * i + b) % 8 = b by omega] at hj
    · have hpow : 2 ^ 8 ≤ 2 ^ b := Nat.pow_le_pow_right (by decide) (by omega)
      have h₁ := (bm.bits i).toNat_lt
      have h₂ := (bm'.bits i).toNat_lt
      rw [Nat.testBit_lt_two_pow (by omega), Nat.testBit_lt_two_pow (by omega)]
  cases bm
  cases bm'
  simp_all

/-! ## Single-bit allocation -/

/-- With `bit = 0` and `count = 1` the search stops at the first clear
bit from `search` on and sets it, or finds every bit set. -/
theorem bitmapSearch_one (bm : Bitmap) (fuel search : Nat)
    (hf : bm.bitCount ≤ search + fuel) :
    (∃ k, search ≤ k ∧ k < bm.bitCount ∧ bitAt bm k = false ∧
        (∀ j, search ≤ j → j < k → bitAt bm j = true) ∧
        bitmapSearch bm 0 1 fuel search = (bitmapSetBit bm k 1 (~~~0), (k : Int))) ∨
      ((∀ j, search ≤ j → j < bm.bitCount → bitAt bm j = true) ∧
        bitmapSearch bm 0 1 fuel search = (bm, -1)) := by
  induction fuel generalizing search with
  | zero => exact Or.inr ⟨fun j h₁ h₂ => absurd h₂ (by omega), rfl⟩
  | succ fuel ih =>
    by_cases hs : search < bm.bitCount
    · by_cases hb : bitAt bm search = false
      · refine Or.inl ⟨search, le_rfl, hs, hb, fun j h₁ h₂ => absurd h₂ (by omega), ?_⟩
        have hg : bitmapGetBit bm search = 0 := (bitmapGetBit_eq_zero bm search).mpr hb
        simp [bitmapSearch, hs, hg, bitmapMatchRun]
      · have hg : bitmapGetBit bm search ≠ 0 :=
          fun h => hb ((bitmapGetBit_eq_zero bm search).mp h)
        have hbt : bitAt bm search = true := by simpa using hb
        have hstep : bitmapSearch bm 0 1 (fuel + 1) search
            = bitmapSearch bm 0 1 fuel (search + 1) := by
          simp [bitmapSearch, hs, hg]
        rw [hstep]
        have hext : ∀ n, (∀ j, search + 1 ≤ j → j < n → bitAt bm j = true) →
            ∀ j, search ≤ j → j < n → bitAt bm j = true := by
          intro n h j h₁ h₂
          rcases Nat.eq_or_lt_of_le h₁ with rfl | h₃
          · exact hbt
          · exact h j h₃ h₂
        rcases ih (search + 1) (by omega) with ⟨k, h₁, h₂, h₃, h₄, h₅⟩ | ⟨h₁, h₂⟩
        · exact Or.inl ⟨k, by omega, h₂, h₃, hext k h₄, h₅⟩
        · exact Or.inr ⟨hext _ h₁, h₂⟩
    · exact Or.inr ⟨fun j h₁ h₂ => absurd h₂ (by omega), by simp [bitmapSearch, hs]⟩

/-- `bitmap_alloc_nbits(bitmap, 0, 1)` claims the first clear bit, or
returns `-1` on a full map. -/
theorem bitmapAllocNbits_one (bm : Bitmap) :
    (∃ k, k < bm.bitCount ∧ bitAt bm k = false ∧
        bitmapAllocNbits bm 0 1 = (bitmapSetBit bm k 1 (~~~0), (k : Int)) ∧
        ∀ j < k, bitAt bm j = true) ∨
      ((∀ j, j < bm.bitCount → bitAt bm j = true) ∧ bitmapAllocNbits bm 0 1 = (bm, -1)) := by
  rcases bitmapSearch_one bm bm.bitCount 0 (by omega) with ⟨k, -, h₁, h₂, h₃, h₄⟩ | ⟨h₁, h₂⟩
  · exact Or.inl ⟨k, h₁, h₂, h₄, fun j hj => h₃ j (Nat.zero_le _) hj⟩
  · exact Or.inr ⟨fun j hj => h₁ j (Nat.zero_le _) hj, h₂⟩

end Wjos
