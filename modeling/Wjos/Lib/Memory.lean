/-
Wjos.Lib.Memory — memory as a function from addresses to cells.

`copyTo dest pos n src` is `dest` with the first `n` cells of `src` copied
to `pos`. `le16`, `le32` read a little-endian number from byte memory and
`put16`, `put32` store one. The lemmas say what a read sees after a copy
or a store: inside the range the new cell, outside the old one. `wordMem`
is memory that is given by its words.
-/
import Mathlib.Tactic.Common
import Mathlib.Data.UInt

namespace Wjos.Lib

section Copy

variable {α : Type*} {dest src src' : Nat → α} {pos n k a : Nat}

/-- `dest` with `n` cells of `src` copied to `pos`. -/
def copyTo (dest : Nat → α) (pos n : Nat) (src : Nat → α) : Nat → α :=
  fun a => if pos ≤ a ∧ a < pos + n then src (a - pos) else dest a

theorem copyTo_of_mem (h₁ : pos ≤ a) (h₂ : a < pos + n) :
    copyTo dest pos n src a = src (a - pos) := if_pos ⟨h₁, h₂⟩

theorem copyTo_of_lt (h : a < pos) : copyTo dest pos n src a = dest a :=
  if_neg fun h' => Nat.not_le_of_lt h h'.1

theorem copyTo_of_ge (h : pos + n ≤ a) : copyTo dest pos n src a = dest a :=
  if_neg fun h' => Nat.not_le_of_lt h'.2 h

/-- Reading back at an offset into the copied range. -/
theorem copyTo_add {i : Nat} (h : i < n) : copyTo dest pos n src (pos + i) = src i := by
  rw [copyTo_of_mem (Nat.le_add_right pos i) (Nat.add_lt_add_left h pos), Nat.add_sub_cancel_left]

/-- A copy to the start of a buffer. -/
theorem copyTo_zero_of_lt (h : a < n) : copyTo dest 0 n src a = src a := by
  rw [copyTo_of_mem (Nat.zero_le a) (by omega), Nat.sub_zero]

/-- Only the cells that are copied matter. -/
theorem copyTo_congr (h : ∀ i < n, src i = src' i) :
    copyTo dest pos n src = copyTo dest pos n src' := by
  funext a
  unfold copyTo
  split
  next ha => exact h _ (by omega)
  · rfl

/-- A copy of what is there already. -/
theorem copyTo_self : copyTo dest pos n (fun i => dest (pos + i)) = dest := by
  funext a
  unfold copyTo
  split
  next h => exact congrArg dest (Nat.add_sub_cancel' h.1)
  · rfl

theorem copyTo_none (dest src : Nat → α) (pos : Nat) : copyTo dest pos 0 src = dest := by
  funext a
  exact if_neg (by omega)

/-- A copy that goes on where another one ended. -/
theorem copyTo_append (h : ∀ i < k, src' i = src (n + i)) :
    copyTo (copyTo dest pos n src) (pos + n) k src' = copyTo dest pos (n + k) src := by
  funext a
  by_cases hlt : a < pos
  · rw [copyTo_of_lt (by omega), copyTo_of_lt hlt, copyTo_of_lt hlt]
  · by_cases hold : a < pos + n
    · rw [copyTo_of_lt hold, copyTo_of_mem (by omega) hold, copyTo_of_mem (by omega) (by omega)]
    · by_cases hnew : a < pos + (n + k)
      · rw [copyTo_of_mem (by omega) (by omega), copyTo_of_mem (by omega) hnew, h _ (by omega)]
        exact congrArg src (by omega)
      · rw [copyTo_of_ge (by omega), copyTo_of_ge (by omega), copyTo_of_ge (by omega)]

/-- A copy that goes on by one cell. -/
theorem copyTo_concat : Function.update (copyTo dest pos n src) (pos + n) (src n) =
    copyTo dest pos (n + 1) src := by
  funext a
  by_cases ha : a = pos + n
  · rw [ha, Function.update_self, copyTo_of_mem (by omega) (by omega), Nat.add_sub_cancel_left]
  · rw [Function.update_of_ne ha]
    unfold copyTo
    split_ifs <;> first | rfl | omega

/-- A copy seen through a window. -/
theorem copyTo_window {base : Nat} (h : base ≤ a) :
    copyTo (fun i => dest (base + i)) pos n src (a - base) = copyTo dest (base + pos) n src a := by
  obtain ⟨i, rfl⟩ := Nat.exists_eq_add_of_le h
  rw [Nat.add_sub_cancel_left]
  unfold copyTo
  rw [Nat.add_sub_add_left]
  refine if_congr ?_ rfl rfl
  omega

end Copy

section Numbers

variable {m m' : Nat → UInt8} {a b x : Nat}

/-- The 16-bit number at `a`. -/
def le16 (m : Nat → UInt8) (a : Nat) : Nat := (m a).toNat + 256 * (m (a + 1)).toNat

/-- The 32-bit number at `a`. -/
def le32 (m : Nat → UInt8) (a : Nat) : Nat := le16 m a + 65536 * le16 m (a + 2)

/-- `x` stored in 16 bits at `a`. -/
def put16 (m : Nat → UInt8) (a x : Nat) : Nat → UInt8 :=
  fun b => if b = a then UInt8.ofNat x else if b = a + 1 then UInt8.ofNat (x / 256) else m b

/-- `x` stored in 32 bits at `a`. -/
def put32 (m : Nat → UInt8) (a x : Nat) : Nat → UInt8 :=
  put16 (put16 m a x) (a + 2) (x / 65536)

theorem le16_lt (m : Nat → UInt8) (a : Nat) : le16 m a < 65536 := by
  have h₁ := (m a).toNat_lt
  have h₂ := (m (a + 1)).toNat_lt
  unfold le16
  omega

theorem le32_lt (m : Nat → UInt8) (a : Nat) : le32 m a < 4294967296 := by
  have h₁ := le16_lt m a
  have h₂ := le16_lt m (a + 2)
  unfold le32
  omega

/-- A number depends on its own bytes only. -/
theorem le16_congr (h₀ : m a = m' b) (h₁ : m (a + 1) = m' (b + 1)) : le16 m a = le16 m' b := by
  rw [le16, le16, h₀, h₁]

/-- A number read through a window onto another memory. -/
theorem le16_window {base n : Nat} (h : ∀ i < n, m i = m' (base + i)) (ha : a + 1 < n)
    (hb : base + a = b) : le16 m a = le16 m' b := by
  subst hb
  exact le16_congr (h a (by omega)) ((h (a + 1) ha).trans (congrArg m' (Nat.add_assoc ..).symm))

theorem le32_congr (h : ∀ i < 4, m (a + i) = m' (b + i)) : le32 m a = le32 m' b := by
  have hlo : le16 m a = le16 m' b := le16_congr (h 0 (by omega)) (h 1 (by omega))
  have hhi : le16 m (a + 2) = le16 m' (b + 2) := le16_congr (h 2 (by omega)) (h 3 (by omega))
  rw [le32, le32, hlo, hhi]

theorem le32_window {base n : Nat} (h : ∀ i < n, m i = m' (base + i)) (ha : a + 3 < n)
    (hb : base + a = b) : le32 m a = le32 m' b := by
  rw [le32, le32, le16_window h (by omega) hb, le16_window h (by omega) (b := b + 2) (by omega)]

theorem put16_of_ne (h₀ : b ≠ a) (h₁ : b ≠ a + 1) : put16 m a x b = m b := by
  rw [put16, if_neg h₀, if_neg h₁]

theorem le16_put16 (m : Nat → UInt8) (a x : Nat) : le16 (put16 m a x) a = x % 65536 := by
  have hlo : put16 m a x a = UInt8.ofNat x := if_pos rfl
  have hhi : put16 m a x (a + 1) = UInt8.ofNat (x / 256) := by
    rw [put16, if_neg (by omega), if_pos rfl]
  rw [le16, hlo, hhi, UInt8.toNat_ofNat', UInt8.toNat_ofNat']
  omega

/-- Storing what is there already. -/
theorem put16_le16 (m : Nat → UInt8) (a : Nat) : put16 m a (le16 m a) = m := by
  funext b
  unfold put16 le16
  split
  next h =>
    subst h
    apply UInt8.toNat_inj.mp
    have := (m b).toNat_lt
    rw [UInt8.toNat_ofNat']
    omega
  · split
    next h =>
      subst h
      apply UInt8.toNat_inj.mp
      have h₁ := (m a).toNat_lt
      have h₂ := (m (a + 1)).toNat_lt
      rw [UInt8.toNat_ofNat']
      omega
    · rfl

/-- Two numbers that do not overlap. -/
theorem le16_put16_of_ne (h : b + 1 < a ∨ a + 1 < b) : le16 (put16 m a x) b = le16 m b :=
  le16_congr (put16_of_ne (by omega) (by omega)) (put16_of_ne (by omega) (by omega))

theorem put32_of_not_mem (h : b < a ∨ a + 4 ≤ b) : put32 m a x b = m b := by
  rw [put32, put16_of_ne (by omega) (by omega), put16_of_ne (by omega) (by omega)]

theorem le32_put32 (m : Nat → UInt8) (a x : Nat) :
    le32 (put32 m a x) a = x % 4294967296 := by
  have hhi : le16 (put32 m a x) (a + 2) = x / 65536 % 65536 := le16_put16 _ _ _
  have hlo : le16 (put32 m a x) a = le16 (put16 m a x) a := le16_put16_of_ne (by omega)
  rw [le32, hhi, hlo, le16_put16]
  omega

/-- Only sixteen bits are stored. -/
theorem put16_mod (m : Nat → UInt8) (a x : Nat) : put16 m a (x % 65536) = put16 m a x := by
  have hlo : UInt8.ofNat (x % 65536) = UInt8.ofNat x := by
    apply UInt8.toNat_inj.mp
    rw [UInt8.toNat_ofNat', UInt8.toNat_ofNat']
    omega
  have hhi : UInt8.ofNat (x % 65536 / 256) = UInt8.ofNat (x / 256) := by
    apply UInt8.toNat_inj.mp
    rw [UInt8.toNat_ofNat', UInt8.toNat_ofNat']
    omega
  unfold put16
  rw [hlo, hhi]

theorem put32_le32 (m : Nat → UInt8) (a : Nat) : put32 m a (le32 m a) = m := by
  have h := le16_lt m a
  have hlo : le32 m a % 65536 = le16 m a := by
    unfold le32
    omega
  have hhi : le32 m a / 65536 = le16 m (a + 2) := by
    unfold le32
    omega
  rw [put32, ← put16_mod m a, hlo, hhi, put16_le16, put16_le16]

/-- Memory that is given by its words. -/
def wordMem (word : Nat → Nat) (a : Nat) : UInt8 := UInt8.ofNat (word (a / 4) / 256 ^ (a % 4))

theorem le32_wordMem (word : Nat → Nat) (i : Nat) :
    le32 (wordMem word) (4 * i) = word i % 4294967296 := by
  have hbyte : ∀ o < 4, (wordMem word (4 * i + o)).toNat = word i / 256 ^ o % 256 := by
    intro o ho
    rw [wordMem, UInt8.toNat_ofNat', show (4 * i + o) / 4 = i by omega,
      show (4 * i + o) % 4 = o by omega]
  have h₀ := hbyte 0 (by omega)
  have h₁ := hbyte 1 (by omega)
  have h₂ := hbyte 2 (by omega)
  have h₃ := hbyte 3 (by omega)
  rw [Nat.add_zero] at h₀
  unfold le32 le16
  rw [h₀, h₁, h₂, h₃]
  omega

end Numbers

end Wjos.Lib
