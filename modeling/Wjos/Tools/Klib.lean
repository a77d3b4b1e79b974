/-
Wjos.Tools.Klib — the string functions of `kernel/tools/klib.c` that name
tasks, and the rounding of `kernel/include/tools/klib.h`.

`getFileName` works on the bytes of a path, ended by their first NUL or by
the end of the list; `kernelStrcmp` on two strings without the NULs that end
them. `kernelStrncpy` works on memory: `dest` and `src` are
what lies from the two pointers on, so that a store past the end of a buffer
is a store all the same.
-/
import Mathlib.Data.UInt
import Mathlib.Logic.Function.Basic
import Mathlib.Tactic.Common
import Wjos.Lib.Blocks

namespace Wjos

open Lib

/-- `down2`. -/
def down2 (size bound : Nat) : Nat :=
  (UInt32.ofNat size &&& ~~~(UInt32.ofNat bound - 1)).toNat

/-- `up2`. -/
def up2 (size bound : Nat) : Nat :=
  ((UInt32.ofNat size + UInt32.ofNat bound - 1) &&& ~~~(UInt32.ofNat bound - 1)).toNat

/-- The second loop of `get_file_name`, from the end of the string towards
its start; `name` is what has been passed. -/
def getFileNameLoop : List UInt8 → (name : List UInt8) → List UInt8
  | [], name => name
  | s :: before, name =>
    if s = 47 ∨ s = 92 then name else getFileNameLoop before (s :: name)

/-- `get_file_name`: what follows the last `/` or `\`. -/
def getFileName (name : List UInt8) : List UInt8 :=
  getFileNameLoop (name.takeWhile (· ≠ 0)).reverse []

/-- `kernel_strcmp`. Its loop tests `size` but never lowers it, and stops at
the end of either string. -/
def kernelStrcmp : List UInt8 → List UInt8 → (size : Int) → Int
  | c₁ :: s₁, c₂ :: s₂, size =>
    if c₁ = c₂ ∧ size ≠ 0 then kernelStrcmp s₁ s₂ size else if c₁ = c₂ then 0 else 1
  | _, _, _ => 0

/-- The string that a pointer to these bytes is read as. -/
def cString (bytes : List UInt8) : Nat → UInt8 := fun i => bytes.getD i 0

/-- `kernel_strncpy` after `d` characters, with `size` as it is then. When
it ends the loop, `size` has been lowered once more. With `size` 1 and an empty
`src` the NUL goes to the byte in front of `dest`, which is not in this memory. -/
def strncpyLoop (src : Nat → UInt8) : (size : Nat) → (dest : Nat → UInt8) → (d : Nat) → Nat → UInt8
  | 0, dest, d => Function.update dest d 0
  | size + 1, dest, d =>
    if src d = 0 then
      if size = 0 then if d = 0 then dest else Function.update dest (d - 1) 0
      else Function.update dest d 0
    else strncpyLoop src size (Function.update dest d (src d)) (d + 1)

/-- `kernel_strncpy`. -/
def kernelStrncpy (dest src : Nat → UInt8) (size : Nat) : Nat → UInt8 :=
  if size = 0 then dest else strncpyLoop src size dest 0

section Rounding

variable {k size : Nat}

theorem toNat_boundMask (hk : k < 32) :
    (~~~(UInt32.ofNat (2 ^ k) - 1)).toNat = 2 ^ 32 - 1 - (2 ^ k - 1) := by
  have hpos := Nat.two_pow_pos k
  have hlt : 2 ^ k < 2 ^ 32 := Nat.pow_lt_pow_right (by decide) hk
  have hone : (1 : UInt32).toNat = 1 := rfl
  have hb : (UInt32.ofNat (2 ^ k)).toNat = 2 ^ k := UInt32.toNat_ofNat_of_lt' hlt
  have hmask : (UInt32.ofNat (2 ^ k) - 1).toNat = 2 ^ k - 1 := by
    rw [UInt32.toNat_sub, hb, hone]
    omega
  rw [UInt32.toNat_not, hmask]
  rfl

theorem down2_eq (hk : k < 32) (hs : size < 2 ^ 32) :
    down2 size (2 ^ k) = size / 2 ^ k * 2 ^ k := by
  rw [down2, UInt32.toNat_and, toNat_boundMask hk, UInt32.toNat_ofNat_of_lt' hs]
  exact and_mask (Nat.le_of_lt hk) hs

/-- The sum under the mask wraps. -/
theorem up2_eq_mod (hk : k < 32) (hs : size < 2 ^ 32) :
    up2 size (2 ^ k) = (size + 2 ^ k - 1) % 2 ^ 32 / 2 ^ k * 2 ^ k := by
  have hpos := Nat.two_pow_pos k
  have hlt : 2 ^ k < 2 ^ 32 := Nat.pow_lt_pow_right (by decide) hk
  have hone : (1 : UInt32).toNat = 1 := rfl
  have hsum : (UInt32.ofNat size + UInt32.ofNat (2 ^ k) - 1).toNat =
      (size + 2 ^ k - 1) % 2 ^ 32 := by
    rw [UInt32.toNat_sub, UInt32.toNat_add, UInt32.toNat_ofNat_of_lt' hs,
      UInt32.toNat_ofNat_of_lt' hlt, hone]
    omega
  rw [up2, UInt32.toNat_and, toNat_boundMask hk, hsum]
  exact and_mask (Nat.le_of_lt hk) (Nat.mod_lt _ (by decide))

theorem up2_eq (hk : k < 32) (hs : size + 2 ^ k < 2 ^ 32) :
    up2 size (2 ^ k) = (size + 2 ^ k - 1) / 2 ^ k * 2 ^ k := by
  have hpos := Nat.two_pow_pos k
  rw [up2_eq_mod hk (by omega), Nat.mod_eq_of_lt (by omega)]

end Rounding

/-- Two strings compare equal when one is a prefix of the other. -/
theorem kernelStrcmp_eq_zero {s₁ s₂ : List UInt8} {size : Int} (hs : size ≠ 0) :
    kernelStrcmp s₁ s₂ size = 0 ↔ s₁ <+: s₂ ∨ s₂ <+: s₁ := by
  induction s₁ generalizing s₂ with
  | nil => simp [kernelStrcmp]
  | cons c₁ s₁ ih =>
    cases s₂ with
    | nil => simp [kernelStrcmp]
    | cons c₂ s₂ =>
      rw [kernelStrcmp]
      by_cases hc : c₁ = c₂
      · rw [if_pos ⟨hc, hs⟩, ih, hc, List.prefix_cons_inj, List.prefix_cons_inj]
      · rw [if_neg fun h => hc h.1, if_neg hc]
        simp [List.cons_prefix_cons, hc, Ne.symm hc]

section Name

variable {src dest : Nat → UInt8} {size d : Nat}

/-- What has been copied stays, apart from the last character. -/
theorem strncpyLoop_zero (hd : 2 ≤ d) : strncpyLoop src size dest d 0 = dest 0 := by
  induction size generalizing dest d with
  | zero => exact Function.update_of_ne (by omega) _ _
  | succ size ih =>
    rw [strncpyLoop]
    split
    · split
      · rw [if_neg (by omega)]
        exact Function.update_of_ne (by omega) _ _
      · exact Function.update_of_ne (by omega) _ _
    · rw [ih (by omega)]
      exact Function.update_of_ne (by omega) _ _

/-- The copy starts as the source does. -/
theorem kernelStrncpy_head (hs : 3 ≤ size) : kernelStrncpy dest src size 0 = src 0 := by
  obtain ⟨n, rfl⟩ := Nat.exists_eq_add_of_le hs
  have hn : 3 + n = n + 1 + 1 + 1 := by omega
  rw [kernelStrncpy, if_neg (by omega), hn, strncpyLoop]
  split
  next h0 =>
    rw [if_neg (by omega), Function.update_self, h0]
  · rw [strncpyLoop]
    split
    · rw [if_neg (by omega), Function.update_of_ne (by decide), Function.update_self]
    · rw [strncpyLoop_zero (by decide), Function.update_of_ne (by decide), Function.update_self]

/-- The string of a list of bytes starts with a NUL exactly when the list is
empty or does. -/
theorem cString_zero {bytes : List UInt8} (h : ∀ b ∈ bytes, b ≠ 0) :
    cString bytes 0 = 0 ↔ bytes = [] := by
  cases bytes with
  | nil => simp [cString]
  | cons b bytes => simpa [cString] using h b List.mem_cons_self

theorem mem_getFileNameLoop {l name : List UInt8} {b : UInt8}
    (h : b ∈ getFileNameLoop l name) : b ∈ l ∨ b ∈ name := by
  induction l generalizing name with
  | nil => exact .inr h
  | cons s before ih =>
    rw [getFileNameLoop] at h
    split at h
    · exact .inr h
    · rcases ih h with hb | hb
      · exact .inl (List.mem_cons_of_mem s hb)
      · rcases List.mem_cons.mp hb with rfl | hb
        · exact .inl List.mem_cons_self
        · exact .inr hb

/-- A file name holds no NUL. -/
theorem getFileName_ne_zero {path : List UInt8} : ∀ b ∈ getFileName path, b ≠ 0 := by
  intro b hb
  rcases mem_getFileNameLoop hb with h | h
  · have hp := List.all_eq_true.mp List.all_takeWhile b (List.mem_reverse.mp h)
    simpa using hp
  · exact absurd h List.not_mem_nil

end Name

end Wjos
