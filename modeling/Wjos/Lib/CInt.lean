/-
Wjos.Lib.CInt — the C types `int` and `uint32_t` on the target machine:
32 bits, two's complement. `cInt n` is the value an `int` holds after `n`
is stored in it, `u32 n` the value a `uint32_t` holds; each is `n` itself
inside its range.
-/
import Mathlib.Tactic.Common

namespace Wjos.Lib

/-- `INT_MAX`. -/
def intMax : Int := 2147483647

/-- The value of an `int` that `n` was stored in. -/
def cInt (n : Int) : Int := n.bmod 4294967296

/-- Inside the range of `int` nothing is lost. -/
theorem cInt_eq {n : Int} (h₁ : -2147483648 ≤ n) (h₂ : n ≤ intMax) : cInt n = n := by
  rw [intMax] at h₂
  rw [cInt, Int.bmod_eq_of_le_mul_two] <;> omega

/-- The value of a `uint32_t` that `n` was stored in. -/
def u32 (n : Int) : Nat := (n % 4294967296).toNat

theorem u32_lt (n : Int) : u32 n < 4294967296 := by
  unfold u32
  omega

/-- Inside the range of `uint32_t` nothing is lost. -/
theorem u32_natCast {n : Nat} (h : n < 4294967296) : u32 n = n := by
  unfold u32
  omega

theorem u32_add {a b : Nat} (h : a + b < 4294967296) : u32 (a + b : Int) = a + b := by
  unfold u32
  omega

theorem u32_sub {a b : Nat} (hb : b ≤ a) (ha : a < 4294967296) : u32 (a - b : Int) = a - b := by
  unfold u32
  omega

end Wjos.Lib
