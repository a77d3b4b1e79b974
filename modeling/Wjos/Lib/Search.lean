/-
Wjos.Lib.Search — the first index of a range that satisfies a test.

`findSlot p fuel i` looks at `i`, `i + 1`, ..., `i + fuel - 1` in this
order, as a C `for` loop with a `break` does.
-/
import Mathlib.Tactic.Common

namespace Wjos.Lib

/-- The first of the `fuel` indices from `i` on that satisfies `p`. -/
def findSlot (p : Nat → Bool) : Nat → Nat → Option Nat
  | 0, _ => none
  | fuel + 1, i => if p i then some i else findSlot p fuel (i + 1)

variable {p : Nat → Bool} {fuel i j : Nat}

/-- What is found satisfies the test and lies in the range. -/
theorem findSlot_eq_some (h : findSlot p fuel i = some j) :
    p j = true ∧ i ≤ j ∧ j < i + fuel := by
  induction fuel generalizing i with
  | zero => simp [findSlot] at h
  | succ fuel ih =>
    rw [findSlot] at h
    split at h
    · rename_i hp
      rw [Option.some.injEq] at h
      subst h
      exact ⟨hp, Nat.le_refl _, by omega⟩
    · obtain ⟨hp, h₁, h₂⟩ := ih h
      exact ⟨hp, by omega, by omega⟩

/-- A search that finds nothing has looked at every index. -/
theorem findSlot_eq_none :
    findSlot p fuel i = none ↔ ∀ j, i ≤ j → j < i + fuel → p j = false := by
  induction fuel generalizing i with
  | zero =>
    simp only [findSlot, Nat.add_zero, true_iff]
    intro j h₁ h₂
    omega
  | succ fuel ih =>
    rw [findSlot]
    cases hp : p i with
    | true =>
      simp only [if_true, reduceCtorEq, false_iff]
      intro hall
      rw [hall i (Nat.le_refl _) (by omega)] at hp
      exact absurd hp (by simp)
    | false =>
      simp only [Bool.false_eq_true, if_false]
      rw [ih]
      constructor
      · intro hall j h₁ h₂
        by_cases hj : j = i
        · rw [hj]
          exact hp
        · exact hall j (by omega) (by omega)
      · intro hall j h₁ h₂
        exact hall j (by omega) (by omega)

/-- Nothing before what is found satisfies the test. -/
theorem findSlot_first (h : findSlot p fuel i = some j) {l : Nat} (hi : i ≤ l) (hl : l < j) :
    p l = false := by
  induction fuel generalizing i with
  | zero => simp [findSlot] at h
  | succ fuel ih =>
    rw [findSlot] at h
    split at h
    · rw [Option.some.injEq] at h
      omega
    · rename_i hp
      by_cases hli : l = i
      · rw [hli]
        simpa using hp
      · exact ih h (by omega)

end Wjos.Lib
