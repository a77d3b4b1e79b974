/-
Wjos.Lib.Stretch — stretches of a row: `len` consecutive indices below `n`
that all satisfy `p`.

`FirstStretch p n len k` names the leftmost one. A longer stretch is a
shorter one with more to its right, so the leftmost stretch of a length is
never left of the leftmost stretch of a smaller length, and the two start
at one place exactly when the shorter one can be carried on.
-/
import Mathlib.Data.Nat.Find
import Mathlib.Tactic.Common

namespace Wjos.Lib

/-- The `len` indices from `k` on lie below `n` and satisfy `p`. -/
def Stretch (p : Nat → Prop) (n len k : Nat) : Prop :=
  k + len ≤ n ∧ ∀ j, k ≤ j → j < k + len → p j

/-- The leftmost stretch. -/
def FirstStretch (p : Nat → Prop) (n len k : Nat) : Prop :=
  Stretch p n len k ∧ ∀ j < k, ¬ Stretch p n len j

variable {p : Nat → Prop} {n len len' k j : Nat}

/-- Part of a stretch from its left end on. -/
theorem Stretch.shorten (h : Stretch p n len k) (hl : len' ≤ len) : Stretch p n len' k :=
  ⟨by have := h.1; omega, fun j h₁ h₂ => h.2 j h₁ (by omega)⟩

/-- A stretch with one more index at its end. -/
theorem stretch_succ :
    Stretch p n (len + 1) k ↔ Stretch p n len k ∧ k + len < n ∧ p (k + len) := by
  constructor
  · intro h
    have hn := h.1
    exact ⟨h.shorten (by omega), by omega, h.2 (k + len) (by omega) (by omega)⟩
  · rintro ⟨h, hn, hp⟩
    refine ⟨by omega, fun j h₁ h₂ => ?_⟩
    rcases Nat.lt_or_eq_of_le (show j ≤ k + len by omega) with hj | rfl
    · exact h.2 j h₁ hj
    · exact hp

/-- A stretch of one index. -/
theorem stretch_one : Stretch p n 1 k ↔ k < n ∧ p k := by
  rw [show (1 : Nat) = 0 + 1 from rfl, stretch_succ]
  constructor
  · rintro ⟨-, hn, hp⟩
    exact ⟨hn, hp⟩
  · rintro ⟨hn, hp⟩
    exact ⟨⟨by omega, fun j h₁ h₂ => absurd h₂ (by omega)⟩, hn, hp⟩

/-- An index that does not qualify lies in no stretch. -/
theorem not_stretch_of_not (hp : ¬ p j) (h₁ : k ≤ j) (h₂ : j < k + len) : ¬ Stretch p n len k :=
  fun h => hp (h.2 j h₁ h₂)

/-- Only the indices below `n` matter. -/
theorem stretch_congr {q : Nat → Prop} (h : ∀ j < n, p j ↔ q j) :
    Stretch p n len k ↔ Stretch q n len k := by
  constructor
  · intro hs
    have hn := hs.1
    exact ⟨hn, fun j h₁ h₂ => (h j (by omega)).mp (hs.2 j h₁ h₂)⟩
  · intro hs
    have hn := hs.1
    exact ⟨hn, fun j h₁ h₂ => (h j (by omega)).mpr (hs.2 j h₁ h₂)⟩

theorem firstStretch_congr {q : Nat → Prop} (h : ∀ j < n, p j ↔ q j) :
    FirstStretch p n len k ↔ FirstStretch q n len k := by
  simp only [FirstStretch, stretch_congr h]

/-- There is one leftmost stretch at most. -/
theorem FirstStretch.unique (hk : FirstStretch p n len k) (hj : FirstStretch p n len j) :
    k = j := by
  rcases Nat.lt_trichotomy k j with h | h | h
  · exact absurd hk.1 (hj.2 k h)
  · exact h
  · exact absurd hj.1 (hk.2 j h)

/-- Where there is a stretch there is a leftmost one. -/
theorem Stretch.exists_first (h : Stretch p n len k) : ∃ j, FirstStretch p n len j := by
  classical
  have hex : ∃ j, Stretch p n len j := ⟨k, h⟩
  exact ⟨Nat.find hex, Nat.find_spec hex, fun j hj => Nat.find_min hex hj⟩

/-- A leftmost stretch that can be carried on is leftmost at the greater
length too. -/
theorem FirstStretch.lengthen (h : FirstStretch p n len k) (hl : len ≤ len')
    (h' : Stretch p n len' k) : FirstStretch p n len' k :=
  ⟨h', fun j hj hs => h.2 j hj (hs.shorten hl)⟩

end Wjos.Lib
