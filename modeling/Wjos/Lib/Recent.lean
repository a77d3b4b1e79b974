/-
Wjos.Lib.Recent — a ring of cells that keeps the most recent items.

`recentSlot size idx k` is the cell of the `k`-th item counted back from the
newest one, which is in cell `idx`. `RecentHolds` says that the items `l`,
newest first, lie in these cells and that the cells after them are free; what
it is for a cell to hold an item or to be free is left to the user.
`RecentHolds.push` writes the next cell round the ring: the list gets a new
head and loses what no longer fits.
-/
import Mathlib.Tactic.Common

namespace Wjos.Lib

variable {α : Type*} {size idx i j k : Nat}

/-- `k` cells before `idx`, at most once round. -/
def recentSlot (size idx k : Nat) : Nat := if k ≤ idx then idx - k else idx + size - k

/-- The cell after `idx`. -/
def nextSlot (size idx : Nat) : Nat := if idx + 1 = size then 0 else idx + 1

@[simp] theorem recentSlot_zero (size idx : Nat) : recentSlot size idx 0 = idx :=
  if_pos (Nat.zero_le idx)

theorem nextSlot_lt (h : idx < size) : nextSlot size idx < size := by
  unfold nextSlot
  split <;> omega

theorem recentSlot_lt (h : idx < size) (hk : k < size) : recentSlot size idx k < size := by
  unfold recentSlot
  split <;> omega

/-- Different items lie in different cells. -/
theorem recentSlot_inj (hi : i < size) (hj : j < size)
    (he : recentSlot size idx i = recentSlot size idx j) : i = j := by
  unfold recentSlot at he
  split at he <;> split at he <;> omega

/-- From the next cell everything is one further back. -/
theorem recentSlot_next (hk : k + 1 < size) :
    recentSlot size (nextSlot size idx) (k + 1) = recentSlot size idx k := by
  unfold recentSlot nextSlot
  split <;> split <;> split <;> omega

/-- Every cell is the cell of some item. -/
theorem exists_recentSlot (h : idx < size) (hj : j < size) :
    ∃ k < size, recentSlot size idx k = j := by
  by_cases hle : j ≤ idx
  · exact ⟨idx - j, by omega, by rw [recentSlot, if_pos (by omega)]; omega⟩
  · exact ⟨idx + size - j, by omega, by rw [recentSlot, if_neg (by omega)]; omega⟩

/-- `l`, newest first, lies in the ring back from cell `idx`. -/
structure RecentHolds (size idx : Nat) (holds : Nat → α → Prop) (free : Nat → Prop)
    (l : List α) : Prop where
  idx_lt : idx < size
  le : l.length ≤ size
  held : ∀ k (hk : k < l.length), holds (recentSlot size idx k) l[k]
  rest : ∀ k, l.length ≤ k → k < size → free (recentSlot size idx k)

namespace RecentHolds

variable {holds holds' : Nat → α → Prop} {free free' : Nat → Prop} {l : List α} {a : α}

/-- The next cell is written and no other. -/
theorem push (h : RecentHolds size idx holds free l) (hnew : holds' (nextSlot size idx) a)
    (hheld : ∀ j < size, j ≠ nextSlot size idx → ∀ b, holds j b → holds' j b)
    (hfree : ∀ j < size, j ≠ nextSlot size idx → free j → free' j) :
    RecentHolds size (nextSlot size idx) holds' free' ((a :: l).take size) := by
  have hidx := h.idx_lt
  have hother : ∀ k, k + 1 < size → recentSlot size idx k < size ∧
      recentSlot size idx k ≠ nextSlot size idx := by
    intro k hk
    refine ⟨recentSlot_lt hidx (by omega), fun he => ?_⟩
    rw [← recentSlot_next hk] at he
    have h0 := recentSlot_inj hk (by omega : 0 < size)
      (he.trans (recentSlot_zero size _).symm)
    omega
  refine ⟨nextSlot_lt hidx, List.length_take_le size _, fun k hk => ?_, fun k hk hlt => ?_⟩
  · rw [List.length_take, List.length_cons] at hk
    rw [List.getElem_take]
    cases k with
    | zero =>
      rw [recentSlot_zero]
      exact hnew
    | succ k =>
      obtain ⟨hlt, hne⟩ := hother k (by omega)
      rw [recentSlot_next (by omega), List.getElem_cons_succ]
      exact hheld _ hlt hne _ (h.held k (by omega))
  · rw [List.length_take, List.length_cons] at hk
    obtain ⟨k, rfl⟩ := Nat.exists_eq_succ_of_ne_zero (by omega : k ≠ 0)
    obtain ⟨hlt', hne⟩ := hother k hlt
    rw [recentSlot_next hlt]
    exact hfree _ hlt' hne (h.rest k (by omega) (by omega))

/-- One item is changed in its cell. -/
theorem set (h : RecentHolds size idx holds free l) (hk : k < l.length)
    (hnew : holds' (recentSlot size idx k) a)
    (hheld : ∀ j < size, j ≠ recentSlot size idx k → ∀ b, holds j b → holds' j b)
    (hfree : ∀ j < size, j ≠ recentSlot size idx k → free j → free' j) :
    RecentHolds size idx holds' free' (l.set k a) := by
  have hidx := h.idx_lt
  have hle := h.le
  have hne : ∀ i < size, i ≠ k → recentSlot size idx i ≠ recentSlot size idx k :=
    fun i hi hik he => hik (recentSlot_inj hi (by omega) he)
  refine ⟨hidx, by simpa using hle, fun i hi => ?_, fun i hi hlt => ?_⟩
  · rw [List.length_set] at hi
    rw [List.getElem_set]
    by_cases hik : k = i
    · subst hik
      rw [if_pos rfl]
      exact hnew
    · rw [if_neg hik]
      exact hheld _ (recentSlot_lt hidx (by omega)) (hne i (by omega) (Ne.symm hik)) _
        (h.held i hi)
  · rw [List.length_set] at hi
    exact hfree _ (recentSlot_lt hidx hlt) (hne i hlt (by omega)) (h.rest i hi hlt)

end RecentHolds

end Wjos.Lib
