/-
Wjos.Lib.Ring — a bounded queue in a ring of cells.

`RingHolds size buf read write count q` says that the queue `q` lies in the
first `size` cells of `buf`, from index `read` on and round the end, with
`write` the cell behind it. A put at `write` appends, a get at `read` takes the
head; each index goes back to 0 when it reaches `size`.
-/
import Mathlib.Logic.Function.Basic
import Mathlib.Tactic.Common

namespace Wjos.Lib

variable {α : Type*} {size read write count : Nat} {buf : Nat → α} {q : List α}

/-- The cell `i`, at most once round the end. -/
def ringIndex (size i : Nat) : Nat := if i < size then i else i - size

structure RingHolds (size : Nat) (buf : Nat → α) (read write count : Nat) (q : List α) :
    Prop where
  read_lt : read < size
  count_eq : count = q.length
  le : q.length ≤ size
  write_eq : write = ringIndex size (read + q.length)
  cell : ∀ i (hi : i < q.length), buf (ringIndex size (read + i)) = q[i]

theorem RingHolds.empty (hs : 0 < size) (buf : Nat → α) : RingHolds size buf 0 0 0 [] := by
  refine ⟨hs, rfl, Nat.zero_le _, ?_, fun i hi => absurd hi (by simp)⟩
  simp [ringIndex, hs]

/-- A put, where there is room. -/
theorem RingHolds.put (h : RingHolds size buf read write count q) (hc : count < size) (c : α) :
    RingHolds size (Function.update buf write c) read (if write + 1 ≥ size then 0 else write + 1)
      (count + 1) (q ++ [c]) := by
  have hlt := h.read_lt
  have hlen : q.length < size := h.count_eq ▸ hc
  have hw := h.write_eq
  refine ⟨hlt, by simp [h.count_eq], by simp; omega, ?_, fun i hi => ?_⟩
  · rw [List.length_append, List.length_singleton, hw]
    unfold ringIndex
    split <;> split <;> split <;> omega
  · rw [List.length_append, List.length_singleton] at hi
    rcases Nat.lt_succ_iff_lt_or_eq.mp hi with hi | rfl
    · -- the cells of the queue are not the one behind it
      have hne : ringIndex size (read + i) ≠ write := by
        rw [hw]
        unfold ringIndex
        split <;> split <;> omega
      rw [Function.update_of_ne hne, List.getElem_append_left hi]
      exact h.cell i hi
    · rw [← hw, Function.update_self]
      simp

/-- A get from a queue that is not empty. -/
theorem RingHolds.get {a : α} (h : RingHolds size buf read write count (a :: q)) :
    buf read = a ∧
      RingHolds size buf (if read + 1 ≥ size then 0 else read + 1) write (count - 1) q := by
  have hlt := h.read_lt
  have hle := h.le
  have hw := h.write_eq
  have hcount := h.count_eq
  simp only [List.length_cons] at hle hw hcount
  constructor
  · have hcell := h.cell 0 (by simp)
    rwa [Nat.add_zero, ringIndex, if_pos hlt] at hcell
  · refine ⟨by split <;> omega, by omega, by omega, ?_, fun i hi => ?_⟩
    · rw [hw]
      unfold ringIndex
      split <;> split <;> split <;> omega
    · have hcell := h.cell (i + 1) (by simpa using hi)
      rw [List.getElem_cons_succ] at hcell
      rw [← hcell]
      congr 1
      unfold ringIndex
      split <;> split <;> split <;> omega

end Wjos.Lib
