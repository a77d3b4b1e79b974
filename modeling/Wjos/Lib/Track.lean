/-
Wjos.Lib.Track — a memory that keeps track of where it was stored to.

`Track.put` is one store, `Track.write m a l` stores the list `l` from `a`
on. A program that stores one cell after the other is compared with a
`write`: `write_append` cuts it in two, `put_write` is a store into what has
been written, `write_cell` and `mem_write` say what it leaves in the cells and
which cells it stored to. `Spells m a l` is a list in memory that ends with a
zero, as a program reads it back.
-/
import Mathlib.Data.Finset.Insert
import Mathlib.Data.List.GetD
import Mathlib.Logic.Function.Basic
import Mathlib.Tactic.Common

namespace Wjos.Lib

variable {α : Type*}

/-- The cells of a memory, and those that were stored to. -/
@[ext]
structure Track (α : Type*) where
  cell : Int → α
  stored : Finset Int

namespace Track

/-- Nothing has been stored yet. -/
def start (cell : Int → α) : Track α := ⟨cell, ∅⟩

/-- The store of `v` to the cell `a`. -/
def put (m : Track α) (a : Int) (v : α) : Track α :=
  ⟨Function.update m.cell a v, insert a m.stored⟩

/-- Stores of `l` to the cells from `a` on. -/
def write (m : Track α) (a : Int) : List α → Track α
  | [] => m
  | v :: l => (m.put a v).write (a + 1) l

variable {m : Track α} {a b : Int} {v : α} {l l₁ l₂ : List α}

@[simp] theorem put_cell_self (m : Track α) (a : Int) (v : α) : (m.put a v).cell a = v :=
  Function.update_self ..

theorem put_cell_of_ne (h : b ≠ a) : (m.put a v).cell b = m.cell b :=
  Function.update_of_ne h ..

@[simp] theorem mem_put : b ∈ (m.put a v).stored ↔ b = a ∨ b ∈ m.stored :=
  Finset.mem_insert

@[simp] theorem write_nil (m : Track α) (a : Int) : m.write a [] = m := rfl

theorem write_cons : m.write a (v :: l) = (m.put a v).write (a + 1) l := rfl

theorem write_singleton : m.write a [v] = m.put a v := rfl

theorem write_append : m.write a (l₁ ++ l₂) = (m.write a l₁).write (a + l₁.length) l₂ := by
  induction l₁ generalizing m a with
  | nil => simp
  | cons v l₁ ih =>
    rw [List.cons_append, write_cons, ih, ← write_cons, List.length_cons]
    congr 1
    omega

theorem write_concat : m.write a (l ++ [v]) = (m.write a l).put (a + l.length) v :=
  write_append

/-- Cells in front of the list stay. -/
theorem write_cell_of_lt (h : b < a) : (m.write a l).cell b = m.cell b := by
  induction l generalizing m a with
  | nil => rfl
  | cons v l ih => rw [write_cons, ih (by omega), put_cell_of_ne (by omega)]

/-- Cells behind the list stay. -/
theorem write_cell_of_ge (h : a + l.length ≤ b) : (m.write a l).cell b = m.cell b := by
  induction l generalizing m a with
  | nil => rfl
  | cons v l ih =>
    rw [List.length_cons] at h
    rw [write_cons, ih (by omega), put_cell_of_ne (by omega)]

/-- What lies in the cells of the list. -/
theorem write_cell {i : Nat} (h : i < l.length) : (m.write a l).cell (a + i) = l[i] := by
  induction l generalizing m a i with
  | nil => simp at h
  | cons v l ih =>
    rw [write_cons]
    cases i with
    | zero =>
      rw [Int.natCast_zero, Int.add_zero, write_cell_of_lt (by omega), put_cell_self]
      rfl
    | succ i =>
      have ha : a + (i + 1 : Nat) = a + 1 + i := by omega
      rw [ha, ih (by simpa using h), List.getElem_cons_succ]

/-- The cells that are stored to. -/
theorem mem_write : b ∈ (m.write a l).stored ↔ b ∈ m.stored ∨ a ≤ b ∧ b < a + l.length := by
  induction l generalizing m a with
  | nil =>
    rw [write_nil, List.length_nil]
    constructor
    · exact .inl
    · rintro (h | h)
      · exact h
      · omega
  | cons v l ih =>
    have hrange : a ≤ b ∧ b < a + (v :: l).length ↔
        b = a ∨ a + 1 ≤ b ∧ b < a + 1 + l.length := by
      rw [List.length_cons]
      omega
    rw [write_cons, ih, mem_put, hrange, or_comm (a := b = a), or_assoc]

/-- A store to a cell that is in the list. -/
theorem put_write {i : Nat} (h : i < l.length) :
    (m.write a l).put (a + i) v = m.write a (l.set i v) := by
  ext b
  · by_cases hb : b = a + i
    · rw [hb, put_cell_self, write_cell (by simpa using h), List.getElem_set_self]
    · rw [put_cell_of_ne hb]
      by_cases hlt : b < a
      · rw [write_cell_of_lt hlt, write_cell_of_lt hlt]
      by_cases hge : a + l.length ≤ b
      · rw [write_cell_of_ge hge, write_cell_of_ge (by simpa using hge)]
      · obtain ⟨j, rfl⟩ := Int.le.dest (Int.not_lt.mp hlt)
        have hj : j < l.length := by omega
        have hij : i ≠ j := by omega
        rw [write_cell hj, write_cell (by simpa using hj), List.getElem_set_of_ne hij]
  · rw [mem_put, mem_write, mem_write, List.length_set]
    constructor
    · rintro (rfl | hm)
      · omega
      · exact hm
    · exact .inr

/-- The later of two lists written to one place. -/
theorem write_write (h : l₁.length ≤ l₂.length) : (m.write a l₁).write a l₂ = m.write a l₂ := by
  ext b
  · by_cases hlt : b < a
    · simp only [write_cell_of_lt hlt]
    by_cases hge : a + l₂.length ≤ b
    · rw [write_cell_of_ge hge, write_cell_of_ge hge, write_cell_of_ge (by omega)]
    · obtain ⟨j, rfl⟩ := Int.le.dest (Int.not_lt.mp hlt)
      have hj : j < l₂.length := by omega
      rw [write_cell hj, write_cell hj]
  · have hrange : a ≤ b ∧ b < a + l₁.length → a ≤ b ∧ b < a + l₂.length := by omega
    rw [mem_write, mem_write, mem_write, or_assoc, or_iff_right_of_imp hrange]

/-- A list that goes on over the last cell of another. -/
theorem write_over (h : l₂ ≠ []) :
    (m.write a (l₁ ++ [v])).write (a + l₁.length) l₂ = m.write a (l₁ ++ l₂) := by
  have hlen : [v].length ≤ l₂.length := List.length_pos_of_ne_nil h
  rw [write_append, write_write hlen, write_append]

/-! ## Strings -/

variable [Zero α]

/-- The list `l` lies at `a`, with a zero behind it and none in it. -/
structure Spells (m : Track α) (a : Int) (l : List α) : Prop where
  cell : ∀ i (hi : i < l.length), m.cell (a + i) = l[i]
  ended : m.cell (a + l.length) = 0
  nonzero : ∀ v ∈ l, v ≠ 0

/-- What was written with a zero behind it is there. -/
theorem spells_write (h : ∀ v ∈ l, v ≠ 0) : (m.write a (l ++ [0])).Spells a l := by
  refine ⟨fun i hi => ?_, ?_, h⟩
  · rw [write_cell (by simp; omega), List.getElem_append_left hi]
  · rw [write_cell (by simp)]
    simp

theorem spells_nil : m.Spells a ([] : List α) ↔ m.cell a = 0 := by
  refine ⟨fun h => ?_, fun h => ⟨fun i hi => absurd hi (Nat.not_lt_zero i), ?_, by simp⟩⟩
  · simpa using h.ended
  · simpa using h

/-- The first element, and the list behind it. -/
theorem Spells.uncons (h : m.Spells a (v :: l)) : m.cell a = v ∧ v ≠ 0 ∧ m.Spells (a + 1) l := by
  refine ⟨?_, h.nonzero v List.mem_cons_self, fun i hi => ?_, ?_, fun w hw =>
    h.nonzero w (List.mem_cons_of_mem v hw)⟩
  · have hfirst := h.cell 0 (Nat.zero_lt_succ l.length)
    rwa [Int.natCast_zero, Int.add_zero] at hfirst
  · have hcell := h.cell (i + 1) (by simpa using hi)
    rw [List.getElem_cons_succ] at hcell
    rw [← hcell]
    congr 1
    omega
  · have hend := h.ended
    rw [List.length_cons] at hend
    rw [← hend]
    congr 1
    omega

/-- The list behind a part of it. -/
theorem Spells.append_right (h : m.Spells a (l₁ ++ l₂)) : m.Spells (a + l₁.length) l₂ := by
  induction l₁ generalizing a with
  | nil => simpa using h
  | cons v l₁ ih =>
    have hrest := ih h.uncons.2.2
    have ha : a + ((v :: l₁).length : Int) = a + 1 + l₁.length := by
      rw [List.length_cons]
      omega
    rw [ha]
    exact hrest

/-- The list depends on its own cells and the zero behind them. -/
theorem Spells.congr {m' : Track α} (h : m.Spells a l)
    (heq : ∀ b, a ≤ b → b ≤ a + l.length → m'.cell b = m.cell b) : m'.Spells a l :=
  ⟨fun i hi => (heq _ (by omega) (by omega)).trans (h.cell i hi),
    (heq _ (by omega) (by omega)).trans h.ended, h.nonzero⟩

/-- A zero in the list cuts it. -/
theorem Spells.cut (h : m.Spells a (l₁ ++ l₂)) : (m.put (a + l₁.length) 0).Spells a l₁ := by
  refine ⟨fun i hi => ?_, put_cell_self .., fun v hv => h.nonzero v (List.mem_append_left l₂ hv)⟩
  rw [put_cell_of_ne (by omega), h.cell i (by simp; omega), List.getElem_append_left hi]

/-- A memory spells one list at most at one place. -/
theorem Spells.unique (h₁ : m.Spells a l₁) (h₂ : m.Spells a l₂) : l₁ = l₂ := by
  -- the shorter one ends where the longer one has no zero
  have hle : ∀ {l l' : List α}, m.Spells a l → m.Spells a l' → l.length ≤ l'.length := by
    intro l l' h h'
    refine Nat.le_of_not_lt fun hlt => ?_
    have hcell := h.cell l'.length hlt
    rw [h'.ended] at hcell
    exact h.nonzero _ (List.getElem_mem hlt) hcell.symm
  refine List.ext_getElem (Nat.le_antisymm (hle h₁ h₂) (hle h₂ h₁)) fun i hi₁ hi₂ => ?_
  rw [← h₁.cell i hi₁, h₂.cell i hi₂]

end Track

end Wjos.Lib
