/-
Wjos.Dev.ConsoleErase — what `erase_backword` does to the display.

`place` counts the cells before the cursor in row-major order. A round of
the loop moves back one place, prints a space there and moves back again;
the place it prints at is not the last one of the display, so printing
never scrolls. `Erased c c' m` says that the cursor went back by `m` and
that the `m` cells it passed are the only ones that changed; it composes,
and the loop is its induction.
-/
import Wjos.Dev.ConsoleTheorems

namespace Wjos

open Lib

namespace Console

variable {c c' c'' : Console}

/-- The cells before the cursor, row by row. -/
def place (c : Console) : Int := c.cursorRow * c.displayCols + c.cursorCol

/-- The cursor is on the display, whose cells an `int` counts. -/
structure CursorIn (c : Console) : Prop where
  row_nonneg : 0 ≤ c.cursorRow
  row_lt : c.cursorRow < c.displayRows
  col_nonneg : 0 ≤ c.cursorCol
  col_lt : c.cursorCol < c.displayCols
  fits : c.displayRows * c.displayCols ≤ intMax

/-- Printing would scroll: the cursor is in the last cell of the last row. -/
def PrintScrolls (c : Console) : Prop :=
  c.displayCols ≤ c.cursorCol + 1 ∧ c.displayRows ≤ c.cursorRow + 1

/-- `c'` is `c` with the cursor `m` places back and those cells blank. -/
structure Erased (c c' : Console) (m : Int) : Prop where
  cursor : CursorIn c'
  place : c'.place = c.place - m
  rows : c'.displayRows = c.displayRows
  cols : c'.displayCols = c.displayCols
  base : c'.dispBase = c.dispBase
  blank : c'.cell 32 = c.cell 32
  disp : ∀ p, c'.disp p =
    if c.dispBase + (c.place - m) ≤ p ∧ p < c.dispBase + c.place then c.cell 32 else c.disp p

theorem Erased.refl (h : CursorIn c) : Erased c c 0 where
  cursor := h
  place := (Int.sub_zero _).symm
  rows := rfl
  cols := rfl
  base := rfl
  blank := rfl
  disp p := by rw [if_neg (by omega)]

theorem Erased.trans {m n : Int} (h : Erased c c' m) (h' : Erased c' c'' n) (hm : 0 ≤ m)
    (hn : 0 ≤ n) : Erased c c'' (m + n) where
  cursor := h'.cursor
  place := by rw [h'.place, h.place]; omega
  rows := h'.rows.trans h.rows
  cols := h'.cols.trans h.cols
  base := h'.base.trans h.base
  blank := h'.blank.trans h.blank
  disp p := by
    rw [h'.disp, h.disp, h.blank, h.base, h.place]
    split
    · rw [if_pos (by omega)]
    · split
      · rw [if_pos (by omega)]
      · rw [if_neg (by omega)]

/-! ## The cursor as a place -/

/-- The display in cells, from the cursor's point of view. -/
theorem CursorIn.place_range (h : CursorIn c) :
    0 ≤ c.place ∧ c.place < c.displayRows * c.displayCols := by
  have hcols : 0 ≤ c.displayCols := Int.le_of_lt (Int.lt_of_le_of_lt h.col_nonneg h.col_lt)
  have hlast : (c.cursorRow + 1) * c.displayCols ≤ c.displayRows * c.displayCols :=
    Int.mul_le_mul_of_nonneg_right h.row_lt hcols
  have hfirst := Int.mul_nonneg h.row_nonneg hcols
  have := h.col_nonneg
  have := h.col_lt
  rw [Int.add_mul] at hlast
  unfold place
  omega

/-- A row and a column fit an `int`, and so does what follows them. -/
theorem CursorIn.sizes (h : CursorIn c) :
    c.displayRows ≤ intMax ∧ c.displayCols ≤ intMax := by
  have hrows : 1 ≤ c.displayRows := Int.lt_of_le_of_lt h.row_nonneg h.row_lt
  have hcols : 1 ≤ c.displayCols := Int.lt_of_le_of_lt h.col_nonneg h.col_lt
  have h₁ := Int.mul_le_mul_of_nonneg_left hcols (Int.le_of_lt hrows)
  have h₂ := Int.mul_le_mul_of_nonneg_right hrows (Int.le_of_lt hcols)
  have := h.fits
  omega

/-- `offset` of `show_char` is the place. -/
theorem CursorIn.cursorOffset (h : CursorIn c) : c.cursorOffset = c.place := by
  have hrange := h.place_range
  have := h.fits
  have hsum : c.cursorCol + c.cursorRow * c.displayCols = c.place := Int.add_comm _ _
  rw [Console.cursorOffset, hsum, cInt_eq (by omega) (by omega)]

/-- The cursor put on another place of the same display. -/
theorem CursorIn.moveTo (h : CursorIn c) {row col : Int} (hr : 0 ≤ row ∧ row < c.displayRows)
    (hc : 0 ≤ col ∧ col < c.displayCols) :
    CursorIn { c with cursorRow := row, cursorCol := col } :=
  ⟨hr.1, hr.2, hc.1, hc.2, h.fits⟩

/-- A step back: nothing in the first cell, otherwise one place. -/
theorem moveBackwordOne_back (h : CursorIn c) :
    (c.place = 0 ∧ c.moveBackwordOne = (c, false)) ∨
    ∃ row col, c.moveBackwordOne = ({ c with cursorRow := row, cursorCol := col }, true) ∧
      (0 ≤ row ∧ row < c.displayRows) ∧ (0 ≤ col ∧ col < c.displayCols) ∧
      row * c.displayCols + col = c.place - 1 := by
  have hrow := h.row_nonneg
  have hrow' := h.row_lt
  have hcol := h.col_nonneg
  have hcol' := h.col_lt
  have hsizes := h.sizes
  unfold moveBackwordOne place
  by_cases hleft : 0 < c.cursorCol
  · rw [if_pos hleft]
    exact .inr ⟨c.cursorRow, c.cursorCol - 1, rfl, by omega, by omega, by omega⟩
  rw [if_neg hleft]
  by_cases hup : 0 < c.cursorRow
  · rw [if_pos hup, cInt_eq (by omega) (by omega)]
    refine .inr ⟨c.cursorRow - 1, c.displayCols - 1, rfl, by omega, by omega, ?_⟩
    rw [Int.sub_mul]
    omega
  · rw [if_neg hup]
    have h0 : c.cursorRow = 0 := by omega
    rw [h0]
    exact .inl ⟨by omega, rfl⟩

/-- Printing before the last cell advances by one place and does not scroll. -/
theorem showChar_next (h : CursorIn c) (hs : ¬PrintScrolls c) (ch : UInt8) :
    ∃ row col, showChar c ch =
        { c with
          disp := Function.update c.disp (c.dispBase + c.place) (c.cell ch)
          shown := c.place :: c.shown
          cursorRow := row
          cursorCol := col } ∧
      (0 ≤ row ∧ row < c.displayRows) ∧ (0 ≤ col ∧ col < c.displayCols) ∧
      row * c.displayCols + col = c.place + 1 := by
  have hrow := h.row_nonneg
  have hrow' := h.row_lt
  have hcol := h.col_nonneg
  have hcol' := h.col_lt
  have hsizes := h.sizes
  have hright : cInt (c.cursorCol + 1) = c.cursorCol + 1 := cInt_eq (by omega) (by omega)
  have hdown : cInt (c.cursorRow + 1) = c.cursorRow + 1 := cInt_eq (by omega) (by omega)
  simp only [showChar, moveForward, moveForwardOne, h.cursorOffset, hright, hdown]
  unfold PrintScrolls at hs
  by_cases hend : c.cursorCol + 1 ≥ c.displayCols
  · rw [if_pos hend, if_neg (by omega)]
    refine ⟨c.cursorRow + 1, 0, rfl, by omega, by omega, ?_⟩
    rw [Int.add_mul, place]
    omega
  · rw [if_neg hend]
    exact ⟨c.cursorRow, c.cursorCol + 1, rfl, by omega, by omega, by rw [place]; omega⟩

/-! ## The loop -/

/-- After a step back the cursor is not in the last cell. -/
theorem not_printScrolls_back (h : CursorIn c) (hb : (c.moveBackword 1).2 = 0) :
    ¬PrintScrolls (c.moveBackword 1).1 := by
  have hrange := h.place_range
  rcases moveBackwordOne_back h with ⟨-, he⟩ | ⟨row, col, he, hr, hc, hp⟩
  · simp [moveBackword, moveBackwordLoop, he] at hb
  · simp only [moveBackword, moveBackwordLoop, he]
    rintro ⟨hcol, hrow⟩
    -- the last cell has a place that no cell follows
    have hlast : row = c.displayRows - 1 := by
      dsimp only at hrow
      omega
    dsimp only at hcol
    rw [hlast, Int.sub_mul] at hp
    omega

/-- One round of the loop of `erase_backword`. -/
def eraseBackwordOne (c : Console) : Console :=
  let b := moveBackword c 1
  if b.2 = 0 then (moveBackword (showChar b.1 32) 1).1 else b.1

theorem eraseBackwordLoop_succ (c : Console) (n : Nat) :
    eraseBackwordLoop c (n + 1) = eraseBackwordLoop (eraseBackwordOne c) n := rfl

/-- A round erases the cell before the cursor, if there is one. -/
theorem eraseBackwordOne_erased (h : CursorIn c) :
    Erased c (eraseBackwordOne c) (min 1 c.place) := by
  have hrange := h.place_range
  have hscroll := not_printScrolls_back h
  unfold eraseBackwordOne
  rcases moveBackwordOne_back h with ⟨h0, he⟩ | ⟨row, col, he, hr, hc, hp⟩
  · have hb : c.moveBackword 1 = (c, -1) := by simp [moveBackword, moveBackwordLoop, he]
    have hmin : min 1 c.place = 0 := by omega
    rw [hb, hmin]
    exact Erased.refl h
  have hb : c.moveBackword 1 = ({ c with cursorRow := row, cursorCol := col }, 0) := by
    simp [moveBackword, moveBackwordLoop, he]
  rw [hb] at hscroll ⊢
  -- the cell that the space goes to
  have h₁ := h.moveTo hr hc
  have hp₁ : Console.place { c with cursorRow := row, cursorCol := col } = c.place - 1 := hp
  obtain ⟨row₂, col₂, he₂, hr₂, hc₂, hp₂⟩ := showChar_next h₁ (hscroll rfl) 32
  -- and back to it
  have h₂ : CursorIn (showChar { c with cursorRow := row, cursorCol := col } 32) := by
    rw [he₂]
    exact ⟨hr₂.1, hr₂.2, hc₂.1, hc₂.2, h.fits⟩
  have hp₂' : (showChar { c with cursorRow := row, cursorCol := col } 32).place = c.place := by
    rw [he₂]
    change row₂ * c.displayCols + col₂ = c.place
    exact hp₂.trans (by rw [hp₁]; omega)
  have hpos : 0 < c.place := by
    have := h₁.place_range.1
    omega
  rcases moveBackwordOne_back h₂ with ⟨h0, -⟩ | ⟨row₃, col₃, he₃, hr₃, hc₃, hp₃⟩
  · exact absurd (hp₂'.symm.trans h0) (by omega)
  have hmin : min 1 c.place = 1 := by omega
  simp only [if_true, moveBackword, moveBackwordLoop, he₃, hmin]
  rw [hp₂'] at hp₃
  exact
    { cursor := h₂.moveTo hr₃ hc₃
      place := hp₃
      rows := by rw [he₂]
      cols := by rw [he₂]
      base := by rw [he₂]
      blank := by rw [he₂]; rfl
      disp := fun p => by
        rw [he₂]
        dsimp only
        rw [Function.update_apply, hp₁]
        by_cases hcell : p = c.dispBase + (c.place - 1)
        · rw [if_pos hcell, if_pos (by omega)]
          rfl
        · rw [if_neg hcell, if_neg (by omega)] }

theorem eraseBackwordLoop_erased (h : CursorIn c) (n : Nat) :
    Erased c (eraseBackwordLoop c n) (min n c.place) := by
  induction n generalizing c with
  | zero =>
    have hmin : min ((0 : Nat) : Int) c.place = 0 := by
      have := h.place_range
      omega
    rw [hmin]
    exact Erased.refl h
  | succ n ih =>
    have hone := eraseBackwordOne_erased h
    have hrest := ih hone.cursor
    have h0 := h.place_range
    have hsum : min ((n + 1 : Nat) : Int) c.place =
        min 1 c.place + min (n : Int) (eraseBackwordOne c).place := by
      rw [hone.place]
      omega
    rw [eraseBackwordLoop_succ, hsum]
    refine hone.trans hrest (by omega) ?_
    have := hone.cursor.place_range
    omega

/-- `erase_backword` goes back by as many cells as there are, up to `n`,
blanks exactly these, and in no round prints in the last cell. -/
theorem eraseBackword_exact (h : CursorIn c) (n : Int) (hn : 0 ≤ n) :
    Erased c (eraseBackword c n) (min n c.place) ∧
      ∀ k : Nat, k < n → (moveBackword (eraseBackwordLoop c k) 1).2 = 0 →
        ¬PrintScrolls (moveBackword (eraseBackwordLoop c k) 1).1 := by
  have hloop := eraseBackwordLoop_erased h n.toNat
  rw [Int.toNat_of_nonneg hn] at hloop
  refine ⟨?_, fun k _ => not_printScrolls_back (eraseBackwordLoop_erased h k).cursor⟩
  unfold eraseBackword
  split
  · obtain ⟨hcursor, hplace, hrows, hcols, hbase, hblank, hdisp⟩ := hloop
    exact ⟨⟨hcursor.row_nonneg, hcursor.row_lt, hcursor.col_nonneg, hcursor.col_lt, hcursor.fits⟩,
      hplace, hrows, hcols, hbase, hblank, hdisp⟩
  next h0 =>
    have hmin : min n c.place = 0 := by
      have := h.place_range
      omega
    rw [hmin]
    exact Erased.refl h

/-- Three cells asked for behind a cursor in column 0 of row 1: the last
three of row 0. -/
theorem eraseBackword_exact_line :
    Erased { Console.zero.init 1 0 with cursorRow := 1 }
      (eraseBackword { Console.zero.init 1 0 with cursorRow := 1 } 3) 3 := by
  have hin : CursorIn { Console.zero.init 1 0 with cursorRow := 1 } := by
    constructor <;> decide
  exact (eraseBackword_exact hin 3 (by decide)).1

end Console

end Wjos
