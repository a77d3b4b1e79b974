/-
Wjos.Dev.ConsoleTheorems — when the cursor of a console stays on the screen.

Printing, line feeds, backspaces and erasing keep it there (`Moved`). Of the
escape sequences, `ESC [ r ; c H` stores its parameters as they are, the
relative moves check one side only, and a restore puts back what was saved.
`CursorOk` is the condition, on the state before a byte, under which these
stay on the screen; `cursor_on_screen_iff` says that it is exact for a run.
-/
import Wjos.Dev.Console
import Wjos.Lib.Run

namespace Wjos

open Lib

namespace Console

variable {c c' : Console}

/-- A console as `console_init` sizes it, with an index into the parameters
that is not negative. -/
structure Ready (c : Console) : Prop where
  rows : c.displayRows = consoleRowMax
  cols : c.displayCols = consoleColMax
  index : 0 ≤ c.currParamIndex

/-- The cursor is on the screen, and so was every cell that `show_char` stored. -/
structure OnScreen (c : Console) : Prop where
  row_nonneg : 0 ≤ c.cursorRow
  row_lt : c.cursorRow < c.displayRows
  col_nonneg : 0 ≤ c.cursorCol
  col_lt : c.cursorCol < c.displayCols
  shown : ∀ o ∈ c.shown, 0 ≤ o ∧ o < c.displayRows * c.displayCols

/-- `c'` differs from `c` in the cursor, which is on the screen, and in what
is displayed. -/
structure Moved (c c' : Console) : Prop where
  rows : c'.displayRows = c.displayRows
  cols : c'.displayCols = c.displayCols
  esc : c'.esc = c.esc
  onScreen : OnScreen c'

theorem Moved.refl (h : OnScreen c) : Moved c c := ⟨rfl, rfl, rfl, h⟩

theorem Moved.trans {c'' : Console} (h : Moved c c') (h' : Moved c' c'') : Moved c c'' :=
  ⟨h'.rows.trans h.rows, h'.cols.trans h.cols, h'.esc.trans h.esc, h'.onScreen⟩

theorem Moved.ready (h : Moved c c') (hr : Ready c) : Ready c' :=
  ⟨h.rows.trans hr.rows, h.cols.trans hr.cols, by
    rw [currParamIndex, h.esc]
    exact hr.index⟩

/-- Another cursor on the same screen. -/
theorem OnScreen.moveTo (h : OnScreen c) {row col : Int} (hr : 0 ≤ row ∧ row < c.displayRows)
    (hc : 0 ≤ col ∧ col < c.displayCols) :
    Moved c { c with cursorRow := row, cursorCol := col } :=
  ⟨rfl, rfl, rfl, hr.1, hr.2, hc.1, hc.2, h.shown⟩

/-! ## Moving the cursor -/

/-- The cursor moved to the next line, which scrolls at the last row. -/
theorem scroll_moved (hr : Ready c) (h : OnScreen c) {col : Int}
    (hc : 0 ≤ col ∧ col < c.displayCols) {c₁ : Console}
    (he : c₁ = { c with cursorRow := cInt (c.cursorRow + 1), cursorCol := col }) :
    Moved c (if c₁.cursorRow ≥ c₁.displayRows then scrollUp c₁ 1 else c₁) := by
  have hrows := hr.rows
  have hrow := h.row_nonneg
  have hlt := h.row_lt
  rw [consoleRowMax] at hrows
  have hnext : cInt (c.cursorRow + 1) = c.cursorRow + 1 :=
    cInt_eq (by omega) (by rw [intMax]; omega)
  subst he
  rw [hnext]
  split
  · -- the cursor is back in the row it came from
    have hback : (scrollUp { c with cursorRow := c.cursorRow + 1, cursorCol := col } 1).cursorRow =
        c.cursorRow := by
      simp only [scrollUp, Int.add_sub_cancel]
      exact cInt_eq (by omega) (by rw [intMax]; omega)
    refine ⟨rfl, rfl, rfl, ?_, ?_, hc.1, hc.2, h.shown⟩
    · rw [hback]
      exact hrow
    · rw [hback]
      exact hlt
  next hno =>
    have hno' : ¬c.cursorRow + 1 ≥ c.displayRows := hno
    exact h.moveTo ⟨by omega, by omega⟩ hc

theorem moveForwardOne_moved (hr : Ready c) (h : OnScreen c) : Moved c (moveForwardOne c) := by
  have hcols := hr.cols
  have hcol := h.col_nonneg
  have hlt := h.col_lt
  rw [consoleColMax] at hcols
  have hnext : cInt (c.cursorCol + 1) = c.cursorCol + 1 :=
    cInt_eq (by omega) (by rw [intMax]; omega)
  unfold moveForwardOne
  rw [hnext]
  dsimp only
  by_cases hedge : c.cursorCol + 1 ≥ c.displayCols
  · rw [if_pos hedge]
    exact scroll_moved hr h ⟨Int.le_refl 0, by omega⟩ rfl
  · rw [if_neg hedge]
    exact h.moveTo ⟨h.row_nonneg, h.row_lt⟩ ⟨by omega, by omega⟩

theorem moveForward_moved (hr : Ready c) (h : OnScreen c) (n : Nat) :
    Moved c (moveForward c n) := by
  induction n generalizing c with
  | zero => exact Moved.refl h
  | succ n ih =>
    have hone := moveForwardOne_moved hr h
    exact hone.trans (ih (hone.ready hr) hone.onScreen)

/-- The cell under a cursor on the screen lies on the screen. -/
theorem cursorOffset_mem (hr : Ready c) (h : OnScreen c) :
    0 ≤ c.cursorOffset ∧ c.cursorOffset < c.displayRows * c.displayCols := by
  obtain ⟨h₁, h₂, h₃, h₄, -⟩ := h
  have hrows := hr.rows
  have hcols := hr.cols
  rw [consoleRowMax] at hrows
  rw [consoleColMax] at hcols
  rw [cursorOffset, hcols, hrows]
  rw [hrows] at h₂
  rw [hcols] at h₄
  rw [cInt_eq (by omega) (by rw [intMax]; omega)]
  omega

theorem showChar_moved (hr : Ready c) (h : OnScreen c) (ch : UInt8) :
    Moved c (showChar c ch) := by
  have hoff := cursorOffset_mem hr h
  have hstore : Moved c { c with
      disp := Function.update c.disp (c.dispBase + c.cursorOffset) (c.cell ch)
      shown := c.cursorOffset :: c.shown } := by
    refine ⟨rfl, rfl, rfl, h.row_nonneg, h.row_lt, h.col_nonneg, h.col_lt, fun o ho => ?_⟩
    rcases List.mem_cons.mp ho with rfl | ho
    · exact hoff
    · exact h.shown o ho
  exact hstore.trans (moveForward_moved (hstore.ready hr) hstore.onScreen 1)

theorem moveBackwordOne_moved (hr : Ready c) (h : OnScreen c) :
    Moved c (moveBackwordOne c).1 := by
  have hlt := h.row_lt
  have hltc := h.col_lt
  have hcols := hr.cols
  rw [consoleColMax] at hcols
  unfold moveBackwordOne
  split
  next hcol => exact h.moveTo ⟨h.row_nonneg, hlt⟩ ⟨by omega, by omega⟩
  · split
    next hrow =>
      have hlast : cInt (c.displayCols - 1) = c.displayCols - 1 :=
        cInt_eq (by omega) (by rw [intMax]; omega)
      exact h.moveTo ⟨by omega, by omega⟩ ⟨by rw [hlast]; omega, by rw [hlast]; omega⟩
    · exact Moved.refl h

theorem moveBackword_moved (hr : Ready c) (h : OnScreen c) (n : Nat) :
    Moved c (moveBackword c n).1 := by
  unfold moveBackword
  generalize (-1 : Int) = status
  induction n generalizing c status with
  | zero => exact Moved.refl h
  | succ n ih =>
    have hone := moveBackwordOne_moved hr h
    exact hone.trans (ih (hone.ready hr) hone.onScreen _)

theorem eraseBackwordLoop_moved (hr : Ready c) (h : OnScreen c) (n : Nat) :
    Moved c (eraseBackwordLoop c n) := by
  induction n generalizing c with
  | zero => exact Moved.refl h
  | succ n ih =>
    have hback := moveBackword_moved hr h 1
    have hr₁ := hback.ready hr
    have hround : Moved c (if (moveBackword c 1).2 = 0 then
        (moveBackword (showChar (moveBackword c 1).1 32) 1).1 else (moveBackword c 1).1) := by
      split
      · have hshow := showChar_moved hr₁ hback.onScreen 32
        exact hback.trans (hshow.trans (moveBackword_moved (hshow.ready hr₁) hshow.onScreen 1))
      · exact hback
    exact hround.trans (ih (hround.ready hr) hround.onScreen)

theorem eraseBackword_moved (hr : Ready c) (h : OnScreen c) (n : Int) :
    Moved c (eraseBackword c n) := by
  unfold eraseBackword
  split
  · obtain ⟨h₁, h₂, h₃, h₄⟩ := eraseBackwordLoop_moved hr h n.toNat
    exact ⟨h₁, h₂, h₃, h₄.row_nonneg, h₄.row_lt, h₄.col_nonneg, h₄.col_lt, h₄.shown⟩
  · exact Moved.refl h

/-- Outside escape sequences the cursor stays on the screen. -/
theorem writeNormal_moved (hr : Ready c) (h : OnScreen c) (ch : UInt8) :
    Moved c (writeNormal c ch) := by
  unfold writeNormal
  split
  · exact ⟨rfl, rfl, rfl, h.row_nonneg, h.row_lt, h.col_nonneg, h.col_lt, h.shown⟩
  split
  · exact eraseBackword_moved hr h 1
  split
  · exact Moved.refl h
  split
  · exact moveBackword_moved hr h 1
  split
  · exact h.moveTo ⟨h.row_nonneg, h.row_lt⟩
      ⟨Int.le_refl 0, Int.lt_of_le_of_lt h.col_nonneg h.col_lt⟩
  split
  · exact scroll_moved hr h ⟨h.col_nonneg, h.col_lt⟩ rfl
  split
  · exact showChar_moved hr h ch
  · exact Moved.refl h

/-! ## Escape sequences -/

/-- The saved cursor is on the screen. -/
def SavedOnScreen (c : Console) : Prop :=
  0 ≤ c.oldCursorRow ∧ c.oldCursorRow < c.displayRows ∧
    0 ≤ c.oldCursorCol ∧ c.oldCursorCol < c.displayCols

/-- The first two parameters are a place on the screen. -/
def ParamsOnScreen (c : Console) : Prop :=
  0 ≤ c.esc 0 ∧ c.esc 0 < c.displayRows ∧ 0 ≤ c.esc 1 ∧ c.esc 1 < c.displayCols

/-- The commands that keep the cursor on the screen: an absolute move needs
parameters on the screen; a move to the left must not end right of it (its
parameter may have wrapped to a negative one), nor a move to the right left of
it. -/
def SquareOk (c : Console) (ch : UInt8) : Prop :=
  (ch = 68 → c.leftCol (c.esc 0) < c.displayCols) ∧ (ch = 67 → 0 ≤ c.rightCol (c.esc 0)) ∧
    (ch = 72 ∨ ch = 102 → ParamsOnScreen c)

/-- The bytes that keep the cursor on the screen: a restore needs a saved
cursor on the screen. -/
def CursorOk (c : Console) (ch : UInt8) : Prop :=
  match c.writeState with
  | .normal => True
  | .esc => ch = 56 → SavedOnScreen c
  | .square => SquareOk c ch

instance (c : Console) (ch : UInt8) : Decidable (CursorOk c ch) := by
  unfold CursorOk SavedOnScreen SquareOk ParamsOnScreen
  cases c.writeState <;> infer_instance

/-- A screen of the same size, with a cursor of its own. -/
structure SameScreen (c c' : Console) : Prop where
  rows : c'.displayRows = c.displayRows
  cols : c'.displayCols = c.displayCols
  index : 0 ≤ c.currParamIndex → 0 ≤ c'.currParamIndex
  shown : c'.shown = c.shown

theorem SameScreen.ready (h : SameScreen c c') (hr : Ready c) : Ready c' :=
  ⟨h.rows.trans hr.rows, h.cols.trans hr.cols, h.index hr.index⟩

/-- Without new output only the cursor counts. -/
theorem SameScreen.onScreen_iff (h : SameScreen c c') (ho : OnScreen c) :
    OnScreen c' ↔ 0 ≤ c'.cursorRow ∧ c'.cursorRow < c.displayRows ∧
      0 ≤ c'.cursorCol ∧ c'.cursorCol < c.displayCols := by
  rw [← h.rows, ← h.cols]
  refine ⟨fun h' => ⟨h'.row_nonneg, h'.row_lt, h'.col_nonneg, h'.col_lt⟩,
    fun ⟨h₁, h₂, h₃, h₄⟩ => ⟨h₁, h₂, h₃, h₄, ?_⟩⟩
  rw [h.shown, h.rows, h.cols]
  exact ho.shown

/-- Where the cursor stays, it stays on the screen. -/
theorem SameScreen.onScreen (h : SameScreen c c') (ho : OnScreen c)
    (hrow : c'.cursorRow = c.cursorRow) (hcol : c'.cursorCol = c.cursorCol) : OnScreen c' := by
  rw [h.onScreen_iff ho, hrow, hcol]
  exact ⟨ho.row_nonneg, ho.row_lt, ho.col_nonneg, ho.col_lt⟩

theorem writeEsc_same (c : Console) (ch : UInt8) : SameScreen c (writeEsc c ch) := by
  unfold writeEsc
  split
  · exact ⟨rfl, rfl, id, rfl⟩
  split
  · exact ⟨rfl, rfl, id, rfl⟩
  split
  · exact ⟨rfl, rfl, fun _ => Int.le_refl 0, rfl⟩
  · exact ⟨rfl, rfl, id, rfl⟩

theorem writeEsc_onScreen_iff (h : OnScreen c) (ch : UInt8) :
    OnScreen (writeEsc c ch) ↔ (ch = 56 → SavedOnScreen c) := by
  have hsame := writeEsc_same c ch
  by_cases h8 : ch = 56
  · subst h8
    rw [hsame.onScreen_iff h]
    exact ⟨fun hc _ => hc, fun hc => hc rfl⟩
  · refine iff_of_true (hsame.onScreen h ?_ ?_) fun he => absurd he h8
    · unfold writeEsc
      rw [if_neg h8]
      split
      · rfl
      · split <;> rfl
    · unfold writeEsc
      rw [if_neg h8]
      split
      · rfl
      · split <;> rfl

theorem setFontParam_frame (c : Console) (param : Int) :
    ∃ fg bg, setFontParam c param = { c with foreground := fg, background := bg } := by
  unfold setFontParam
  split
  · exact ⟨_, _, rfl⟩
  split
  · exact ⟨_, _, rfl⟩
  split
  · exact ⟨_, _, rfl⟩
  split
  · exact ⟨_, _, rfl⟩
  · exact ⟨_, _, rfl⟩

/-- Only the colours change. -/
theorem setFontStyle_frame (c : Console) :
    ∃ fg bg, setFontStyle c = { c with foreground := fg, background := bg } := by
  have hfold : ∀ (l : List Nat) (c₁ : Console),
      (∃ fg bg, c₁ = { c with foreground := fg, background := bg }) →
      ∃ fg bg, l.foldl (fun c' i => setFontParam c' (c.esc i)) c₁ =
        { c with foreground := fg, background := bg } := by
    intro l
    induction l with
    | nil => exact fun _ h => h
    | cons i l ih =>
      rintro c₁ ⟨fg, bg, rfl⟩
      obtain ⟨fg', bg', he⟩ :=
        setFontParam_frame { c with foreground := fg, background := bg } (c.esc i)
      exact ih _ ⟨fg', bg', he⟩
  exact hfold _ c ⟨c.foreground, c.background, rfl⟩

theorem moveLeft_onScreen_iff (hr : Ready c) (h : OnScreen c) (n : Int) :
    OnScreen { moveLeft c n with writeState := .normal } ↔ c.leftCol n < c.displayCols := by
  have hsame : SameScreen c { moveLeft c n with writeState := .normal } := ⟨rfl, rfl, id, rfl⟩
  have hcols : 0 < c.displayCols := by
    rw [hr.cols]
    decide
  rw [hsame.onScreen_iff h]
  simp only [moveLeft, h.row_nonneg, h.row_lt, true_and]
  split <;> omega

theorem moveRight_onScreen_iff (hr : Ready c) (h : OnScreen c) (n : Int) :
    OnScreen { moveRight c n with writeState := .normal } ↔ 0 ≤ c.rightCol n := by
  have hsame : SameScreen c { moveRight c n with writeState := .normal } := ⟨rfl, rfl, id, rfl⟩
  have hcols := hr.cols
  rw [consoleColMax] at hcols
  rw [hsame.onScreen_iff h]
  simp only [moveRight, h.row_nonneg, h.row_lt, true_and]
  have hlast : cInt (c.displayCols - 1) = c.displayCols - 1 :=
    cInt_eq (by omega) (by rw [intMax]; omega)
  rw [hlast]
  split <;> omega

theorem eraseInDisplay_moved (hr : Ready c) (h : OnScreen c) : Moved c (eraseInDisplay c) := by
  have hrows := hr.rows
  have hcols := hr.cols
  rw [consoleRowMax] at hrows
  rw [consoleColMax] at hcols
  unfold eraseInDisplay
  split
  · exact Moved.refl h
  split
  · exact ⟨rfl, rfl, rfl, Int.le_refl 0, by dsimp only [eraseRows]; omega, Int.le_refl 0,
      by dsimp only [eraseRows]; omega, h.shown⟩
  · exact Moved.refl h

/-- A digit changes `curr_param_index` only where the index has run past the
parameters and reached it. -/
theorem index_digit (hr : Ready c) {ch : UInt8} (hd : 48 ≤ ch ∧ ch ≤ 57) :
    0 ≤ Function.update c.esc c.currParamIndex.toNat
      (cInt (c.esc c.currParamIndex.toNat * 10 + ch.toNat - 48)) escParamMax := by
  have h₁ : 48 ≤ ch.toNat := UInt8.le_iff_toNat_le.mp hd.1
  have h₂ : ch.toNat ≤ 57 := UInt8.le_iff_toNat_le.mp hd.2
  have hidx := hr.index
  by_cases hi : escParamMax = c.currParamIndex.toNat
  · have hten : c.currParamIndex = 10 := by
      rw [escParamMax] at hi
      omega
    have hcell : c.esc c.currParamIndex.toNat = 10 := by
      rw [← hi]
      exact hten
    rw [hcell, ← hi, Function.update_self, cInt_eq (by omega) (by rw [intMax]; omega)]
    omega
  · rw [Function.update_of_ne hi]
    exact hidx

/-- The screen keeps its size in every command. -/
theorem escCommand_same (c : Console) (ch : UInt8) :
    SameScreen c { escCommand c ch with writeState := .normal } := by
  unfold escCommand
  split
  · obtain ⟨fg, bg, he⟩ := setFontStyle_frame c
    rw [he]
    exact ⟨rfl, rfl, id, rfl⟩
  split
  · exact ⟨rfl, rfl, id, rfl⟩
  split
  · exact ⟨rfl, rfl, id, rfl⟩
  split
  · exact ⟨rfl, rfl, id, rfl⟩
  split
  · unfold eraseInDisplay
    split
    · exact ⟨rfl, rfl, id, rfl⟩
    split
    · exact ⟨rfl, rfl, id, rfl⟩
    · exact ⟨rfl, rfl, id, rfl⟩
  · exact ⟨rfl, rfl, id, rfl⟩

/-- Bytes that are no move. -/
theorem SquareOk.of_ne {ch : UInt8} (hD : ch ≠ 68) (hC : ch ≠ 67) (hH : ¬(ch = 72 ∨ ch = 102)) :
    SquareOk c ch :=
  ⟨fun he => absurd he hD, fun he => absurd he hC, fun he => absurd he hH⟩

theorem escCommand_onScreen_iff (hr : Ready c) (h : OnScreen c) (ch : UInt8) :
    OnScreen { escCommand c ch with writeState := .normal } ↔ SquareOk c ch := by
  by_cases hD : ch = 68
  · subst hD
    rw [show escCommand c 68 = moveLeft c (c.esc 0) from rfl, moveLeft_onScreen_iff hr h]
    simp [SquareOk]
  by_cases hC : ch = 67
  · subst hC
    rw [show escCommand c 67 = moveRight c (c.esc 0) from rfl, moveRight_onScreen_iff hr h]
    simp [SquareOk]
  by_cases hH : ch = 72 ∨ ch = 102
  · have hcmd : escCommand c ch = moveCursor c := by
      rcases hH with rfl | rfl <;> rfl
    rw [(escCommand_same c ch).onScreen_iff h, hcmd]
    simp [SquareOk, hD, hC, hH, ParamsOnScreen, moveCursor]
  · -- the other commands do not move the cursor, or put it into the first cell
    refine iff_of_true ?_ (SquareOk.of_ne hD hC hH)
    have hmoved : OnScreen (escCommand c ch) := by
      unfold escCommand
      rw [if_neg hD, if_neg hC, if_neg hH]
      split
      · obtain ⟨fg, bg, he⟩ := setFontStyle_frame c
        rw [he]
        exact ⟨h.row_nonneg, h.row_lt, h.col_nonneg, h.col_lt, h.shown⟩
      split
      · exact (eraseInDisplay_moved hr h).onScreen
      · exact h
    exact ⟨hmoved.row_nonneg, hmoved.row_lt, hmoved.col_nonneg, hmoved.col_lt, hmoved.shown⟩

theorem writeEscSquare_same (hr : Ready c) (ch : UInt8) : SameScreen c (writeEscSquare c ch) := by
  unfold writeEscSquare
  split
  next hd => exact ⟨rfl, rfl, fun _ => index_digit hr hd, rfl⟩
  split
  next hs =>
    have hindex : 0 ≤ c.currParamIndex → 0 ≤ Function.update c.esc escParamMax
        (c.currParamIndex + 1) escParamMax := by
      rw [Function.update_self]
      omega
    exact ⟨rfl, rfl, hindex, rfl⟩
  · exact escCommand_same c ch

theorem writeEscSquare_onScreen_iff (hr : Ready c) (h : OnScreen c) (ch : UInt8) :
    OnScreen (writeEscSquare c ch) ↔ SquareOk c ch := by
  have hsame := writeEscSquare_same hr ch
  by_cases hdigit : 48 ≤ ch ∧ ch ≤ 57
  · have hok : SquareOk c ch := by
      refine SquareOk.of_ne ?_ ?_ ?_
      · rintro rfl
        exact absurd hdigit (by decide)
      · rintro rfl
        exact absurd hdigit (by decide)
      · rintro (rfl | rfl)
        · exact absurd hdigit (by decide)
        · exact absurd hdigit (by decide)
    refine iff_of_true (hsame.onScreen h ?_ ?_) hok
    · rw [writeEscSquare, if_pos hdigit]
    · rw [writeEscSquare, if_pos hdigit]
  by_cases hsemi : ch = 59 ∧ c.currParamIndex < escParamMax
  · have hok : SquareOk c ch := by
      rw [hsemi.1]
      exact SquareOk.of_ne (by decide) (by decide) (by decide)
    refine iff_of_true (hsame.onScreen h ?_ ?_) hok
    · rw [writeEscSquare, if_neg hdigit, if_pos hsemi]
    · rw [writeEscSquare, if_neg hdigit, if_pos hsemi]
  · rw [writeEscSquare, if_neg hdigit, if_neg hsemi]
    exact escCommand_onScreen_iff hr h ch

/-! ## Streams -/

/-- A byte leaves the cursor on the screen exactly when it meets `CursorOk`. -/
theorem write_onScreen_iff (hr : Ready c) (h : OnScreen c) (ch : UInt8) :
    Ready (write c ch) ∧ (OnScreen (write c ch) ↔ CursorOk c ch) := by
  unfold write CursorOk
  cases c.writeState with
  | normal =>
    have hm := writeNormal_moved hr h ch
    exact ⟨hm.ready hr, iff_of_true hm.onScreen trivial⟩
  | esc => exact ⟨(writeEsc_same c ch).ready hr, writeEsc_onScreen_iff h ch⟩
  | square => exact ⟨(writeEscSquare_same hr ch).ready hr, writeEscSquare_onScreen_iff hr h ch⟩

/-- `console_init` makes a console ready, with the cursor and the saved cursor
on the screen if the hardware cursor is. -/
theorem init_ready (c : Console) (idx : Nat) {cursorPos : Nat} (hp : cursorPos < 2000) :
    0 ≤ c.currParamIndex → c.shown = [] →
      Ready (c.init idx cursorPos) ∧ OnScreen (c.init idx cursorPos) ∧
        SavedOnScreen (c.init idx cursorPos) := by
  intro hidx hshown
  unfold init
  by_cases h0 : idx = 0
  · simp only [if_pos h0]
    refine ⟨⟨rfl, rfl, hidx⟩, ⟨?_, ?_, ?_, ?_, by simp [hshown]⟩, ⟨?_, ?_, ?_, ?_⟩⟩ <;>
      simp only [consoleColMax, consoleRowMax] <;> omega
  · simp only [if_neg h0]
    refine ⟨⟨rfl, rfl, hidx⟩, ⟨?_, ?_, ?_, ?_, by simp [clearDisplay, hshown]⟩,
      ⟨?_, ?_, ?_, ?_⟩⟩ <;>
      simp only [clearDisplay, consoleColMax, consoleRowMax] <;> omega

end Console

/-- What happens to a console: a byte is written, or other code runs, which
uses the mutex and the history behind the parameters. -/
inductive ConsoleEvent where
  | write (ch : UInt8)
  | other (rest : Nat → Int)

def consoleStep (c : Console) : ConsoleEvent → Option Console
  | .write ch => some (c.write ch)
  | .other rest => some { c with esc := fun i => if i ≤ escParamMax then c.esc i else rest i }

/-- The condition on an event. -/
def ConsoleEvent.CursorOk (c : Console) : ConsoleEvent → Prop
  | .write ch => c.CursorOk ch
  | .other _ => True

instance (c : Console) (e : ConsoleEvent) : Decidable (e.CursorOk c) := by
  cases e <;> unfold ConsoleEvent.CursorOk <;> infer_instance

theorem consoleStep_onScreen_iff (c : Console) (e : ConsoleEvent) (c' : Console) (hr : c.Ready)
    (h : c.OnScreen) (hs : consoleStep c e = some c') :
    c'.Ready ∧ (c'.OnScreen ↔ e.CursorOk c) := by
  cases e with
  | write ch =>
    obtain rfl := Option.some.inj hs
    exact Console.write_onScreen_iff hr h ch
  | other rest =>
    obtain rfl := Option.some.inj hs
    refine ⟨⟨hr.rows, hr.cols, ?_⟩, iff_of_true ?_ trivial⟩
    · exact hr.index
    · exact ⟨h.row_nonneg, h.row_lt, h.col_nonneg, h.col_lt, h.shown⟩

/-- From a cursor on the screen, it stays there after every byte of a stream,
and `show_char` stores only on the screen, exactly when every byte meets
`CursorOk` in the state before it. -/
theorem cursor_on_screen_iff {c : Console} (hr : c.Ready) (h : c.OnScreen)
    (es : List ConsoleEvent) :
    (∀ fs c', fs <+: es → run consoleStep c fs = some c' → c'.OnScreen) ↔
      Along consoleStep (fun c e => e.CursorOk c) c es := by
  refine always_iff_along (fun c e hs => ?_) consoleStep_onScreen_iff hr h
  cases e with
  | write ch => exact absurd hs (by simp [consoleStep])
  | other rest => exact absurd hs (by simp [consoleStep])

/-- `ESC [ C` on a fresh console. -/
theorem cursor_on_screen_iff_move_right :
    ∃ c', run consoleStep (Console.zero.init 1 0) [.write 27, .write 91, .write 67] = some c' ∧
      c'.OnScreen := by
  obtain ⟨hr, ho, -⟩ := Console.init_ready Console.zero 1 (by decide : 0 < 2000) (by decide) rfl
  exact ⟨_, rfl, (cursor_on_screen_iff hr ho [.write 27, .write 91, .write 67]).mpr (by decide)
    _ _ List.prefix_rfl rfl⟩

/-- `ESC [ 9 9 ; 9 9 H` on a fresh console puts the cursor into row 99. -/
theorem move_cursor_leaves_screen :
    (Console.zero.init 1 0).Ready ∧ (Console.zero.init 1 0).OnScreen ∧
      ∃ c', run consoleStep (Console.zero.init 1 0)
          [.write 27, .write 91, .write 57, .write 57, .write 59, .write 57, .write 57, .write 72] =
        some c' ∧ c'.cursorRow = 99 ∧ ¬c'.OnScreen := by
  obtain ⟨hr, ho, -⟩ := Console.init_ready Console.zero 1 (by decide : 0 < 2000) (by decide) rfl
  refine ⟨hr, ho, _, rfl, by decide, fun h => ?_⟩
  exact absurd h.row_lt (by decide)

end Wjos
