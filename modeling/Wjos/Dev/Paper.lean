/-
Wjos.Dev.Paper — the screen as a window on the output.

The console has 25 rows and copies them one up when it needs another. On
`Paper` nothing moves: lines are added at the end, and what has been written
stays. `ShowsPaper p c` says that the screen of `c` is the last 25 lines of `p`;
each operation of the console keeps it (`ShowsPaper.print`, `ShowsPaper.lineFeed`, …),
and with it every output that is made of `Out`, whose bytes go through the
parser of escape sequences (`paramBytes_written`). So `console_shows_paper`:
after any output the screen shows the last lines of the paper, and
`apply_frozen`: no output alters a line that has left the screen.

Translation notes. An absolute move must be one to the screen, as `move_cursor`
does not check; the parameters of an escape sequence are numbers below 100.
-/
import Mathlib.Data.List.Induction
import Wjos.Dev.ConsoleParams

namespace Wjos

open Lib

/-! ## Paper -/

/-- Lines without end, a pen, and the first line that the screen shows. A saved
place is one of the screen. -/
structure Paper where
  line : Int → Int → DispChar
  top : Int
  row : Int
  col : Int
  savedRow : Int
  savedCol : Int
  foreground : Color
  background : Color

namespace Paper

variable (p : Paper)

/-- `ch` as the pen writes it. -/
def ink (ch : UInt8) : DispChar where
  c := ch
  foreground := BitVec.ofNat 4 p.foreground.toNat
  background := BitVec.ofNat 3 p.background.toNat

/-- Writes into the cell at the pen. -/
def put (ch : UInt8) : Paper :=
  { p with line := Function.update p.line p.row (Function.update (p.line p.row) p.col (p.ink ch)) }

/-- The pen goes one line down; the screen follows, with a blank line. -/
def nextLine : Paper :=
  if p.row + 1 < p.top + 25 then { p with row := p.row + 1 }
  else
    { p with
      line := Function.update p.line (p.top + 25) fun _ => p.ink 32
      top := p.top + 1
      row := p.row + 1 }

/-- The pen goes one cell on. -/
def advance : Paper :=
  if p.col + 1 < 80 then { p with col := p.col + 1 } else { p with col := 0 }.nextLine

/-- There is a cell before the pen on the screen. -/
def CanBack : Prop := 0 < p.col ∨ p.top < p.row

instance : Decidable p.CanBack := inferInstanceAs (Decidable (_ ∨ _))

/-- The pen goes one cell back, as far as the screen goes. -/
def back : Paper :=
  if 0 < p.col then { p with col := p.col - 1 }
  else if p.top < p.row then { p with row := p.row - 1, col := 79 }
  else p

/-- One parameter of a style. -/
def style (param : Int) : Paper :=
  if 30 ≤ param ∧ param ≤ 37 then { p with foreground := Console.colorTable (param - 30) }
  else if 40 ≤ param ∧ param ≤ 47 then { p with background := Console.colorTable (param - 40) }
  else if param = 39 then { p with foreground := defaultForeground }
  else if param = 49 then { p with background := .black }
  else p

/-- All that is on the screen becomes blank. -/
def clear : Paper :=
  { p with
    line := fun r => if p.top ≤ r ∧ r < p.top + 25 then fun _ => p.ink 32 else p.line r
    row := p.top
    col := 0 }

end Paper

/-- What is sent to a console. -/
inductive Out where
  | print (ch : {ch : UInt8 // 32 ≤ ch ∧ ch ≤ 126})
  | bell
  | back
  | delete
  | carriageReturn
  | lineFeed
  | save
  | restore
  | style (params : {ps : List (Fin 100) // 1 ≤ ps.length ∧ ps.length ≤ 10})
  | left (n : Fin 100)
  | right (n : Fin 100)
  | moveTo (row : Fin 25) (col : Fin 80)
  | clear

/-- What it does to the paper. -/
def Out.apply (p : Paper) : Out → Paper
  | .print ch => (p.put ch).advance
  | .bell => p
  | .back => p.back
  | .delete => if p.CanBack then p.back.put 32 else p
  | .carriageReturn => { p with col := 0 }
  | .lineFeed => p.nextLine
  | .save => { p with savedRow := p.row - p.top, savedCol := p.col }
  | .restore => { p with row := p.top + p.savedRow, col := p.savedCol }
  | .style params => params.val.foldl (fun p n => p.style n.val) p
  | .left n => { p with col := max 0 (p.col - max 1 (n.val : Int)) }
  | .right n => { p with col := min 79 (p.col + max 1 (n.val : Int)) }
  | .moveTo row col => { p with row := p.top + row.val, col := col.val }
  | .clear => p.clear

/-- A number below 100 in decimal. -/
def decimalBytes (n : Fin 100) : List UInt8 :=
  if n.val < 10 then [48 + n.val.toUInt8]
  else [48 + (n.val / 10).toUInt8, 48 + (n.val % 10).toUInt8]

/-- Parameters, with a separator between them. -/
def paramBytes : List (Fin 100) → List UInt8
  | [] => []
  | [n] => decimalBytes n
  | n :: m :: ps => decimalBytes n ++ 59 :: paramBytes (m :: ps)

/-- `ESC [`, the parameters and the command. -/
def square (params : List (Fin 100)) (command : UInt8) : List UInt8 :=
  27 :: 91 :: (paramBytes params ++ [command])

/-- The bytes of an output. -/
def Out.encode : Out → List UInt8
  | .print ch => [ch]
  | .bell => [7]
  | .back => [8]
  | .delete => [0x7f]
  | .carriageReturn => [13]
  | .lineFeed => [10]
  | .save => [27, 55]
  | .restore => [27, 56]
  | .style params => square params 109
  | .left n => square [n] 68
  | .right n => square [n] 67
  | .moveTo row col => square [row.castLE (by decide), col.castLE (by decide)] 72
  | .clear => square [2] 74

/-! ## The screen -/

/-- The screen of `c` is the last 25 lines of `p`, and the cursor is the pen. -/
structure ShowsPaper (p : Paper) (c : Console) : Prop where
  rows : c.displayRows = 25
  cols : c.displayCols = 80
  row : c.cursorRow = p.row - p.top
  col : c.cursorCol = p.col
  onRow : p.top ≤ p.row ∧ p.row < p.top + 25
  onCol : 0 ≤ p.col ∧ p.col < 80
  savedRow : c.oldCursorRow = p.savedRow
  savedCol : c.oldCursorCol = p.savedCol
  savedOnRow : 0 ≤ p.savedRow ∧ p.savedRow < 25
  savedOnCol : 0 ≤ p.savedCol ∧ p.savedCol < 80
  foreground : c.foreground = p.foreground
  background : c.background = p.background
  cells : ∀ i j, 0 ≤ i → i < 25 → 0 ≤ j → j < 80 →
    c.disp (c.dispBase + 80 * i + j) = p.line (p.top + i) j

namespace ShowsPaper

variable {p : Paper} {c : Console}

theorem cell (h : ShowsPaper p c) (ch : UInt8) : c.cell ch = p.ink ch := by
  rw [Console.cell, Paper.ink, h.foreground, h.background]

/-- The parser and the input do not show. -/
theorem frame (h : ShowsPaper p c) (state : WriteState) (esc : Nat → Int) (n : Int) :
    ShowsPaper p { c with writeState := state, esc := esc, inputLen := n } :=
  ⟨h.rows, h.cols, h.row, h.col, h.onRow, h.onCol, h.savedRow, h.savedCol, h.savedOnRow,
    h.savedOnCol, h.foreground, h.background, h.cells⟩

/-- Another place for cursor and pen. -/
theorem move (h : ShowsPaper p c) {row col row' col' : Int} (hrow : 0 ≤ row ∧ row < 25)
    (hcol : 0 ≤ col ∧ col < 80) (hrow' : row' = p.top + row) (hcol' : col' = col) :
    ShowsPaper { p with row := row', col := col' }
      { c with cursorRow := row, cursorCol := col } where
  rows := h.rows
  cols := h.cols
  row := by dsimp only; omega
  col := hcol'.symm
  onRow := by dsimp only; omega
  onCol := by dsimp only; omega
  savedRow := h.savedRow
  savedCol := h.savedCol
  savedOnRow := h.savedOnRow
  savedOnCol := h.savedOnCol
  foreground := h.foreground
  background := h.background
  cells := h.cells

/-- Another column. -/
theorem moveCol (h : ShowsPaper p c) {col : Int} (hcol : 0 ≤ col ∧ col < 80) :
    ShowsPaper { p with col := col } { c with cursorCol := col } := by
  have hrow := h.row
  have honRow := h.onRow
  have hin : 0 ≤ c.cursorRow ∧ c.cursorRow < 25 := by omega
  exact h.move hin hcol (show p.row = p.top + c.cursorRow by omega) rfl

/-- A character in the cell under the cursor. -/
theorem put (h : ShowsPaper p c) (ch : UInt8) (shown : List Int) :
    ShowsPaper (p.put ch) { c with
      disp := Function.update c.disp (c.dispBase + c.cursorOffset) (c.cell ch)
      shown := shown } where
  rows := h.rows
  cols := h.cols
  row := h.row
  col := h.col
  onRow := h.onRow
  onCol := h.onCol
  savedRow := h.savedRow
  savedCol := h.savedCol
  savedOnRow := h.savedOnRow
  savedOnCol := h.savedOnCol
  foreground := h.foreground
  background := h.background
  cells i j hi hi' hj hj' := by
    have hcells := h.cells i j hi hi' hj hj'
    have hrow := h.row
    have hcol := h.col
    have honRow := h.onRow
    have honCol := h.onCol
    have hoffset : c.cursorOffset = 80 * (p.row - p.top) + p.col := by
      rw [Console.cursorOffset, h.cols, hrow, hcol, cInt_eq (by omega) (by rw [intMax]; omega)]
      omega
    simp only [Paper.put, hoffset]
    by_cases hline : p.top + i = p.row
    · by_cases hcell : j = p.col
      · have hplace : c.dispBase + 80 * i + j = c.dispBase + (80 * (p.row - p.top) + p.col) := by
          omega
        rw [hplace, hline, hcell, Function.update_self, Function.update_self, Function.update_self,
          h.cell]
      · rw [Function.update_of_ne (by omega), hline, Function.update_self,
          Function.update_of_ne hcell, ← hline]
        exact hcells
    · rw [Function.update_of_ne (by omega), Function.update_of_ne hline]
      exact hcells

/-- The cursor goes to the next line, where the screen scrolls at its end. -/
theorem nextLine (h : ShowsPaper p c) {col : Int} (hcol : 0 ≤ col ∧ col < 80) {c₁ : Console}
    (he : c₁ = { c with cursorRow := cInt (c.cursorRow + 1), cursorCol := col }) :
    ShowsPaper ({ p with col := col } : Paper).nextLine
      (if c₁.cursorRow ≥ c₁.displayRows then c₁.scrollUp 1 else c₁) := by
  have hrow := h.row
  have honRow := h.onRow
  have hnext : cInt (c.cursorRow + 1) = c.cursorRow + 1 :=
    cInt_eq (by omega) (by rw [intMax]; omega)
  have hrows := h.rows
  subst he
  simp only [hnext, Paper.nextLine]
  by_cases hlast : p.row + 1 < p.top + 25
  · rw [if_pos hlast, if_neg (by omega)]
    have hin : 0 ≤ c.cursorRow + 1 ∧ c.cursorRow + 1 < 25 := by omega
    exact h.move hin hcol (by omega) rfl
  · rw [if_neg hlast, if_pos (by omega)]
    have hback : cInt (c.cursorRow + 1 - 1) = c.cursorRow :=
      (cInt_eq (by omega) (by rw [intMax]; omega)).trans (by omega)
    refine ⟨h.rows, h.cols, ?_, rfl, ?_, hcol, h.savedRow, h.savedCol, h.savedOnRow,
      h.savedOnCol, h.foreground, h.background, fun i j hi hi' hj hj' => ?_⟩
    · simp only [Console.scrollUp, hback]
      omega
    · dsimp only
      omega
    · have hcells := h.cells (i + 1) j
      simp only [Console.scrollUp, Console.eraseRows, h.rows, h.cols]
      by_cases hlow : i = 24
      · have htop : p.top + 1 + i = p.top + 25 := by omega
        rw [if_pos (by omega), htop, Function.update_self]
        exact h.cell 32
      · have hplace : c.dispBase + 80 * i + j + 80 * 1 = c.dispBase + 80 * (i + 1) + j := by omega
        have hline : p.top + 1 + i = p.top + (i + 1) := by omega
        rw [if_neg (by omega), if_pos (by omega), hplace, hcells (by omega) (by omega) hj hj',
          Function.update_of_ne (by omega), hline]

theorem advance (h : ShowsPaper p c) : ShowsPaper p.advance c.moveForwardOne := by
  have hcol := h.col
  have honCol := h.onCol
  have hcols := h.cols
  have hnext : cInt (c.cursorCol + 1) = c.cursorCol + 1 :=
    cInt_eq (by omega) (by rw [intMax]; omega)
  simp only [Console.moveForwardOne, hnext, Paper.advance]
  by_cases hedge : p.col + 1 < 80
  · rw [if_pos hedge, if_neg (by omega)]
    have hin : 0 ≤ p.col + 1 ∧ p.col + 1 < 80 := by omega
    rw [hcol]
    exact h.moveCol hin
  · rw [if_neg hedge, if_pos (by omega)]
    exact h.nextLine ⟨by omega, by omega⟩ rfl

theorem print (h : ShowsPaper p c) (ch : UInt8) : ShowsPaper (p.put ch).advance (c.showChar ch) :=
  (h.put ch _).advance

/-- One cell back; the status says whether there is one. -/
theorem back (h : ShowsPaper p c) :
    ShowsPaper p.back (c.moveBackword 1).1 ∧ ((c.moveBackword 1).2 = 0 ↔ p.CanBack) := by
  have hrow := h.row
  have hcol := h.col
  have honRow := h.onRow
  have honCol := h.onCol
  simp only [Console.moveBackword, Console.moveBackwordLoop, Console.moveBackwordOne, Paper.back,
    Paper.CanBack, gt_iff_lt, hcol]
  by_cases hleft : 0 < p.col
  · have hin : 0 ≤ p.col - 1 ∧ p.col - 1 < 80 := by omega
    simp only [if_pos hleft]
    exact ⟨h.moveCol hin, by simp [hleft]⟩
  by_cases hup : p.top < p.row
  · have hpos : 0 < c.cursorRow := by omega
    have hlast : cInt (c.displayCols - 1) = 79 := by
      rw [h.cols]
      decide
    have hin : 0 ≤ c.cursorRow - 1 ∧ c.cursorRow - 1 < 25 := by omega
    simp only [if_neg hleft, if_pos hup, if_pos hpos, hlast]
    exact ⟨h.move hin (by decide) (by omega) rfl, by simp [hup]⟩
  · have hzero : ¬0 < c.cursorRow := by omega
    simp only [if_neg hleft, if_neg hup, if_neg hzero]
    exact ⟨h, by simp [hleft, hup]⟩

end ShowsPaper

/-- A character in the cell before the pen does not make the screen scroll. -/
theorem Paper.back_advance {p : Paper} (honRow : p.row < p.top + 25) (honCol : p.col < 80)
    (hback : p.CanBack) (ch : UInt8) :
    (p.back.put ch).advance.back = p.back.put ch ∧ (p.back.put ch).advance.CanBack := by
  by_cases hleft : 0 < p.col
  · simp [Paper.back, Paper.put, Paper.advance, Paper.ink, Paper.CanBack, hleft, honCol]
  · have hup : p.top < p.row := hback.resolve_left hleft
    simp [Paper.back, Paper.put, Paper.advance, Paper.nextLine, Paper.ink, Paper.CanBack, hleft,
      hup, honRow]

namespace ShowsPaper

variable {p : Paper} {c : Console}

/-- The character before the cursor is deleted. -/
theorem delete (h : ShowsPaper p c) :
    ShowsPaper (if p.CanBack then p.back.put 32 else p) (c.eraseBackword 1) := by
  obtain ⟨hback, hstatus⟩ := h.back
  simp only [Console.eraseBackword, Int.toNat_one, Console.eraseBackwordLoop]
  rw [if_pos (show (1 : Int) ≠ 0 by decide)]
  by_cases hcan : p.CanBack
  · have hprint := (hback.print 32).back.1
    rw [(Paper.back_advance h.onRow.2 h.onCol.2 hcan 32).1] at hprint
    simp only [if_pos hcan, if_pos (hstatus.mpr hcan)]
    exact hprint.frame _ _ _
  · have hstay : p.back = p := by
      have hcan' := not_or.mp hcan
      rw [Paper.back, if_neg hcan'.1, if_neg hcan'.2]
    rw [hstay] at hback
    simp only [if_neg hcan, if_neg fun hc => hcan (hstatus.mp hc)]
    exact hback.frame _ _ _

end ShowsPaper

/-! ## Escape sequences -/

/-- The console `c₀` inside `ESC [`, with the parameters `ds` read and the index at
`n`; the parameters to come are zero. -/
structure EscReading (c₀ : Console) (ds : List (Fin 100)) (n : Nat) (c : Console) : Prop where
  frame : c = { c₀ with writeState := .square, esc := c.esc }
  index : c.esc escParamMax = n
  param : ∀ (i : Nat) (hi : i < ds.length), c.esc i = ds[i].val
  zero : ∀ i, ds.length ≤ i → i < escParamMax → c.esc i = 0

namespace EscReading

variable {c₀ c : Console} {ds : List (Fin 100)}

/-- `ESC [`. -/
theorem start (h : c₀.writeState = .normal) :
    EscReading c₀ [] 0 ((c₀.write 27).write 91) := by
  have hesc : c₀.write 27 = { c₀ with writeState := .esc } := by
    simp [Console.write, h, Console.writeNormal, asciiEsc]
  rw [hesc]
  constructor
  · simp [Console.write, Console.writeEsc, Console.clearEscParam]
  · simp [Console.write, Console.writeEsc, Console.clearEscParam]
  · simp
  · intro i _ hi
    simp [Console.write, Console.writeEsc, Console.clearEscParam, Nat.not_lt.mpr (Nat.le_of_lt hi)]

theorem digit_spec : ∀ d : Fin 10, (48 + d.val.toUInt8).toNat = 48 + d.val ∧
    48 ≤ 48 + d.val.toUInt8 ∧ 48 + d.val.toUInt8 ≤ 57 := by
  decide

/-- A digit goes to the parameter at the index. -/
theorem digit {n v d : Nat} (h : c.writeState = .square) (hidx : c.esc escParamMax = n)
    (hv : c.esc n = v) (hsmall : v < 100) (hd : d < 10) :
    c.write (48 + d.toUInt8) =
      { c with esc := Function.update c.esc n ((v * 10 + d : Nat) : Int) } := by
  obtain ⟨hnat, hlo, hhi⟩ := digit_spec ⟨d, hd⟩
  dsimp only at hnat hlo hhi
  have hindex : c.currParamIndex.toNat = n := by
    rw [Console.currParamIndex, hidx]
    rfl
  have hvalue : cInt (c.esc n * 10 + ((48 + d.toUInt8).toNat : Nat) - 48) =
      ((v * 10 + d : Nat) : Int) := by
    rw [hnat, hv, cInt_eq (by push_cast; omega) (by rw [intMax]; push_cast; omega)]
    push_cast
    omega
  simp only [Console.write, h, Console.writeEscSquare]
  rw [if_pos ⟨hlo, hhi⟩, hindex, hvalue]

/-- A number goes to the parameter at the index. -/
theorem number {n : Nat} (h : c.writeState = .square) (hidx : c.esc escParamMax = n)
    (hn : n < escParamMax) (h0 : c.esc n = 0) (v : Fin 100) :
    (decimalBytes v).foldl Console.write c =
      { c with esc := Function.update c.esc n (v.val : Int) } := by
  have hv := v.isLt
  unfold decimalBytes
  by_cases hone : v.val < 10
  · have hstep := digit (v := 0) h hidx h0 (by omega) hone
    rw [if_pos hone, List.foldl_cons, hstep, Nat.zero_mul, Nat.zero_add]
    rfl
  · have htens : v.val / 10 < 10 := by omega
    have hfirst := digit (v := 0) h hidx h0 (by omega) htens
    rw [Nat.zero_mul, Nat.zero_add] at hfirst
    have hsecond := @digit { c with esc := Function.update c.esc n ((v.val / 10 : Nat) : Int) } n
      (v.val / 10) (v.val % 10) h
      (by dsimp only; rw [Function.update_of_ne (Nat.ne_of_gt hn), hidx]) (by simp) (by omega)
      (by omega)
    have hsum : v.val / 10 * 10 + v.val % 10 = v.val := by omega
    rw [if_neg hone, List.foldl_cons, List.foldl_cons, hfirst, hsecond, hsum]
    simp

/-- One more parameter. -/
theorem read (h : EscReading c₀ ds ds.length c) (hlen : ds.length < escParamMax) (v : Fin 100) :
    EscReading c₀ (ds ++ [v]) ds.length ((decimalBytes v).foldl Console.write c) := by
  have hstate : c.writeState = .square := by rw [h.frame]
  rw [number hstate h.index hlen (h.zero _ (Nat.le_refl _) hlen) v]
  refine ⟨?_, ?_, fun i hi => ?_, fun i hi hi' => ?_⟩
  · rw [h.frame]
  · dsimp only
    rw [Function.update_of_ne (Nat.ne_of_gt hlen), h.index]
  · dsimp only
    rw [List.length_append, List.length_singleton] at hi
    rcases Nat.lt_succ_iff_lt_or_eq.mp hi with hlt | rfl
    · rw [Function.update_of_ne (Nat.ne_of_lt hlt), h.param i hlt, List.getElem_append_left hlt]
    · simp
  · rw [List.length_append, List.length_singleton] at hi
    dsimp only
    rw [Function.update_of_ne (by omega), h.zero i (by omega) hi']

/-- A separator. -/
theorem separator {n : Nat} (h : EscReading c₀ ds n c) (hn : n < escParamMax)
    (hds : ds.length ≤ escParamMax) : EscReading c₀ ds (n + 1) (c.write 59) := by
  have hstate : c.writeState = .square := by rw [h.frame]
  have hindex : c.currParamIndex = n := h.index
  have hwrite : c.write 59 =
      { c with esc := Function.update c.esc escParamMax ((n : Int) + 1) } := by
    have hlt : c.currParamIndex < escParamMax := by omega
    have hdigit : ¬((48 : UInt8) ≤ 59 ∧ (59 : UInt8) ≤ 57) := by decide
    simp only [Console.write, hstate, Console.writeEscSquare]
    rw [if_neg hdigit, if_pos ⟨trivial, hlt⟩, hindex]
  rw [hwrite]
  refine ⟨?_, ?_, fun i hi => ?_, fun i hi hi' => ?_⟩
  · rw [h.frame]
  · dsimp only
    rw [Function.update_self]
    push_cast
    rfl
  · dsimp only
    rw [Function.update_of_ne (by omega), h.param i hi]
  · dsimp only
    rw [Function.update_of_ne (Nat.ne_of_lt hi'), h.zero i hi hi']

/-- All parameters of a sequence. -/
theorem params {ps : List (Fin 100)} (hps : ps ≠ []) (h : EscReading c₀ ds ds.length c)
    (hlen : ds.length + ps.length ≤ escParamMax) :
    EscReading c₀ (ds ++ ps) (ds.length + ps.length - 1)
      ((paramBytes ps).foldl Console.write c) := by
  induction ps generalizing ds c with
  | nil => exact absurd rfl hps
  | cons v ps ih =>
    rw [List.length_cons] at hlen
    have hread := h.read (by omega) v
    cases ps with
    | nil => exact hread
    | cons w ps =>
      have hnext := hread.separator (by omega)
        (by rw [List.length_append, List.length_singleton]; omega)
      have hds : ds.length + 1 = (ds ++ [v]).length := by simp
      rw [hds] at hnext
      have hrest := ih (by simp) hnext (by rw [← hds]; omega)
      rw [← hds, List.append_assoc] at hrest
      rw [paramBytes, List.foldl_append, List.foldl_cons, List.length_cons]
      have hidx : ds.length + 1 + (w :: ps).length - 1 =
          ds.length + ((w :: ps).length + 1) - 1 := by omega
      rw [← hidx]
      exact hrest

/-- The command that ends a sequence. -/
theorem command {n : Nat} (h : EscReading c₀ ds n c) {ch : UInt8} (hdigit : ¬(48 ≤ ch ∧ ch ≤ 57))
    (hsep : ch ≠ 59) : c.write ch = { c.escCommand ch with writeState := .normal } := by
  have hstate : c.writeState = .square := by rw [h.frame]
  simp only [Console.write, hstate, Console.writeEscSquare]
  rw [if_neg hdigit, if_neg fun hc => hsep hc.1]

/-- A whole sequence. -/
theorem square {ps : List (Fin 100)} (hps : ps ≠ []) (hlen : ps.length ≤ escParamMax)
    (h : c₀.writeState = .normal) {ch : UInt8} (hdigit : ¬(48 ≤ ch ∧ ch ≤ 57)) (hsep : ch ≠ 59) :
    ∃ c, EscReading c₀ ps (ps.length - 1) c ∧
      (square ps ch).foldl Console.write c₀ = { c.escCommand ch with writeState := .normal } := by
  have hread := params hps (start h) (by simpa using hlen)
  rw [List.nil_append, List.length_nil, Nat.zero_add] at hread
  refine ⟨_, hread, ?_⟩
  rw [Wjos.square, List.foldl_cons, List.foldl_cons, List.foldl_append, List.foldl_cons,
    List.foldl_nil]
  exact hread.command hdigit hsep

end EscReading

namespace ShowsPaper

variable {p : Paper} {c c₀ : Console}

theorem style (h : ShowsPaper p c) (param : Int) :
    ShowsPaper (p.style param) (c.setFontParam param) := by
  unfold Paper.style Console.setFontParam
  split
  · exact ⟨h.rows, h.cols, h.row, h.col, h.onRow, h.onCol, h.savedRow, h.savedCol, h.savedOnRow,
      h.savedOnCol, rfl, h.background, h.cells⟩
  split
  · exact ⟨h.rows, h.cols, h.row, h.col, h.onRow, h.onCol, h.savedRow, h.savedCol, h.savedOnRow,
      h.savedOnCol, h.foreground, rfl, h.cells⟩
  split
  · exact ⟨h.rows, h.cols, h.row, h.col, h.onRow, h.onCol, h.savedRow, h.savedCol, h.savedOnRow,
      h.savedOnCol, rfl, h.background, h.cells⟩
  split
  · exact ⟨h.rows, h.cols, h.row, h.col, h.onRow, h.onCol, h.savedRow, h.savedCol, h.savedOnRow,
      h.savedOnCol, h.foreground, rfl, h.cells⟩
  · exact h

/-- The parameters of a style, one after the other. -/
theorem styles (h : ShowsPaper p c) (esc : Nat → Int) (ps : List (Fin 100))
    (hesc : ∀ (i : Nat) (hi : i < ps.length), esc i = ps[i].val) :
    ShowsPaper (ps.foldl (fun p n => p.style n.val) p)
      ((List.range ps.length).foldl (fun c i => c.setFontParam (esc i)) c) := by
  induction ps using List.reverseRecOn with
  | nil => exact h
  | append_singleton ps v ih =>
    have hrest := ih fun i hi => by
      rw [hesc i (by rw [List.length_append]; omega), List.getElem_append_left hi]
    have hlast : esc ps.length = v.val := by
      rw [hesc ps.length (by simp)]
      simp
    rw [List.foldl_append, List.length_append, List.length_singleton, List.range_succ,
      List.foldl_append, List.foldl_cons, List.foldl_nil, List.foldl_cons, List.foldl_nil, hlast]
    exact hrest.style _

theorem clear (h : ShowsPaper p c) : ShowsPaper p.clear
    { c.eraseRows 0 (c.displayCols - 1) with cursorRow := 0, cursorCol := 0 } where
  rows := h.rows
  cols := h.cols
  row := by simp [Paper.clear]
  col := rfl
  onRow := by dsimp only [Paper.clear]; omega
  onCol := by simp [Paper.clear]
  savedRow := h.savedRow
  savedCol := h.savedCol
  savedOnRow := h.savedOnRow
  savedOnCol := h.savedOnCol
  foreground := h.foreground
  background := h.background
  cells i j hi hi' hj hj' := by
    simp only [Console.eraseRows, Paper.clear, h.cols]
    rw [if_pos (by omega), if_pos (by omega)]
    exact h.cell 32

/-- One byte that starts no escape sequence. -/
theorem plain (hstate : c.writeState = .normal) {ch : UInt8} (hesc : ch ≠ 27)
    (h : ShowsPaper p (c.writeNormal ch)) :
    ShowsPaper p (c.write ch) ∧ (c.write ch).writeState = .normal := by
  have hwrite : c.write ch = c.writeNormal ch := by rw [Console.write, hstate]
  have hafter := (Console.writeNormal_state c ch).1
  rw [if_neg (show ch ≠ asciiEsc from hesc), hstate] at hafter
  rw [hwrite]
  exact ⟨h, hafter⟩

/-- A sequence `ESC [`, by what its command shows. -/
theorem sequence {q : Paper} (hstate : c₀.writeState = .normal) (ps : List (Fin 100))
    (hps : 1 ≤ ps.length ∧ ps.length ≤ 10) {ch : UInt8} (hch : ¬(48 ≤ ch ∧ ch ≤ 57) ∧ ch ≠ 59)
    (h : ∀ c, EscReading c₀ ps (ps.length - 1) c → ShowsPaper q (c.escCommand ch)) :
    ShowsPaper q ((square ps ch).foldl Console.write c₀) ∧
      ((square ps ch).foldl Console.write c₀).writeState = .normal := by
  have hne : ps ≠ [] := List.length_pos_iff.mp (by omega)
  obtain ⟨c, hread, hbytes⟩ := EscReading.square hne hps.2 hstate hch.1 hch.2
  rw [hbytes]
  exact ⟨(h c hread).frame .normal _ _, rfl⟩

/-- While a sequence is read nothing changes on the screen. -/
theorem reading {ps : List (Fin 100)} {n : Nat} (h : ShowsPaper p c₀)
    (hread : EscReading c₀ ps n c) :
    ShowsPaper p c := by
  rw [hread.frame]
  exact h.frame .square _ _

theorem lineFeed (h : ShowsPaper p c) : ShowsPaper p.nextLine c.moveNextLine :=
  h.nextLine h.onCol (by rw [← h.col])

/-- `ESC` and one more byte. -/
theorem escape (hstate : c.writeState = .normal) (ch : UInt8) :
    [27, ch].foldl Console.write c = { c with writeState := .esc }.writeEsc ch := by
  have hesc : c.write 27 = { c with writeState := .esc } := by
    simp [Console.write, hstate, Console.writeNormal, asciiEsc]
  rw [List.foldl_cons, List.foldl_cons, List.foldl_nil, hesc]
  rfl

theorem save (h : ShowsPaper p c) :
    ShowsPaper { p with savedRow := p.row - p.top, savedCol := p.col } c.saveCursor where
  rows := h.rows
  cols := h.cols
  row := h.row
  col := h.col
  onRow := h.onRow
  onCol := h.onCol
  savedRow := h.row
  savedCol := h.col
  savedOnRow := by
    have := h.onRow
    dsimp only
    omega
  savedOnCol := h.onCol
  foreground := h.foreground
  background := h.background
  cells := h.cells

theorem restore (h : ShowsPaper p c) :
    ShowsPaper { p with row := p.top + p.savedRow, col := p.savedCol } c.restoreCursor := by
  have hrow := h.savedOnRow
  have hcol := h.savedOnCol
  rw [← h.savedRow] at hrow
  rw [← h.savedCol] at hcol
  exact h.move hrow hcol (by rw [h.savedRow]) h.savedCol.symm

theorem left (h : ShowsPaper p c) (n : Fin 100) :
    ShowsPaper { p with col := max 0 (p.col - max 1 (n.val : Int)) } (c.moveLeft n.val) := by
  have honCol := h.onCol
  have hn := n.isLt
  have hin : 0 ≤ max 0 (p.col - max 1 (n.val : Int)) ∧
      max 0 (p.col - max 1 (n.val : Int)) < 80 := by omega
  have hleft : (if c.leftCol n.val ≥ 0 then c.leftCol n.val else 0) =
      max 0 (p.col - max 1 (n.val : Int)) := by
    have hcol : c.leftCol n.val = p.col - max 1 (n.val : Int) := by
      rw [Console.leftCol, h.col, cInt_eq]
      all_goals split <;> first | omega | (rw [intMax]; omega)
    rw [hcol]
    split <;> omega
  rw [Console.moveLeft, hleft]
  exact h.moveCol hin

theorem right (h : ShowsPaper p c) (n : Fin 100) :
    ShowsPaper { p with col := min 79 (p.col + max 1 (n.val : Int)) } (c.moveRight n.val) := by
  have honCol := h.onCol
  have hn := n.isLt
  have hin : 0 ≤ min 79 (p.col + max 1 (n.val : Int)) ∧
      min 79 (p.col + max 1 (n.val : Int)) < 80 := by
    omega
  have hlast : cInt (c.displayCols - 1) = 79 := by
    rw [h.cols]
    decide
  have hright : (if c.rightCol n.val ≥ c.displayCols then cInt (c.displayCols - 1)
      else c.rightCol n.val) = min 79 (p.col + max 1 (n.val : Int)) := by
    have hcol : c.rightCol n.val = p.col + max 1 (n.val : Int) := by
      rw [Console.rightCol, h.col, cInt_eq]
      all_goals split <;> first | omega | (rw [intMax]; omega)
    rw [hcol, hlast, h.cols]
    split <;> omega
  rw [Console.moveRight, hright]
  exact h.moveCol hin

/-- Every output does to the screen what it does to the paper. -/
theorem out (h : ShowsPaper p c) (hstate : c.writeState = .normal) (o : Out) :
    ShowsPaper (o.apply p) (o.encode.foldl Console.write c) ∧
      (o.encode.foldl Console.write c).writeState = .normal := by
  have hone : 1 ≤ 1 ∧ 1 ≤ 10 := by decide
  cases o with
  | print ch =>
    obtain ⟨ch, hlo, hhi⟩ := ch
    have hne : ∀ b : UInt8, b < 32 ∨ b = 127 → ch ≠ b := by
      rintro b hb rfl
      rcases hb with hb | rfl
      · exact absurd hb (UInt8.not_lt.mpr hlo)
      · exact absurd hhi (by decide)
    refine plain hstate (hne 27 (by decide)) ?_
    rw [Console.writeNormal, if_neg (hne _ (by decide)), if_neg (hne _ (by decide)),
      if_neg (hne _ (by decide)), if_neg (hne _ (by decide)), if_neg (hne _ (by decide)),
      if_neg (hne _ (by decide)), if_pos ⟨hlo, hhi⟩]
    exact h.print ch
  | bell => exact plain hstate (by decide) h
  | back => exact plain hstate (by decide) h.back.1
  | delete => exact plain hstate (by decide) h.delete
  | carriageReturn => exact plain hstate (by decide) (h.moveCol (by decide))
  | lineFeed => exact plain hstate (by decide) h.lineFeed
  | save =>
    rw [Out.encode, escape hstate]
    exact ⟨h.save.frame .normal _ _, rfl⟩
  | restore =>
    rw [Out.encode, escape hstate]
    exact ⟨h.restore.frame .normal _ _, rfl⟩
  | style params =>
    obtain ⟨ps, hps⟩ := params
    refine sequence hstate ps hps (by decide) fun c hread => ?_
    have hshow := (h.reading hread).styles c.esc ps hread.param
    have hcount : (c.currParamIndex + 1).toNat = ps.length := by
      rw [Console.currParamIndex, hread.index]
      omega
    rw [← hcount] at hshow
    exact hshow
  | left n =>
    refine sequence hstate [n] hone (by decide) fun c hread => ?_
    have hleft : c.escCommand 68 = c.moveLeft n.val := by
      rw [← show c.esc 0 = n.val from hread.param 0 Nat.one_pos]
      rfl
    rw [hleft]
    exact (h.reading hread).left n
  | right n =>
    refine sequence hstate [n] hone (by decide) fun c hread => ?_
    have hright : c.escCommand 67 = c.moveRight n.val := by
      rw [← show c.esc 0 = n.val from hread.param 0 Nat.one_pos]
      rfl
    rw [hright]
    exact (h.reading hread).right n
  | moveTo row col =>
    have htwo : 1 ≤ 2 ∧ 2 ≤ 10 := by decide
    refine sequence hstate [row.castLE (by decide), col.castLE (by decide)] htwo (by decide)
      fun c hread => ?_
    have hrow : c.esc 0 = row.val := hread.param 0 Nat.two_pos
    have hcol : c.esc 1 = col.val := hread.param 1 Nat.one_lt_two
    have hrow' := row.isLt
    have hcol' := col.isLt
    exact (h.reading hread).move ⟨by omega, by omega⟩ ⟨by omega, by omega⟩ (by rw [hrow])
      hcol.symm
  | clear =>
    refine sequence hstate [2] hone (by decide) fun c hread => ?_
    have hparam : c.esc 0 = 2 := hread.param 0 Nat.one_pos
    have hindex : ¬c.currParamIndex < 0 := by
      rw [Console.currParamIndex, hread.index]
      decide
    have herase : c.escCommand 74 = { c.eraseRows 0 (c.displayCols - 1) with
        cursorRow := 0
        cursorCol := 0 } := by
      simp only [Console.escCommand, Console.eraseInDisplay]
      rw [if_neg hindex, if_pos hparam]
      rfl
    rw [herase]
    exact (h.reading hread).clear

end ShowsPaper

/-! ## Whole outputs -/

/-- Output adds lines at the end, and does not come back to those above the
screen. -/
theorem Out.apply_above {p : Paper} (hrow : p.top ≤ p.row) (o : Out) :
    p.top ≤ (o.apply p).top ∧ ∀ r, r < p.top → (o.apply p).line r = p.line r := by
  have hput : ∀ {q : Paper} (ch : UInt8), p.top ≤ q.row → ∀ r, r < p.top →
      (q.put ch).line r = q.line r := fun ch hq r hr =>
    Function.update_of_ne (by omega) _ _
  have hnext : ∀ q : Paper, q.top = p.top → p.top ≤ q.nextLine.top ∧
      ∀ r, r < p.top → q.nextLine.line r = q.line r := by
    intro q hq
    unfold Paper.nextLine
    split
    · exact ⟨Int.le_of_eq hq.symm, fun _ _ => rfl⟩
    · refine ⟨by dsimp only; omega, fun r hr => ?_⟩
      exact Function.update_of_ne (by omega) _ _
  cases o with
  | print ch =>
    have hput' := hput (q := p) ch.val hrow
    simp only [Out.apply, Paper.advance]
    split
    · exact ⟨Int.le_refl _, hput'⟩
    · obtain ⟨htop, hline⟩ := hnext { p.put ch with col := 0 } rfl
      exact ⟨htop, fun r hr => (hline r hr).trans (hput' r hr)⟩
  | lineFeed => exact hnext p rfl
  | delete =>
    simp only [Out.apply]
    split
    · have hback : p.back.line = p.line ∧ p.back.top = p.top ∧ p.top ≤ p.back.row := by
        unfold Paper.back
        split
        · exact ⟨rfl, rfl, hrow⟩
        · split
          · exact ⟨rfl, rfl, by dsimp only; omega⟩
          · exact ⟨rfl, rfl, hrow⟩
      refine ⟨Int.le_of_eq hback.2.1.symm, fun r hr => ?_⟩
      rw [hput 32 hback.2.2 r hr, hback.1]
    · exact ⟨Int.le_refl _, fun _ _ => rfl⟩
  | back =>
    simp only [Out.apply, Paper.back]
    split
    · exact ⟨Int.le_refl _, fun _ _ => rfl⟩
    · split <;> exact ⟨Int.le_refl _, fun _ _ => rfl⟩
  | clear =>
    refine ⟨Int.le_refl _, fun r hr => ?_⟩
    simp only [Out.apply, Paper.clear]
    rw [if_neg (by omega)]
  | style params =>
    have hstyle : ∀ (ps : List (Fin 100)) (q : Paper),
        (ps.foldl (fun p n => p.style n.val) q).top = q.top ∧
          (ps.foldl (fun p n => p.style n.val) q).line = q.line := by
      intro ps
      induction ps with
      | nil => exact fun q => ⟨rfl, rfl⟩
      | cons n ps ih =>
        intro q
        obtain ⟨htop, hline⟩ := ih (q.style n.val)
        rw [List.foldl_cons, htop, hline]
        unfold Paper.style
        split
        · exact ⟨rfl, rfl⟩
        split
        · exact ⟨rfl, rfl⟩
        split
        · exact ⟨rfl, rfl⟩
        split <;> exact ⟨rfl, rfl⟩
    obtain ⟨htop, hline⟩ := hstyle params.val p
    exact ⟨Int.le_of_eq htop.symm, fun r _ => congrFun hline r⟩
  | _ => exact ⟨Int.le_refl _, fun _ _ => rfl⟩

/-- The screen of `c` as the first lines of the paper. -/
def Paper.of (c : Console) : Paper where
  line i j := c.disp (c.dispBase + 80 * i + j)
  top := 0
  row := c.cursorRow
  col := c.cursorCol
  savedRow := c.oldCursorRow
  savedCol := c.oldCursorCol
  foreground := c.foreground
  background := c.background

theorem shows_of {c : Console} (hr : c.Ready) (hon : c.OnScreen) (hsaved : c.SavedOnScreen) :
    ShowsPaper (Paper.of c) c := by
  have hrows : c.displayRows = 25 := hr.rows
  have hcols : c.displayCols = 80 := hr.cols
  obtain ⟨h1, h2, h3, h4, -⟩ := hon
  obtain ⟨s1, s2, s3, s4⟩ := hsaved
  rw [hrows] at h2 s2
  rw [hcols] at h4 s4
  refine ⟨hrows, hcols, ?_, rfl, ⟨h1, ?_⟩, ⟨h3, h4⟩, rfl, rfl, ⟨s1, s2⟩, ⟨s3, s4⟩, rfl, rfl,
    fun i j _ _ _ _ => ?_⟩
  · simp [Paper.of]
  · simpa [Paper.of] using h2
  · simp [Paper.of]

/-- The screen follows a whole output. -/
theorem ShowsPaper.outs {p : Paper} {c : Console} (h : ShowsPaper p c)
    (hstate : c.writeState = .normal)
    (outs : List Out) :
    ShowsPaper (outs.foldl Out.apply p) ((outs.flatMap Out.encode).foldl Console.write c) ∧
      ((outs.flatMap Out.encode).foldl Console.write c).writeState = .normal ∧
      p.top ≤ (outs.foldl Out.apply p).top ∧
      ∀ r, r < p.top → (outs.foldl Out.apply p).line r = p.line r := by
  induction outs generalizing p c with
  | nil => exact ⟨h, hstate, Int.le_refl _, fun _ _ => rfl⟩
  | cons o outs ih =>
    obtain ⟨hone, hstate'⟩ := h.out hstate o
    obtain ⟨htop, hline⟩ := Out.apply_above h.onRow.1 o
    obtain ⟨hshow, hnormal, htop', hline'⟩ := ih hone hstate'
    rw [List.flatMap_cons, List.foldl_append, List.foldl_cons]
    exact ⟨hshow, hnormal, Int.le_trans htop htop', fun r hr =>
      (hline' r (by omega)).trans (hline r hr)⟩

/-- Whatever is printed, moved, coloured, deleted and cleared, the screen is the
last 25 lines of the paper, the cursor is its pen, and the lines that have left
the screen stay as they were when they did. -/
theorem console_shows_paper {c : Console} (hr : c.Ready) (hon : c.OnScreen)
    (hsaved : c.SavedOnScreen) (hstate : c.writeState = .normal) (before after : List Out) :
    ShowsPaper (before.foldl Out.apply (Paper.of c))
        ((before.flatMap Out.encode).foldl Console.write c) ∧
      ∀ r, r < (before.foldl Out.apply (Paper.of c)).top →
        ((before ++ after).foldl Out.apply (Paper.of c)).line r =
          (before.foldl Out.apply (Paper.of c)).line r := by
  obtain ⟨hshow, hnormal, -⟩ := (shows_of hr hon hsaved).outs hstate before
  refine ⟨hshow, fun r hr => ?_⟩
  rw [List.foldl_append]
  exact (hshow.outs hnormal after).2.2.2 r hr

/-- A red `A` in the second line of a fresh console. -/
theorem console_shows_paper_red :
    ShowsPaper ([.lineFeed, .style ⟨[31], by decide⟩, .print ⟨65, by decide⟩].foldl Out.apply
        (Paper.of (Console.zero.init 1 0)))
      ([10, 27, 91, 51, 49, 109, 65].foldl Console.write (Console.zero.init 1 0)) := by
  obtain ⟨hr, ho, hs⟩ := Console.init_ready Console.zero 1 (by decide : 0 < 2000) (by decide) rfl
  exact (console_shows_paper hr ho hs rfl _ []).1

end Wjos
