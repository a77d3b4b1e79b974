/-
Wjos.Dev.Console — the consoles of `dev/console.c`: the cursor, the display
memory and the escape sequences, one byte of output at a time.

Translation notes. All consoles share the display memory; `disp` is that
memory, in cells from `CONSOLE_DISP_ADDR` on, and `dispBase` the first cell of
the console. `esc` are the `int`s of a `console_t` from `esc_param` on: after
the `ESC_PARAM_MAX` parameters comes `curr_param_index`, after it the mutex and
the command history. The index is not checked against the array when a digit
arrives, so a digit can reach these as well. `shown` is a history beside the
state: the offsets that `show_char` has stored at. The beep, the hardware
cursor and the history commands are left out.
-/
import Mathlib.Logic.Function.Basic
import Wjos.Lib.CInt

namespace Wjos

open Lib

def consoleRowMax : Int := 25
def consoleColMax : Int := 80
def asciiEsc : UInt8 := 0x1b
def escParamMax : Nat := 10

/-- `color_t`. -/
inductive Color where
  | black | blue | green | cyan | red | magenta | brown | gray
  | darkGray | lightBlue | lightGreen | lightCyan | lightRed | lightMagenta | yellow | white
  deriving DecidableEq, Repr

/-- The value of the enumerator. -/
def Color.toNat (c : Color) : Nat := c.ctorIdx

def defaultForeground : Color := .gray

/-- `disp_char_t`: four bits of foreground, three of background. -/
structure DispChar where
  c : UInt8
  foreground : BitVec 4
  background : BitVec 3
  deriving DecidableEq, Repr

inductive WriteState where
  | normal
  | esc
  | square
  deriving DecidableEq, Repr

/-- `console_t`, with the display memory. -/
structure Console where
  writeState : WriteState
  dispBase : Int
  cursorRow : Int
  cursorCol : Int
  displayRows : Int
  displayCols : Int
  foreground : Color
  background : Color
  oldCursorRow : Int
  oldCursorCol : Int
  esc : Nat → Int
  inputLen : Int
  disp : Int → DispChar
  shown : List Int

namespace Console

/-- `curr_param_index`, the `int` behind the parameters. -/
def currParamIndex (c : Console) : Int := c.esc escParamMax

/-- `ch` in the colours of the console. -/
def cell (c : Console) (ch : UInt8) : DispChar where
  c := ch
  foreground := BitVec.ofNat 4 c.foreground.toNat
  background := BitVec.ofNat 3 c.background.toNat

/-! ## The cursor and the display -/

/-- Erases the rows from `first` to `last`. -/
def eraseRows (c : Console) (first last : Int) : Console :=
  let dispStart := c.dispBase + c.displayCols * first
  let dispEnd := c.dispBase + c.displayCols * (last + 1)
  { c with disp := fun p => if dispStart ≤ p ∧ p < dispEnd then c.cell 32 else c.disp p }

/-- The display moves up; `kernel_memcpy` copies upwards, so each cell is read
before it is overwritten. -/
def scrollUp (c : Console) (lines : Int) : Console :=
  let size := (c.displayRows - lines) * c.displayCols
  let moved : Console := { c with
    disp := fun p =>
      if c.dispBase ≤ p ∧ p < c.dispBase + size then c.disp (p + c.displayCols * lines)
      else c.disp p }
  let erased := eraseRows moved (c.displayRows - lines) (c.displayRows - 1)
  { erased with cursorRow := cInt (c.cursorRow - lines) }

/-- One round of the loop of `move_forward`. -/
def moveForwardOne (c : Console) : Console :=
  let c := { c with cursorCol := cInt (c.cursorCol + 1) }
  if c.cursorCol ≥ c.displayCols then
    let c := { c with cursorRow := cInt (c.cursorRow + 1), cursorCol := 0 }
    if c.cursorRow ≥ c.displayRows then scrollUp c 1 else c
  else c

def moveForward (c : Console) : Nat → Console
  | 0 => c
  | n + 1 => moveForward (moveForwardOne c) n

/-- The cell under the cursor, counted from `disp_base`. -/
def cursorOffset (c : Console) : Int := cInt (c.cursorCol + c.cursorRow * c.displayCols)

def showChar (c : Console) (ch : UInt8) : Console :=
  let offset := c.cursorOffset
  moveForward { c with
    disp := Function.update c.disp (c.dispBase + offset) (c.cell ch)
    shown := offset :: c.shown } 1

def clearDisplay (c : Console) : Console :=
  let size := c.displayCols * c.displayRows
  { c with
    disp := fun p => if c.dispBase ≤ p ∧ p < c.dispBase + size then c.cell 32 else c.disp p }

def moveToCol0 (c : Console) : Console :=
  { c with cursorCol := 0 }

def moveNextLine (c : Console) : Console :=
  let c := { c with cursorRow := cInt (c.cursorRow + 1) }
  if c.cursorRow ≥ c.displayRows then scrollUp c 1 else c

/-- One round of the loop of `move_backword`; the flag says whether the cursor
moved. -/
def moveBackwordOne (c : Console) : Console × Bool :=
  if c.cursorCol > 0 then ({ c with cursorCol := c.cursorCol - 1 }, true)
  else if c.cursorRow > 0 then
    ({ c with cursorRow := c.cursorRow - 1, cursorCol := cInt (c.displayCols - 1) }, true)
  else (c, false)

/-- `n` rounds, from the given status on. -/
def moveBackwordLoop (c : Console) (status : Int) : Nat → Console × Int
  | 0 => (c, status)
  | n + 1 =>
    let (c, moved) := c.moveBackwordOne
    moveBackwordLoop c (if moved then 0 else status) n

def moveBackword (c : Console) (n : Nat) : Console × Int :=
  moveBackwordLoop c (-1) n

def eraseBackwordLoop (c : Console) : Nat → Console
  | 0 => c
  | n + 1 =>
    let (c, status) := moveBackword c 1
    eraseBackwordLoop (if status = 0 then (moveBackword (showChar c 32) 1).1 else c) n

def eraseBackword (c : Console) (n : Int) : Console :=
  if n ≠ 0 then
    let c := eraseBackwordLoop c n.toNat
    { c with inputLen := cInt (c.inputLen - n) }
  else c

/-- An entry of `console_buf` before its `console_init`, on a display full of
zeros. -/
def zero : Console where
  writeState := .normal
  dispBase := 0
  cursorRow := 0
  cursorCol := 0
  displayRows := 0
  displayCols := 0
  foreground := .black
  background := .black
  oldCursorRow := 0
  oldCursorCol := 0
  esc := fun _ => 0
  inputLen := 0
  disp := fun _ => { c := 0, foreground := 0, background := 0 }
  shown := []

/-- `console_init`; `cursorPos` is what the hardware cursor of console 0 says. -/
def init (c : Console) (idx : Nat) (cursorPos : Nat) : Console :=
  let c : Console := { c with
    background := .black
    foreground := defaultForeground
    displayCols := consoleColMax
    displayRows := consoleRowMax
    dispBase := idx * (consoleColMax * consoleRowMax) }
  let c : Console :=
    if idx = 0 then
      { c with cursorCol := cursorPos % c.displayCols, cursorRow := cursorPos / c.displayCols }
    else clearDisplay { c with cursorCol := 0, cursorRow := 0 }
  { c with
    oldCursorRow := c.cursorRow
    oldCursorCol := c.cursorCol
    writeState := .normal
    inputLen := 0 }

/-! ## Escape sequences -/

def writeNormal (c : Console) (ch : UInt8) : Console :=
  if ch = asciiEsc then { c with writeState := .esc }
  else if ch = 0x7f then eraseBackword c 1
  else if ch = 7 then c
  else if ch = 8 then (moveBackword c 1).1
  else if ch = 13 then moveToCol0 c
  else if ch = 10 then moveNextLine c
  else if 32 ≤ ch ∧ ch ≤ 126 then showChar c ch
  else c

def saveCursor (c : Console) : Console :=
  { c with oldCursorCol := c.cursorCol, oldCursorRow := c.cursorRow }

def restoreCursor (c : Console) : Console :=
  { c with cursorCol := c.oldCursorCol, cursorRow := c.oldCursorRow }

def clearEscParam (c : Console) : Console :=
  { c with esc := fun i => if i ≤ escParamMax then 0 else c.esc i }

/-- `color_table`, at an index the caller has checked. -/
def colorTable : Int → Color
  | 1 => .red
  | 2 => .green
  | 3 => .yellow
  | 4 => .blue
  | 5 => .magenta
  | 6 => .cyan
  | 7 => .white
  | _ => .black

/-- The loop body of `set_font_style`. -/
def setFontParam (c : Console) (param : Int) : Console :=
  if 30 ≤ param ∧ param ≤ 37 then { c with foreground := colorTable (param - 30) }
  else if 40 ≤ param ∧ param ≤ 47 then { c with background := colorTable (param - 40) }
  else if param = 39 then { c with foreground := defaultForeground }
  else if param = 49 then { c with background := .black }
  else c

def setFontStyle (c : Console) : Console :=
  (List.range (c.currParamIndex + 1).toNat).foldl (fun c' i => setFontParam c' (c.esc i)) c

def writeEsc (c : Console) (ch : UInt8) : Console :=
  if ch = 55 then { saveCursor c with writeState := .normal }
  else if ch = 56 then { restoreCursor c with writeState := .normal }
  else if ch = 91 then { clearEscParam c with writeState := .square }
  else { c with writeState := .normal }

/-- The column `n` to the left of the cursor, 1 if `n` is 0. -/
def leftCol (c : Console) (n : Int) : Int := cInt (c.cursorCol - if n = 0 then 1 else n)

def moveLeft (c : Console) (n : Int) : Console :=
  { c with cursorCol := if c.leftCol n ≥ 0 then c.leftCol n else 0 }

/-- The column `n` to the right of the cursor, 1 if `n` is 0. -/
def rightCol (c : Console) (n : Int) : Int := cInt (c.cursorCol + if n = 0 then 1 else n)

def moveRight (c : Console) (n : Int) : Console :=
  { c with
    cursorCol := if c.rightCol n ≥ c.displayCols then cInt (c.displayCols - 1) else c.rightCol n }

def moveCursor (c : Console) : Console :=
  { c with cursorRow := c.esc 0, cursorCol := c.esc 1 }

def eraseInDisplay (c : Console) : Console :=
  if c.currParamIndex < 0 then c
  else if c.esc 0 = 2 then
    { eraseRows c 0 (c.displayCols - 1) with cursorRow := 0, cursorCol := 0 }
  else c

/-- The switch of `write_esc_square`. -/
def escCommand (c : Console) (ch : UInt8) : Console :=
  if ch = 109 then setFontStyle c
  else if ch = 68 then moveLeft c (c.esc 0)
  else if ch = 67 then moveRight c (c.esc 0)
  else if ch = 72 ∨ ch = 102 then moveCursor c
  else if ch = 74 then eraseInDisplay c
  else c

def writeEscSquare (c : Console) (ch : UInt8) : Console :=
  if 48 ≤ ch ∧ ch ≤ 57 then
    let i := c.currParamIndex.toNat
    { c with esc := Function.update c.esc i (cInt (c.esc i * 10 + ch.toNat - 48)) }
  else if ch = 59 ∧ c.currParamIndex < escParamMax then
    { c with esc := Function.update c.esc escParamMax (c.currParamIndex + 1) }
  else { escCommand c ch with writeState := .normal }

/-- What `console_write` does with a byte it has taken from the queue. -/
def write (c : Console) (ch : UInt8) : Console :=
  match c.writeState with
  | .normal => writeNormal c ch
  | .esc => writeEsc c ch
  | .square => writeEscSquare c ch

end Console

end Wjos
