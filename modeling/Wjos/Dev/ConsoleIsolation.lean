/-
Wjos.Dev.ConsoleIsolation — what a console stores outside its own screen.

The consoles lie one behind the other in the display memory. Scrolling and
moving the cursor keep to the rows of the console, whatever the cursor is;
`show_char` stores where the cursor is, and `erase_in_display` erases as many
rows as the screen has columns, which reaches far into the next consoles.
`CellsOk` is the condition on the state before a byte under which nothing is
changed outside, and `console_isolated_iff` says that it is exact for a
stream.
-/
import Wjos.Dev.ConsoleTheorems

namespace Wjos

open Lib

namespace Console

variable {c c' c'' : Console}

/-- A cell of the console's own screen. -/
def Own (c : Console) (p : Int) : Prop :=
  c.dispBase ≤ p ∧ p < c.dispBase + c.displayRows * c.displayCols

/-- The display memory outside the screen of `c` is what it was. -/
def Isolated (c c' : Console) : Prop :=
  ∀ p, ¬Own c p → c'.disp p = c.disp p

/-- The screen lies where it was. -/
structure SamePlace (c c' : Console) : Prop where
  rows : c'.displayRows = c.displayRows
  cols : c'.displayCols = c.displayCols
  base : c'.dispBase = c.dispBase
  index : 0 ≤ c.currParamIndex → 0 ≤ c'.currParamIndex

theorem SamePlace.refl (c : Console) : SamePlace c c := ⟨rfl, rfl, rfl, id⟩

theorem SamePlace.trans (h : SamePlace c c') (h' : SamePlace c' c'') : SamePlace c c'' :=
  ⟨h'.rows.trans h.rows, h'.cols.trans h.cols, h'.base.trans h.base, h'.index ∘ h.index⟩

theorem SamePlace.ready (h : SamePlace c c') (hr : Ready c) : Ready c' :=
  ⟨h.rows.trans hr.rows, h.cols.trans hr.cols, h.index hr.index⟩

theorem SamePlace.own_iff (h : SamePlace c c') (p : Int) : Own c' p ↔ Own c p := by
  rw [Own, Own, h.rows, h.cols, h.base]

theorem Isolated.refl (c : Console) : Isolated c c := fun _ _ => rfl

/-- What a later state changes outside is what the last step does. -/
theorem Isolated.trans_iff (h : Isolated c c') (hp : SamePlace c c') :
    Isolated c c'' ↔ Isolated c' c'' := by
  unfold Isolated
  simp only [hp.own_iff]
  constructor
  · intro h' p hown
    rw [h' p hown, h p hown]
  · intro h' p hown
    rw [h' p hown, h p hown]

/-- A last step that changes nothing outside does not count. -/
theorem Isolated.append_iff (h : Isolated c' c'') (hp : SamePlace c c') :
    Isolated c c'' ↔ Isolated c c' := by
  have heq : ∀ p, ¬Own c p → c''.disp p = c'.disp p := fun p hown =>
    h p fun hown' => hown ((hp.own_iff p).mp hown')
  constructor
  · intro h' p hown
    rw [← heq p hown, h' p hown]
  · intro h' p hown
    rw [heq p hown, h' p hown]

/-! ## Moving the cursor -/

/-- Scrolling keeps to the rows of the console. -/
theorem scrollUp_isolated (hr : Ready c) (hp : SamePlace c c') (hd : c'.disp = c.disp) :
    Isolated c (scrollUp c' 1) := by
  intro p hown
  obtain ⟨hrows, hcols, -⟩ := hr
  rw [consoleRowMax] at hrows
  rw [consoleColMax] at hcols
  rw [Own, hrows, hcols] at hown
  simp only [scrollUp, eraseRows, hp.rows, hp.cols, hp.base, hrows, hcols, hd]
  rw [if_neg (by omega), if_neg (by omega)]

theorem moveForwardOne_place (c : Console) : SamePlace c (moveForwardOne c) := by
  simp only [moveForwardOne]
  split
  · split
    · exact ⟨rfl, rfl, rfl, id⟩
    · exact ⟨rfl, rfl, rfl, id⟩
  · exact ⟨rfl, rfl, rfl, id⟩

theorem moveForwardOne_isolated (hr : Ready c) : Isolated c (moveForwardOne c) := by
  simp only [moveForwardOne]
  split
  · split
    · exact scrollUp_isolated hr ⟨rfl, rfl, rfl, id⟩ rfl
    · exact Isolated.refl c
  · exact Isolated.refl c

theorem moveNextLine_isolated (hr : Ready c) : Isolated c (moveNextLine c) := by
  simp only [moveNextLine]
  split
  · exact scrollUp_isolated hr ⟨rfl, rfl, rfl, id⟩ rfl
  · exact Isolated.refl c

theorem moveNextLine_place (c : Console) : SamePlace c (moveNextLine c) := by
  simp only [moveNextLine]
  split
  · exact ⟨rfl, rfl, rfl, id⟩
  · exact ⟨rfl, rfl, rfl, id⟩

theorem moveBackwordOne_disp (c : Console) :
    SamePlace c (moveBackwordOne c).1 ∧ (moveBackwordOne c).1.disp = c.disp := by
  unfold moveBackwordOne
  split
  · exact ⟨⟨rfl, rfl, rfl, id⟩, rfl⟩
  · split
    · exact ⟨⟨rfl, rfl, rfl, id⟩, rfl⟩
    · exact ⟨⟨rfl, rfl, rfl, id⟩, rfl⟩

/-! ## Storing characters -/

/-- `show_char` stores `ch` on the screen of the console, or where it is
already. -/
def StoreOk (c : Console) (ch : UInt8) : Prop :=
  (0 ≤ c.cursorOffset ∧ c.cursorOffset < c.displayRows * c.displayCols) ∨
    c.disp (c.dispBase + c.cursorOffset) = c.cell ch

/-- The first half of `show_char`. -/
def storeChar (c : Console) (ch : UInt8) : Console :=
  { c with
    disp := Function.update c.disp (c.dispBase + c.cursorOffset) (c.cell ch)
    shown := c.cursorOffset :: c.shown }

theorem showChar_eq (c : Console) (ch : UInt8) : showChar c ch = moveForwardOne (storeChar c ch) :=
  rfl

theorem storeChar_disp (c : Console) (ch : UInt8) (p : Int) :
    (storeChar c ch).disp p =
      if p = c.dispBase + c.cursorOffset then c.cell ch else c.disp p :=
  Function.update_apply ..

theorem storeChar_place (c : Console) (ch : UInt8) : SamePlace c (storeChar c ch) :=
  ⟨rfl, rfl, rfl, id⟩

theorem showChar_place (c : Console) (ch : UInt8) : SamePlace c (showChar c ch) :=
  (storeChar_place c ch).trans (moveForwardOne_place _)

theorem storeChar_isolated_iff (c : Console) (ch : UInt8) :
    Isolated c (storeChar c ch) ↔ StoreOk c ch := by
  constructor
  · intro h
    refine or_iff_not_imp_left.mpr fun hout => ?_
    have hcell := h (c.dispBase + c.cursorOffset) fun ⟨h₁, h₂⟩ => hout ⟨by omega, by omega⟩
    rw [storeChar_disp, if_pos rfl] at hcell
    exact hcell.symm
  · rintro hok p hown
    rw [storeChar_disp]
    split
    next hp =>
      rcases hok with ⟨h₁, h₂⟩ | hcell
      · exact absurd ⟨by omega, by omega⟩ hown
      · rw [hp, hcell]
    next => rfl

theorem showChar_isolated_iff (hr : Ready c) (ch : UInt8) :
    Isolated c (showChar c ch) ↔ StoreOk c ch := by
  have hp := storeChar_place c ch
  rw [showChar_eq, (moveForwardOne_isolated (hp.ready hr)).append_iff hp, storeChar_isolated_iff]

/-- A cursor on the screen is enough. -/
theorem OnScreen.storeOk (h : OnScreen c) (hr : Ready c) (ch : UInt8) : StoreOk c ch :=
  .inl (cursorOffset_mem hr h)

/-- `erase_backword` of one character. -/
theorem eraseBackwordLoop_one (c : Console) :
    eraseBackwordLoop c 1 =
      if (moveBackwordOne c).2 then (moveBackwordOne (showChar (moveBackwordOne c).1 32)).1
      else (moveBackwordOne c).1 := by
  cases hb : moveBackwordOne c with
  | mk c₁ moved =>
    cases moved with
    | true => simp [eraseBackwordLoop, moveBackword, moveBackwordLoop, hb]
    | false => simp [eraseBackwordLoop, moveBackword, moveBackwordLoop, hb]

/-- The character before the cursor can be erased. -/
def BackOk (c : Console) : Prop :=
  (moveBackwordOne c).2 = true → StoreOk (moveBackwordOne c).1 32

theorem eraseBackword_isolated_iff (hr : Ready c) :
    SamePlace c (eraseBackword c 1) ∧ (Isolated c (eraseBackword c 1) ↔ BackOk c) := by
  obtain ⟨hp₁, hd₁⟩ := moveBackwordOne_disp c
  have hiso₁ : Isolated c (moveBackwordOne c).1 := fun p _ => congrFun hd₁ p
  suffices hloop : SamePlace c (eraseBackwordLoop c 1) ∧
      (Isolated c (eraseBackwordLoop c 1) ↔ BackOk c) from
    ⟨⟨hloop.1.rows, hloop.1.cols, hloop.1.base, hloop.1.index⟩, hloop.2⟩
  rw [eraseBackwordLoop_one, BackOk]
  cases hmoved : (moveBackwordOne c).2 with
  | true =>
    have hp₂ := hp₁.trans (showChar_place (moveBackwordOne c).1 32)
    obtain ⟨hp₃, hd₃⟩ := moveBackwordOne_disp (showChar (moveBackwordOne c).1 32)
    have hiso₃ : Isolated (showChar (moveBackwordOne c).1 32)
        (moveBackwordOne (showChar (moveBackwordOne c).1 32)).1 := fun p _ => congrFun hd₃ p
    refine ⟨hp₂.trans hp₃, ?_⟩
    rw [if_pos rfl, hiso₃.append_iff hp₂, hiso₁.trans_iff hp₁,
      showChar_isolated_iff (hp₁.ready hr)]
    simp
  | false => exact ⟨hp₁, by simpa using hiso₁⟩

/-- What is printed is stored on the screen. -/
def PrintOk (c : Console) (ch : UInt8) : Prop :=
  if ch = 0x7f then BackOk c else 32 ≤ ch ∧ ch ≤ 126 → StoreOk c ch

/-- A control character stores nothing. -/
theorem PrintOk.control {ch : UInt8} (hch : ch < 32) : PrintOk c ch := by
  have hdel : ch ≠ 0x7f := by
    rintro rfl
    exact absurd hch (by decide)
  rw [PrintOk, if_neg hdel]
  exact fun h => absurd hch (UInt8.not_lt.mpr h.1)

theorem writeNormal_isolated_iff (hr : Ready c) (ch : UInt8) :
    SamePlace c (writeNormal c ch) ∧ (Isolated c (writeNormal c ch) ↔ PrintOk c ch) := by
  unfold writeNormal
  split
  next hesc =>
    subst hesc
    exact ⟨⟨rfl, rfl, rfl, id⟩, iff_of_true (Isolated.refl c) (.control (by decide))⟩
  split
  next hdel =>
    rw [PrintOk, if_pos hdel]
    exact eraseBackword_isolated_iff hr
  next hdel =>
  split
  next hbell =>
    subst hbell
    exact ⟨SamePlace.refl c, iff_of_true (Isolated.refl c) (.control (by decide))⟩
  split
  next hback =>
    subst hback
    obtain ⟨hp, hd⟩ := moveBackwordOne_disp c
    exact ⟨hp, iff_of_true (fun p _ => congrFun hd p) (.control (by decide))⟩
  split
  next hret =>
    subst hret
    exact ⟨⟨rfl, rfl, rfl, id⟩, iff_of_true (Isolated.refl c) (.control (by decide))⟩
  split
  next hline =>
    subst hline
    exact ⟨moveNextLine_place c, iff_of_true (moveNextLine_isolated hr) (.control (by decide))⟩
  rw [PrintOk, if_neg hdel]
  split
  next hprint =>
    refine ⟨showChar_place c ch, ?_⟩
    rw [showChar_isolated_iff hr]
    exact ⟨fun h _ => h, fun h => h hprint⟩
  next hprint => exact ⟨SamePlace.refl c, iff_of_true (Isolated.refl c) fun h => absurd h hprint⟩

/-! ## Escape sequences -/

/-- The cells below the screen that `erase_in_display` erases are blank. -/
def EraseOk (c : Console) : Prop :=
  c.esc 0 = 2 → ∀ p, c.dispBase + c.displayRows * c.displayCols ≤ p →
    p < c.dispBase + c.displayCols * c.displayCols → c.disp p = c.cell 32

theorem eraseInDisplay_isolated_iff (hr : Ready c) :
    SamePlace c (eraseInDisplay c) ∧ (Isolated c (eraseInDisplay c) ↔ EraseOk c) := by
  have hrows := hr.rows
  have hcols := hr.cols
  rw [consoleRowMax] at hrows
  rw [consoleColMax] at hcols
  unfold eraseInDisplay EraseOk
  rw [if_neg (Int.not_lt.mpr hr.index)]
  split
  next hparam =>
    refine ⟨⟨rfl, rfl, rfl, id⟩, ?_⟩
    simp only [Isolated, Own, eraseRows, hrows, hcols]
    constructor
    · intro h _ p h₁ h₂
      have hp := h p (by omega)
      rw [if_pos (by omega)] at hp
      exact hp.symm
    · intro h p hown
      split
      · exact (h hparam p (by omega) (by omega)).symm
      · rfl
  next hparam =>
    exact ⟨SamePlace.refl c, iff_of_true (Isolated.refl c) fun h => absurd h hparam⟩

theorem escCommand_isolated_iff (hr : Ready c) (ch : UInt8) :
    SamePlace c (escCommand c ch) ∧ (Isolated c (escCommand c ch) ↔ (ch = 74 → EraseOk c)) := by
  unfold escCommand
  split
  next hstyle =>
    subst hstyle
    obtain ⟨fg, bg, he⟩ := setFontStyle_frame c
    rw [he]
    exact ⟨⟨rfl, rfl, rfl, id⟩, iff_of_true (Isolated.refl c) (fun h => absurd h (by decide))⟩
  split
  next hleft =>
    subst hleft
    exact ⟨⟨rfl, rfl, rfl, id⟩, iff_of_true (Isolated.refl c) (fun h => absurd h (by decide))⟩
  split
  next hright =>
    subst hright
    exact ⟨⟨rfl, rfl, rfl, id⟩, iff_of_true (Isolated.refl c) (fun h => absurd h (by decide))⟩
  split
  next hmove =>
    refine ⟨⟨rfl, rfl, rfl, id⟩, iff_of_true (Isolated.refl c) ?_⟩
    rintro rfl
    exact absurd hmove (by decide)
  split
  next herase =>
    obtain ⟨hp, hiff⟩ := eraseInDisplay_isolated_iff hr
    exact ⟨hp, hiff.trans ⟨fun h _ => h, fun h => h herase⟩⟩
  next herase => exact ⟨SamePlace.refl c, iff_of_true (Isolated.refl c) fun h => absurd h herase⟩

theorem writeEscSquare_isolated_iff (hr : Ready c) (ch : UInt8) :
    SamePlace c (writeEscSquare c ch) ∧
      (Isolated c (writeEscSquare c ch) ↔ (ch = 74 → EraseOk c)) := by
  unfold writeEscSquare
  split
  next hd =>
    refine ⟨⟨rfl, rfl, rfl, fun _ => index_digit hr hd⟩, iff_of_true (Isolated.refl c) ?_⟩
    rintro rfl
    exact absurd hd (by decide)
  split
  next hs =>
    refine ⟨⟨rfl, rfl, rfl, fun hi => ?_⟩, iff_of_true (Isolated.refl c) ?_⟩
    · have hnext : 0 ≤ c.currParamIndex + 1 := by omega
      simpa [currParamIndex] using hnext
    · rintro rfl
      exact absurd hs.1 (by decide)
  · obtain ⟨hp, hiff⟩ := escCommand_isolated_iff hr ch
    exact ⟨⟨hp.rows, hp.cols, hp.base, hp.index⟩, hiff⟩

/-- The bytes that change nothing outside the screen: a printed or an erased
character is stored on the screen, and `ESC [ 2 J` finds the cells below the
screen blank (or each stores what is there already). -/
def CellsOk (c : Console) (ch : UInt8) : Prop :=
  match c.writeState with
  | .normal => PrintOk c ch
  | .esc => True
  | .square => ch = 74 → EraseOk c

/-- A byte changes nothing outside the screen exactly when it meets `CellsOk`. -/
theorem write_isolated_iff (hr : Ready c) (ch : UInt8) :
    SamePlace c (write c ch) ∧ (Isolated c (write c ch) ↔ CellsOk c ch) := by
  unfold write CellsOk
  cases c.writeState with
  | normal => exact writeNormal_isolated_iff hr ch
  | esc =>
    have hd : SamePlace c (writeEsc c ch) ∧ (writeEsc c ch).disp = c.disp := by
      unfold writeEsc
      split
      · exact ⟨⟨rfl, rfl, rfl, id⟩, rfl⟩
      split
      · exact ⟨⟨rfl, rfl, rfl, id⟩, rfl⟩
      split
      · exact ⟨⟨rfl, rfl, rfl, fun _ => Int.le_refl 0⟩, rfl⟩
      · exact ⟨⟨rfl, rfl, rfl, id⟩, rfl⟩
    exact ⟨hd.1, iff_of_true (fun p _ => congrFun hd.2 p) trivial⟩
  | square => exact writeEscSquare_isolated_iff hr ch

theorem OnScreen.printOk (h : OnScreen c) (hr : Ready c) (ch : UInt8) : PrintOk c ch := by
  unfold PrintOk
  split
  · intro _
    have hm := moveBackwordOne_moved hr h
    exact hm.onScreen.storeOk (hm.ready hr) 32
  · exact fun _ => h.storeOk hr ch

/-- With the cursor on the screen only `ESC [ 2 J` counts. -/
theorem cellsOk_iff (hr : Ready c) (h : OnScreen c) (ch : UInt8) :
    CellsOk c ch ↔ (c.writeState = .square → ch = 74 → EraseOk c) := by
  unfold CellsOk
  cases c.writeState with
  | normal => exact iff_of_true (h.printOk hr ch) (fun he => nomatch he)
  | esc => exact iff_of_true trivial (fun he => nomatch he)
  | square => exact ⟨fun he _ => he, fun he => he rfl⟩

end Console

/-! ## Streams -/

/-- The condition on an event. -/
def ConsoleEvent.CellsOk (c : Console) : ConsoleEvent → Prop
  | .write ch => c.CellsOk ch
  | .other _ => True

/-- The event is no `ESC [ 2 J`, or one that finds blank cells below the screen. -/
def ConsoleEvent.EraseOk (c : Console) : ConsoleEvent → Prop
  | .write ch => c.writeState = .square → ch = 74 → c.EraseOk
  | .other _ => True

theorem consoleStep_isolated_iff {c c' : Console} {e : ConsoleEvent} (hr : c.Ready)
    (hs : consoleStep c e = some c') :
    c.SamePlace c' ∧ (c.Isolated c' ↔ e.CellsOk c) := by
  cases e with
  | write ch =>
    obtain rfl := Option.some.inj hs
    exact Console.write_isolated_iff hr ch
  | other rest =>
    obtain rfl := Option.some.inj hs
    exact ⟨⟨rfl, rfl, rfl, id⟩, iff_of_true (Console.Isolated.refl c) trivial⟩

/-- A stream changes nothing outside the screen exactly when each of its bytes
meets `CellsOk` in the state before it; where the cursor is on the screen and
no byte takes it off, exactly when no `ESC [ 2 J` finds cells below the screen
that are not blank. -/
theorem console_isolated_iff {c : Console} (hr : c.Ready) (h : c.OnScreen)
    (es : List ConsoleEvent) :
    ((∀ fs c', fs <+: es → run consoleStep c fs = some c' → c.Isolated c') ↔
      Along consoleStep (fun c e => e.CellsOk c) c es) ∧
    (Along consoleStep (fun c e => e.CursorOk c) c es →
      ((∀ fs c', fs <+: es → run consoleStep c fs = some c' → c.Isolated c') ↔
        Along consoleStep (fun c e => e.EraseOk c) c es)) := by
  have hexact : (∀ fs c', fs <+: es → run consoleStep c fs = some c' → c.Isolated c') ↔
      Along consoleStep (fun c e => e.CellsOk c) c es := by
    have hstep : ∀ c₁ e c₂, c₁.Ready ∧ c.SamePlace c₁ → c.Isolated c₁ →
        consoleStep c₁ e = some c₂ →
        (c₂.Ready ∧ c.SamePlace c₂) ∧ (c.Isolated c₂ ↔ e.CellsOk c₁) := by
      rintro c₁ e c₂ ⟨hr₁, hp₁⟩ hi₁ hs
      obtain ⟨hp₂, hiff⟩ := consoleStep_isolated_iff hr₁ hs
      exact ⟨⟨hp₂.ready hr₁, hp₁.trans hp₂⟩, (hi₁.trans_iff hp₁).trans hiff⟩
    refine always_iff_along (fun c e hs => ?_) hstep ⟨hr, Console.SamePlace.refl c⟩
      (Console.Isolated.refl c)
    cases e with
    | write ch => exact absurd hs (by simp [consoleStep])
    | other rest => exact absurd hs (by simp [consoleStep])
  refine ⟨hexact, fun hcursor => hexact.trans ?_⟩
  have hstep : ∀ c₁ e c₂, c₁.Ready ∧ c₁.OnScreen → e.CursorOk c₁ → consoleStep c₁ e = some c₂ →
      c₂.Ready ∧ c₂.OnScreen := by
    rintro c₁ e c₂ ⟨hr₁, h₁⟩ he hs
    obtain ⟨hr₂, hiff⟩ := consoleStep_onScreen_iff c₁ e c₂ hr₁ h₁ hs
    exact ⟨hr₂, hiff.mpr he⟩
  refine Along.congr_along hstep (fun c₁ e hc₁ _ => ?_) ⟨hr, h⟩ hcursor
  cases e with
  | write ch => exact Console.cellsOk_iff hc₁.1 hc₁.2 ch
  | other rest => exact Iff.rfl

/-- Console 1 where all screens have been cleared. -/
def clearedConsole : Console :=
  Console.init { Console.zero with disp := fun _ => { c := 32, foreground := 7, background := 0 } }
    1 0

/-- `ESC [ 3 ; 5 H`, a letter, and `ESC [ 2` before the final `J`. -/
def moveAndErase : List ConsoleEvent :=
  [.write 27, .write 91, .write 51, .write 59, .write 53, .write 72, .write 65,
    .write 27, .write 91, .write 50]

/-- A move, a letter and `ESC [ 2 J` while the other screens are blank. -/
theorem console_isolated_iff_print :
    ∃ c', run consoleStep clearedConsole (moveAndErase ++ [.write 74]) = some c' ∧
      clearedConsole.Isolated c' := by
  obtain ⟨hr, ho, -⟩ : clearedConsole.Ready ∧ clearedConsole.OnScreen ∧ _ :=
    Console.init_ready _ 1 (by decide : 0 < 2000) (by decide) rfl
  have hcursor : Along consoleStep (fun c e => e.CursorOk c) clearedConsole
      (moveAndErase ++ [.write 74]) := by
    decide +kernel
  refine ⟨_, rfl, ((console_isolated_iff hr ho _).2 hcursor).mpr ?_ _ _ List.prefix_rfl rfl⟩
  refine along_append.mpr ⟨?_, fun u hu => ⟨fun _ _ _ p hlo hhi => ?_, fun _ _ => trivial⟩⟩
  · -- before the `J` nothing is erased
    have hno : ∀ e ∈ moveAndErase, ∀ c, e.EraseOk c := by
      simp [moveAndErase, ConsoleEvent.EraseOk]
    exact ((along_append.mp hcursor).1.and_mem hno).mono fun c e h => h.2 c
  · -- the letter is on the screen
    obtain rfl := Option.some.inj hu
    change Function.update (fun q : Int => if 2000 ≤ q ∧ q < 4000 then _ else _) 2245 _ p = _
    have hne : p ≠ 2245 := by
      rintro rfl
      exact absurd hlo (by decide)
    rw [Function.update_of_ne hne]
    split <;> rfl

/-- `ESC [ 2 J` on console 0 erases the first cell of console 1, and on
console 7 it stores at `CONSOLE_DISP_END`. -/
theorem erase_display_leaves_screen :
    (∃ c', run consoleStep (Console.zero.init 0 0)
        [.write 27, .write 91, .write 50, .write 74] = some c' ∧
      c'.disp 2000 ≠ (Console.zero.init 0 0).disp 2000 ∧
      ¬(Console.zero.init 0 0).Isolated c') ∧
    ∃ c', run consoleStep (Console.zero.init 7 0)
        [.write 27, .write 91, .write 50, .write 74] = some c' ∧
      c'.disp (32 * 1024 / 2) ≠ (Console.zero.init 7 0).disp (32 * 1024 / 2) := by
  refine ⟨⟨_, rfl, by decide, fun h => ?_⟩, _, rfl, by decide⟩
  have hcell := h 2000 (by rintro ⟨-, hlt⟩; exact absurd hlt (by decide))
  exact absurd hcell (by decide)

end Wjos
