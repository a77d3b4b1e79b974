/-
Wjos.Dev.Printed — a text on the screen.

A line of text takes as many rows as it has pieces of 80 characters, and one
more for what is left (`rowsOf`); after a piece of exactly 80 the cursor is
already in the next row, so that a line of 80 characters leaves an empty row
behind it. `Lays` says that the paper holds the rows filled so far, and
`tty_write_shows_text` that the screen shows the last 25 of them once a task
has written the text, whatever the interleaving in which the terminal put it
through its buffer.
-/
import Wjos.Dev.Paper
import Wjos.Dev.TtyTyping

namespace Wjos

open Lib

/-! ## Rows -/

/-- The full rows of a line. -/
def fullRows (l : List UInt8) : List (List UInt8) :=
  (List.range (l.length / 80)).map fun k => (l.drop (80 * k)).take 80

/-- What is left of it for the last row. -/
def lastRow (l : List UInt8) : List UInt8 := l.drop (80 * (l.length / 80))

/-- The rows of a line. -/
def rowsOf (l : List UInt8) : List (List UInt8) := fullRows l ++ [lastRow l]

/-- The rows of a text. -/
def layout (lines : List (List UInt8)) : List (List UInt8) := lines.flatMap rowsOf

section Rows

variable {l : List UInt8} {ch : UInt8}

theorem length_lastRow (l : List UInt8) : (lastRow l).length = l.length % 80 := by
  rw [lastRow, List.length_drop]
  omega

theorem take_fullRows (l : List UInt8) (ch : UInt8) :
    (List.range (l.length / 80)).map (fun k => ((l ++ [ch]).drop (80 * k)).take 80) =
      fullRows l := by
  refine List.map_congr_left fun k hk => ?_
  have hlt := List.mem_range.mp hk
  rw [List.drop_append_of_le_length (by omega),
    List.take_append_of_le_length (by rw [List.length_drop]; omega)]

/-- One more character in the last row. -/
theorem rows_append (h : (lastRow l).length + 1 < 80) :
    fullRows (l ++ [ch]) = fullRows l ∧ lastRow (l ++ [ch]) = lastRow l ++ [ch] := by
  rw [length_lastRow] at h
  have hdiv : (l ++ [ch]).length / 80 = l.length / 80 := by
    rw [List.length_append, List.length_singleton]
    omega
  constructor
  · rw [fullRows, hdiv, take_fullRows]
  · rw [lastRow, hdiv, List.drop_append_of_le_length (by omega)]
    rfl

/-- One more character fills the last row. -/
theorem rows_fill (h : ¬(lastRow l).length + 1 < 80) :
    fullRows (l ++ [ch]) = fullRows l ++ [lastRow l ++ [ch]] ∧ lastRow (l ++ [ch]) = [] := by
  rw [length_lastRow] at h
  have hlen : (l ++ [ch]).length = l.length + 1 := by simp
  have hdiv : (l ++ [ch]).length / 80 = l.length / 80 + 1 := by omega
  constructor
  · rw [fullRows, hdiv, List.range_succ, List.map_append, take_fullRows, List.map_singleton,
      List.drop_append_of_le_length (by omega), List.take_of_length_le]
    · rfl
    · rw [List.length_append, List.length_drop, List.length_singleton]
      omega
  · rw [lastRow, hdiv, List.drop_of_length_le]
    omega

end Rows

/-! ## Rows on paper -/

/-- What a character of a text does to the paper. -/
def Paper.type (p : Paper) (ch : UInt8) : Paper :=
  if ch = 10 then { p with col := 0 }.nextLine else (p.put ch).advance

/-- The lines of the paper are `rs`, as far as the screen goes. -/
def HoldsRows (ink : UInt8 → DispChar) (rs : List (List UInt8)) (p : Paper) : Prop :=
  ∀ i j : Nat, (i : Int) < p.top + 25 → j < 80 → p.line i j = ink ((rs.getD i []).getD j 32)

/-- The paper holds the rows `rows` and the characters `cur` of the next one. -/
structure Lays (ink : UInt8 → DispChar) (rows : List (List UInt8)) (cur : List UInt8)
    (p : Paper) : Prop where
  row : p.row = rows.length
  col : p.col = cur.length
  lt : cur.length < 80
  top : p.top = max 0 ((rows.length : Int) - 24)
  pen : ∀ ch, p.ink ch = ink ch
  holds : HoldsRows ink (rows ++ [cur]) p

section

variable {ink : UInt8 → DispChar} {rows : List (List UInt8)} {cur : List UInt8} {p : Paper}

/-- An empty row at the end does not show. -/
theorem getD_append_nil (rs : List (List UInt8)) (i : Nat) :
    (rs ++ [[]]).getD i [] = rs.getD i [] := by
  rw [List.getD_eq_getElem?_getD, List.getD_eq_getElem?_getD, List.getElem?_append]
  split
  · rfl
  · rw [List.getElem?_eq_none (by omega : rs.length ≤ i)]
    cases i - rs.length <;> simp

theorem getD_append_last (rs : List (List UInt8)) (r : List UInt8) (i : Nat) :
    (rs ++ [r]).getD i [] = if i = rs.length then r else rs.getD i [] := by
  rw [List.getD_eq_getElem?_getD, List.getD_eq_getElem?_getD, List.getElem?_append]
  by_cases hi : i = rs.length
  · simp [hi]
  by_cases hlt : i < rs.length
  · simp [hi, hlt]
  · rw [if_neg hlt, if_neg hi, List.getElem?_eq_none (by simp; omega),
      List.getElem?_eq_none (by omega)]

/-- A character at the end of the last row. -/
theorem HoldsRows.put (h : HoldsRows ink (rows ++ [cur]) p) (hrow : p.row = rows.length)
    (hcol : p.col = cur.length) (hpen : ∀ ch, p.ink ch = ink ch) (ch : UInt8) :
    HoldsRows ink (rows ++ [cur ++ [ch]]) (p.put ch) := by
  intro i j hi hj
  have hold := h i j hi hj
  rw [getD_append_last] at hold ⊢
  simp only [Paper.put, hrow, hcol, hpen]
  by_cases hline : i = rows.length
  · rw [if_pos hline] at hold ⊢
    rw [hline, Function.update_self]
    by_cases hcell : j = cur.length
    · simp [hcell]
    · rw [Function.update_of_ne (by omega), ← hline, hold]
      congr 1
      rw [List.getD_eq_getElem?_getD, List.getD_eq_getElem?_getD, List.getElem?_append]
      split
      · rfl
      · rw [List.getElem?_eq_none (by omega : cur.length ≤ j),
          List.getElem?_eq_none (by simp; omega)]
  · rw [if_neg hline] at hold ⊢
    rw [Function.update_of_ne (by omega), hold]

/-- The next line is blank, on the screen or below it. -/
theorem HoldsRows.nextLine {rs : List (List UInt8)} (h : HoldsRows ink rs p)
    (hrow : p.row + 1 = rs.length) (hpen : ∀ ch, p.ink ch = ink ch) (honRow : p.row < p.top + 25) :
    HoldsRows ink (rs ++ [[]]) p.nextLine := by
  intro i j hi hj
  rw [getD_append_nil]
  unfold Paper.nextLine at hi ⊢
  by_cases hlast : p.row + 1 < p.top + 25
  · rw [if_pos hlast] at hi ⊢
    exact h i j hi hj
  · rw [if_neg hlast] at hi ⊢
    dsimp only at hi ⊢
    by_cases hnew : (i : Int) = p.top + 25
    · have hnone : rs.getD i [] = [] := by
        rw [List.getD_eq_getElem?_getD, List.getElem?_eq_none (by omega)]
        rfl
      rw [hnew, Function.update_self, hnone, hpen]
      rfl
    · rw [Function.update_of_ne hnew]
      exact h i j (by omega) hj

/-- The row ends; the next one is empty. -/
theorem Lays.nextLine {full : List UInt8} {q : Paper} (hrow : q.row = rows.length)
    (htop : q.top = max 0 ((rows.length : Int) - 24)) (hpen : ∀ ch, q.ink ch = ink ch)
    (h : HoldsRows ink (rows ++ [full]) q) :
    Lays ink (rows ++ [full]) [] ({ q with col := 0 } : Paper).nextLine := by
  have hlen : (rows ++ [full]).length = rows.length + 1 := by simp
  have hnext : ({ q with col := 0 } : Paper).nextLine.row = q.row + 1 ∧
      ({ q with col := 0 } : Paper).nextLine.col = 0 ∧
      ({ q with col := 0 } : Paper).nextLine.top = max 0 ((rows.length : Int) + 1 - 24) ∧
      ∀ ch, ({ q with col := 0 } : Paper).nextLine.ink ch = q.ink ch := by
    unfold Paper.nextLine
    split
    · exact ⟨rfl, rfl, by simp only at *; omega, fun _ => rfl⟩
    · exact ⟨rfl, rfl, by simp only at *; omega, fun _ => rfl⟩
  obtain ⟨hrow', hcol', htop', hpen'⟩ := hnext
  refine ⟨by rw [hrow', hrow, hlen]; rfl, hcol', by decide, by rw [htop', hlen]; rfl,
    fun ch => (hpen' ch).trans (hpen ch), ?_⟩
  have hholds : HoldsRows ink (rows ++ [full]) ({ q with col := 0 } : Paper) := h
  exact hholds.nextLine (by dsimp only; omega) hpen (by dsimp only; omega)

theorem Lays.newline (h : Lays ink rows cur p) : Lays ink (rows ++ [cur]) [] (p.type 10) :=
  Lays.nextLine h.row h.top h.pen h.holds

/-- A character of the row. -/
theorem Lays.char (h : Lays ink rows cur p) {ch : UInt8} (hch : ch ≠ 10) :
    if cur.length + 1 < 80 then Lays ink rows (cur ++ [ch]) (p.type ch)
    else Lays ink (rows ++ [cur ++ [ch]]) [] (p.type ch) := by
  have hput := h.holds.put h.row h.col h.pen ch
  have hcol := h.col
  rw [Paper.type, if_neg hch, Paper.advance]
  have hputcol : (p.put ch).col = p.col := rfl
  by_cases hroom : cur.length + 1 < 80
  · rw [if_pos hroom, if_pos (by omega)]
    refine ⟨h.row, ?_, by simpa using hroom, h.top, h.pen, hput⟩
    rw [hputcol, hcol, List.length_append, List.length_singleton]
    rfl
  · rw [if_neg hroom, if_neg (by omega)]
    exact Lays.nextLine h.row h.top h.pen hput

/-- A line from its beginning. -/
theorem Lays.line (h : Lays ink rows [] p) {l : List UInt8} (hl : ∀ ch ∈ l, ch ≠ 10) :
    Lays ink (rows ++ fullRows l) (lastRow l) (l.foldl Paper.type p) := by
  induction l using List.reverseRecOn with
  | nil => simpa [fullRows, lastRow] using h
  | append_singleton l ch ih =>
    have hrest := ih fun c hc => hl c (List.mem_append_left _ hc)
    have hstep := hrest.char (hl ch (by simp))
    rw [List.foldl_append, List.foldl_cons, List.foldl_nil]
    by_cases hroom : (lastRow l).length + 1 < 80
    · rw [if_pos hroom] at hstep
      rw [(rows_append hroom).1, (rows_append hroom).2]
      exact hstep
    · rw [if_neg hroom] at hstep
      rw [(rows_fill hroom).1, (rows_fill hroom).2, ← List.append_assoc]
      exact hstep

/-- Lines with `\n` between them. -/
theorem Lays.lines (h : Lays ink rows [] p) {lines : List (List UInt8)} (hne : lines ≠ [])
    (hplain : ∀ l ∈ lines, ∀ ch ∈ l, ch ≠ 10) :
    ∃ rs cur, rs ++ [cur] = rows ++ layout lines ∧
      Lays ink rs cur (([10].intercalate lines).foldl Paper.type p) := by
  induction lines generalizing rows p with
  | nil => exact absurd rfl hne
  | cons l lines ih =>
    have hline := h.line (hplain l List.mem_cons_self)
    cases lines with
    | nil =>
      refine ⟨_, _, ?_, by simpa [List.intercalate] using hline⟩
      simp [layout, rowsOf]
    | cons m lines =>
      obtain ⟨rs, cur, hrs, hlays⟩ := ih hline.newline (by simp)
        fun l' hl' => hplain l' (List.mem_cons_of_mem _ hl')
      refine ⟨rs, cur, ?_, ?_⟩
      · rw [hrs]
        simp [layout, rowsOf]
      · have htext : [10].intercalate (l :: m :: lines) =
            l ++ (10 :: [10].intercalate (m :: lines)) := by
          simp [List.intercalate]
        rw [htext, List.foldl_append, List.foldl_cons]
        exact hlays

end

/-! ## The screen -/

/-- A character of a text, on the console and on the paper. -/
theorem ShowsPaper.type {p : Paper} {c : Console} (h : ShowsPaper p c)
    (hstate : c.writeState = .normal)
    {ch : UInt8} (hch : ch = 10 ∨ (32 ≤ ch ∧ ch ≤ 126)) :
    ShowsPaper (p.type ch) (echo c ch) ∧ (echo c ch).writeState = .normal := by
  by_cases hline : ch = 10
  · subst hline
    obtain ⟨hcr, hcr'⟩ := h.out hstate .carriageReturn
    exact hcr.out hcr' .lineFeed
  · have hplain := hch.resolve_left hline
    have hexpands : expands ttyOcrlf ch = false := by simp [expands, hline]
    rw [Paper.type, if_neg hline, echo, if_neg (by simp [hexpands])]
    exact h.out hstate (.print ⟨ch, hplain⟩)

theorem ShowsPaper.text {p : Paper} {c : Console} (h : ShowsPaper p c)
    (hstate : c.writeState = .normal)
    {text : List UInt8} (htext : ∀ ch ∈ text, ch = 10 ∨ (32 ≤ ch ∧ ch ≤ 126)) :
    ShowsPaper (text.foldl Paper.type p) (text.foldl echo c) := by
  induction text generalizing p c with
  | nil => exact h
  | cons ch text ih =>
    obtain ⟨hone, hstate'⟩ := h.type hstate (htext ch List.mem_cons_self)
    exact ih hone hstate' fun c hc => htext c (List.mem_cons_of_mem _ hc)

theorem mem_intercalate {sep : List UInt8} {lines : List (List UInt8)} {ch : UInt8}
    (h : ch ∈ sep.intercalate lines) : ch ∈ sep ∨ ∃ l ∈ lines, ch ∈ l := by
  induction lines with
  | nil => simp [List.intercalate] at h
  | cons l lines ih =>
    cases lines with
    | nil => exact .inr ⟨l, by simp, by simpa [List.intercalate] using h⟩
    | cons m lines =>
      have hsplit : sep.intercalate (l :: m :: lines) =
          l ++ (sep ++ sep.intercalate (m :: lines)) := by simp [List.intercalate]
      rw [hsplit] at h
      rcases List.mem_append.mp h with h | h
      · exact .inr ⟨l, by simp, h⟩
      rcases List.mem_append.mp h with h | h
      · exact .inl h
      · rcases ih h with h | ⟨l', hl', h⟩
        · exact .inl h
        · exact .inr ⟨l', List.mem_cons_of_mem _ hl', h⟩

/-- A console other than the first is blank after `console_init`. -/
theorem lays_init (c : Console) {idx : Nat} (hidx : idx ≠ 0) (pos : Nat) :
    ShowsPaper (Paper.of (c.init idx pos)) (c.init idx pos) ∧
      Lays (c.init idx pos).cell [] [] (Paper.of (c.init idx pos)) := by
  have hinit : c.init idx pos = { c with
      background := .black
      foreground := defaultForeground
      displayCols := 80
      displayRows := 25
      dispBase := idx * 2000
      cursorCol := 0
      cursorRow := 0
      oldCursorRow := 0
      oldCursorCol := 0
      writeState := .normal
      inputLen := 0
      disp := (c.init idx pos).disp } := by
    simp [Console.init, hidx, Console.clearDisplay, consoleColMax, consoleRowMax]
  have hdisp : ∀ p : Int, idx * 2000 ≤ p ∧ p < (idx : Int) * 2000 + 2000 →
      (c.init idx pos).disp p = (c.init idx pos).cell 32 := by
    intro p hp
    have hblank : (c.init idx pos).disp = fun p : Int =>
        if (idx : Int) * 2000 ≤ p ∧ p < (idx : Int) * 2000 + 2000 then (c.init idx pos).cell 32
        else c.disp p := by
      simp only [Console.init, if_neg hidx]
      rfl
    rw [hblank]
    exact if_pos hp
  have hshows : ShowsPaper (Paper.of (c.init idx pos)) (c.init idx pos) := by
    rw [hinit]
    refine ⟨rfl, rfl, by simp [Paper.of], rfl, by simp [Paper.of], by simp [Paper.of], rfl, rfl,
      by simp [Paper.of], by simp [Paper.of], rfl, rfl, by simp [Paper.of]⟩
  refine ⟨hshows, ⟨?_, ?_, by decide, rfl, fun ch => (hshows.cell ch).symm, ?_⟩⟩
  · rw [hinit]; rfl
  · rw [hinit]; rfl
  · intro i j hi hj
    have hlt : (i : Int) < 25 := by simpa [Paper.of] using hi
    have hnil : ([[]] : List (List UInt8)).getD i [] = [] := by cases i <;> rfl
    rw [List.nil_append, hnil]
    have hbase : (c.init idx pos).dispBase = idx * 2000 := by
      rw [hinit]
    refine hdisp _ ?_
    rw [hbase]
    omega

/-- A task writes lines of printable characters to a fresh terminal, in any
number of calls. When all calls have returned, the screen shows the last 25
rows of the text, with blank cells behind each row, and the cursor is behind
the last character. -/
theorem tty_write_shows_text {τ : Type*} [DecidableEq τ] {obuf : Nat → UInt8} {c : Console}
    {idx pos : Nat} (hidx : idx ≠ 0) {t : τ} {lines : List (List UInt8)} (hne : lines ≠ [])
    (hplain : ∀ l ∈ lines, ∀ ch ∈ l, 32 ≤ ch ∧ ch ≤ 126) {es : List (TtyOutEvent τ)}
    {s : TtyOut τ} (hrun : run ttyOutStep (ttyOutInit obuf (c.init idx pos)) es = some s)
    (hidle : ∀ u, s.pc u = .idle) (hone : ∀ u, u ≠ t → s.written u = [])
    (htext : s.written t = [10].intercalate lines) :
    (∀ i j : Nat, i < 25 → j < 80 →
      s.console.disp (s.console.dispBase + 80 * i + j) = (c.init idx pos).cell
        (((layout lines).getD ((layout lines).length - 25 + i) []).getD j 32)) ∧
      s.console.cursorRow = ((min 25 (layout lines).length - 1 : Nat) : Int) ∧
      ∀ r ∈ (layout lines).getLast?, s.console.cursorCol = r.length := by
  have houtput := (run_invariant ttyOutInv_step (ttyOutInv_init obuf _) hrun).outputComplete
  have hconsole := console_echoes houtput t hidle hone
  rw [htext] at hconsole
  obtain ⟨hshows, hlays⟩ := lays_init c hidx pos
  have hstate : (c.init idx pos).writeState = .normal := rfl
  have hchars : ∀ ch ∈ [10].intercalate lines, ch = 10 ∨ (32 ≤ ch ∧ ch ≤ 126) := by
    intro ch hch
    rcases mem_intercalate hch with h10 | ⟨l, hl, hmem⟩
    · exact .inl (List.mem_singleton.mp h10)
    · exact .inr (hplain l hl ch hmem)
  have hscreen := hshows.text hstate hchars
  obtain ⟨rs, cur, hrs, hend⟩ := hlays.lines hne fun l hl ch hch he => by
    subst he
    exact absurd (hplain l hl 10 hch).1 (by decide)
  rw [List.nil_append] at hrs
  rw [← hconsole] at hscreen
  rw [← hrs]
  have hlen : (rs ++ [cur]).length = rs.length + 1 := by simp
  have htop := hend.top
  refine ⟨fun i j hi hj => ?_, ?_, ?_⟩
  · rw [hscreen.cells i j (by omega) (by omega) (by omega) (by omega), htop]
    have hrow : max 0 ((rs.length : Int) - 24) + i =
        (((rs ++ [cur]).length - 25 + i : Nat) : Int) := by omega
    rw [hrow]
    exact hend.holds _ j (by omega) hj
  · rw [hscreen.row, hend.row, htop, hlen]
    omega
  · intro r hr
    rw [List.getLast?_concat] at hr
    obtain rfl := Option.some.inj hr
    rw [hscreen.col, hend.col]

/-- One task writes an `A` and a line feed, and then a `B`. -/
def writeAB : List (TtyOutEvent Unit) :=
  .call () [65, 10] :: List.replicate 24 (.step ()) ++ .call () [66] :: List.replicate 10 (.step ())

theorem tty_write_shows_text_A :
    ∃ s, run ttyOutStep (ttyOutInit (fun _ => 0) (Console.zero.init 1 0)) writeAB = some s ∧
      s.console.disp (s.console.dispBase + 80 * (0 : Nat) + (0 : Nat)) =
        (Console.zero.init 1 0).cell 65 ∧
      s.console.disp (s.console.dispBase + 80 * (1 : Nat) + (0 : Nat)) =
        (Console.zero.init 1 0).cell 66 ∧
      s.console.cursorRow = 1 ∧ s.console.cursorCol = 1 := by
  have hrun : run ttyOutStep (ttyOutInit (fun _ => 0) (Console.zero.init 1 0)) writeAB =
      some _ := rfl
  have hplain : ∀ l ∈ [[(65 : UInt8)], [66]], ∀ ch ∈ l, 32 ≤ ch ∧ ch ≤ 126 := by simp
  obtain ⟨hcells, hrow, hcol⟩ := tty_write_shows_text (t := ()) Nat.one_ne_zero (by simp) hplain
    hrun (fun _ => rfl) (fun u hu => absurd rfl hu) rfl
  exact ⟨_, hrun, hcells 0 0 (by decide) (by decide), hcells 1 0 (by decide) (by decide), hrow,
    hcol _ rfl⟩

end Wjos
