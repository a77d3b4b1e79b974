/-
Wjos.Dev.ConsoleParams — the parameters of an escape sequence and their
array.

A digit reads and writes `esc_param[curr_param_index]`, and `m` reads every
element up to the index. The test at a separator is
`curr_param_index < ESC_PARAM_MAX`, so the tenth separator sets the index to
`ESC_PARAM_MAX` itself; a digit or an `m` after it goes one past the array,
where the index itself is stored. `Scan` reads the same bytes without a
console; `params_in_array_iff` says that a stream stays in the array exactly
when no sequence of it has a digit or an `m` after its tenth separator.
-/
import Wjos.Dev.Console
import Wjos.Dev.ConsoleTheorems

namespace Wjos

open Lib

namespace Console

variable {c c' c'' : Console}

/-! ## What drawing leaves alone -/

/-- `c'` is `c` after drawing: the parser, the parameters and the length of
the input are as they were. -/
structure Drawn (c c' : Console) : Prop where
  writeState : c'.writeState = c.writeState
  esc : c'.esc = c.esc
  inputLen : c'.inputLen = c.inputLen

theorem Drawn.refl (c : Console) : Drawn c c := ⟨rfl, rfl, rfl⟩

theorem Drawn.trans (h : Drawn c c') (h' : Drawn c' c'') : Drawn c c'' :=
  ⟨h'.writeState.trans h.writeState, h'.esc.trans h.esc, h'.inputLen.trans h.inputLen⟩

theorem moveForwardOne_drawn (c : Console) : Drawn c (moveForwardOne c) := by
  unfold moveForwardOne
  dsimp only
  split
  · split <;> exact ⟨rfl, rfl, rfl⟩
  · exact ⟨rfl, rfl, rfl⟩

theorem showChar_drawn (c : Console) (ch : UInt8) : Drawn c (showChar c ch) := by
  obtain ⟨hstate, hesc, hlen⟩ := moveForwardOne_drawn { c with
    disp := Function.update c.disp (c.dispBase + c.cursorOffset) (c.cell ch)
    shown := c.cursorOffset :: c.shown }
  exact ⟨hstate, hesc, hlen⟩

theorem moveNextLine_drawn (c : Console) : Drawn c (moveNextLine c) := by
  unfold moveNextLine
  dsimp only
  split <;> exact ⟨rfl, rfl, rfl⟩

theorem moveBackwordOne_drawn (c : Console) : Drawn c (moveBackwordOne c).1 := by
  unfold moveBackwordOne
  split
  · exact ⟨rfl, rfl, rfl⟩
  · split <;> exact ⟨rfl, rfl, rfl⟩

theorem eraseBackwordLoop_drawn (c : Console) (n : Nat) : Drawn c (eraseBackwordLoop c n) := by
  induction n generalizing c with
  | zero => exact Drawn.refl c
  | succ n ih =>
    have hback : Drawn c (moveBackword c 1).1 := moveBackwordOne_drawn c
    have hround : Drawn c (if (moveBackword c 1).2 = 0 then
        (moveBackword (showChar (moveBackword c 1).1 32) 1).1 else (moveBackword c 1).1) := by
      split
      · exact (hback.trans (showChar_drawn _ 32)).trans (moveBackwordOne_drawn _)
      · exact hback
    exact hround.trans (ih _)

/-- Erasing takes what it erases off the length of the input. -/
theorem eraseBackword_state (c : Console) (n : Int) :
    (eraseBackword c n).writeState = c.writeState ∧ (eraseBackword c n).esc = c.esc ∧
      (eraseBackword c n).inputLen = if n ≠ 0 then cInt (c.inputLen - n) else c.inputLen := by
  have hloop := eraseBackwordLoop_drawn c n.toNat
  unfold eraseBackword
  split
  · exact ⟨hloop.writeState, hloop.esc, by rw [← hloop.inputLen]⟩
  · exact ⟨rfl, rfl, rfl⟩

/-- Outside an escape sequence only ESC changes the state of the parser. -/
theorem writeNormal_state (c : Console) (ch : UInt8) :
    (writeNormal c ch).writeState = (if ch = asciiEsc then .esc else c.writeState) ∧
      (writeNormal c ch).esc = c.esc := by
  unfold writeNormal
  by_cases hesc : ch = asciiEsc
  · rw [if_pos hesc, if_pos hesc]
    exact ⟨rfl, rfl⟩
  rw [if_neg hesc, if_neg hesc]
  split
  · exact ⟨(eraseBackword_state c 1).1, (eraseBackword_state c 1).2.1⟩
  split
  · exact ⟨rfl, rfl⟩
  split
  · exact ⟨(moveBackwordOne_drawn c).writeState, (moveBackwordOne_drawn c).esc⟩
  split
  · exact ⟨rfl, rfl⟩
  split
  · exact ⟨(moveNextLine_drawn c).writeState, (moveNextLine_drawn c).esc⟩
  split
  · exact ⟨(showChar_drawn c ch).writeState, (showChar_drawn c ch).esc⟩
  · exact ⟨rfl, rfl⟩

/-- No command changes a parameter or the index. -/
theorem escCommand_esc (c : Console) (ch : UInt8) : (escCommand c ch).esc = c.esc := by
  unfold escCommand
  split
  · obtain ⟨fg, bg, he⟩ := setFontStyle_frame c
    rw [he]
  split
  · rfl
  split
  · rfl
  split
  · rfl
  split
  · unfold eraseInDisplay
    split
    · rfl
    · split <;> rfl
  · rfl

/-! ## The array -/

/-- The digits. -/
def IsDigit (ch : UInt8) : Prop := 48 ≤ ch ∧ ch ≤ 57

instance (ch : UInt8) : Decidable (IsDigit ch) := inferInstanceAs (Decidable (_ ∧ _))

/-- The elements of `esc_param` that a byte reads or writes through
`curr_param_index`: a digit the one at the index (`*param = *param * 10 + …`),
an `m` the ones that `set_font_style` goes through. -/
def paramAccesses (c : Console) (ch : UInt8) : List Int :=
  if c.writeState = .square then
    if IsDigit ch then [c.currParamIndex]
    else if ch = 109 then (List.range (c.currParamIndex + 1).toNat).map Int.ofNat
    else []
  else []

/-- The byte stays in the array, and the index changes only with `[`, which
resets it, and `;`, which counts it up. -/
structure ParamsIn (c : Console) (ch : UInt8) : Prop where
  access : ∀ i ∈ c.paramAccesses ch, 0 ≤ i ∧ i < escParamMax
  index : (c.write ch).currParamIndex ≠ c.currParamIndex →
    (c.writeState = .esc ∧ ch = 91 ∧ (c.write ch).currParamIndex = 0) ∨
    (c.writeState = .square ∧ ch = 59 ∧ (c.write ch).currParamIndex = c.currParamIndex + 1)

end Console

/-! ## The bytes alone -/

/-- How far an escape sequence has got: `args n` is inside `ESC [` after `n`
separators. -/
inductive Scan where
  | text
  | esc
  | args (n : Nat)
  deriving DecidableEq, Repr

/-- The next byte. A separator after the tenth one ends the sequence. -/
def Scan.next : Scan → UInt8 → Scan
  | .text, ch => if ch = 27 then .esc else .text
  | .esc, ch => if ch = 91 then .args 0 else .text
  | .args n, ch =>
    if Console.IsDigit ch then .args n else if ch = 59 ∧ n < 10 then .args (n + 1) else .text

/-- A digit or an `m` after the tenth separator. -/
def Scan.Over (s : Scan) (ch : UInt8) : Prop := s = .args 10 ∧ (Console.IsDigit ch ∨ ch = 109)

/-- No byte of the stream is such a one. -/
def ArgsFit : Scan → List UInt8 → Prop
  | _, [] => True
  | s, ch :: chs => ¬s.Over ch ∧ ArgsFit (s.next ch) chs

/-- The bytes among the events. -/
def writtenBytes (es : List ConsoleEvent) : List UInt8 :=
  es.filterMap fun
    | .write ch => some ch
    | .other _ => none

namespace Console

/-- The console is where the scan of its bytes is. -/
def Scans (c : Console) : Scan → Prop
  | .text => c.writeState = .normal
  | .esc => c.writeState = .esc
  | .args n => c.writeState = .square ∧ c.currParamIndex = n ∧ n ≤ 10

theorem writeNormal_scans (h : c.writeState = .normal) (ch : UInt8) :
    Scans (writeNormal c ch) (Scan.text.next ch) := by
  have hstate := (writeNormal_state c ch).1
  rw [Scan.next]
  by_cases hesc : ch = 27
  · rw [if_pos hesc]
    rwa [if_pos (show ch = asciiEsc from hesc)] at hstate
  · rw [if_neg hesc]
    rw [if_neg (show ¬ch = asciiEsc from hesc), h] at hstate
    exact hstate

theorem writeEsc_scans (c : Console) (ch : UInt8) :
    Scans (writeEsc c ch) (Scan.esc.next ch) := by
  rw [Scan.next]
  by_cases hopen : ch = 91
  · subst hopen
    exact ⟨rfl, rfl, Nat.zero_le 10⟩
  · rw [if_neg hopen]
    unfold writeEsc
    split
    · exact (rfl : WriteState.normal = _)
    split
    · exact (rfl : WriteState.normal = _)
    · exact (rfl : WriteState.normal = _)

/-- Inside the array a byte moves the console on as it moves the scan. -/
theorem writeEscSquare_scans {n : Nat} (h : Scans c (.args n)) {ch : UInt8}
    (hover : ¬(Scan.args n).Over ch) : Scans (writeEscSquare c ch) ((Scan.args n).next ch) := by
  obtain ⟨hstate, hindex, hn⟩ := h
  rw [writeEscSquare, Scan.next]
  by_cases hdigit : IsDigit ch
  · rw [if_pos (show 48 ≤ ch ∧ ch ≤ 57 from hdigit), if_pos hdigit]
    have hlt : n < 10 := by
      refine Nat.lt_of_le_of_ne hn fun h10 => hover ⟨by rw [h10], .inl hdigit⟩
    refine ⟨hstate, ?_, hn⟩
    have hne : escParamMax ≠ c.currParamIndex.toNat := by
      rw [hindex, Int.toNat_natCast, escParamMax]
      omega
    change Function.update c.esc _ _ escParamMax = n
    rw [Function.update_of_ne hne]
    exact hindex
  rw [if_neg (show ¬(48 ≤ ch ∧ ch ≤ 57) from hdigit), if_neg hdigit]
  have hiff : (ch = 59 ∧ c.currParamIndex < escParamMax) ↔ (ch = 59 ∧ n < 10) := by
    rw [hindex, escParamMax]
    exact and_congr_right fun _ => by omega
  by_cases hsep : ch = 59 ∧ n < 10
  · rw [if_pos (hiff.mpr hsep), if_pos hsep]
    refine ⟨hstate, ?_, hsep.2⟩
    change Function.update c.esc escParamMax (c.currParamIndex + 1) escParamMax = _
    rw [Function.update_self, hindex]
    rfl
  · rw [if_neg (fun h => hsep (hiff.mp h)), if_neg hsep]
    exact (rfl : WriteState.normal = _)

/-- As long as no byte goes over, the console follows the scan. -/
theorem write_scans {s : Scan} (h : Scans c s) {ch : UInt8} (hover : ¬s.Over ch) :
    Scans (write c ch) (s.next ch) := by
  cases s with
  | text =>
    have hstate : c.writeState = .normal := h
    rw [write, hstate]
    exact writeNormal_scans hstate ch
  | esc =>
    have hstate : c.writeState = .esc := h
    rw [write, hstate]
    exact writeEsc_scans c ch
  | args n =>
    have hstate : c.writeState = .square := h.1
    rw [write, hstate]
    exact writeEscSquare_scans h hover

/-- After `ESC` only `[` changes the index. -/
theorem writeEsc_index (c : Console) {ch : UInt8} (h : ch ≠ 91) :
    (writeEsc c ch).currParamIndex = c.currParamIndex := by
  unfold writeEsc
  rw [if_neg h]
  split
  · rfl
  · split <;> rfl

/-- A byte that ends the sequence leaves the index as it is. -/
theorem writeEscSquare_index (c : Console) {ch : UInt8} (hd : ¬IsDigit ch)
    (hs : ¬(ch = 59 ∧ c.currParamIndex < escParamMax)) :
    (writeEscSquare c ch).currParamIndex = c.currParamIndex := by
  rw [writeEscSquare, if_neg (show ¬(48 ≤ ch ∧ ch ≤ 57) from hd), if_neg hs]
  change (escCommand c ch).esc escParamMax = _
  rw [escCommand_esc]
  rfl

/-- Inside the array, the accesses of a byte that does not go over. -/
theorem paramAccesses_square {n : Nat} (h : Scans c (.args n)) {ch : UInt8}
    (hover : ¬(Scan.args n).Over ch) : ∀ i ∈ c.paramAccesses ch, 0 ≤ i ∧ i < escParamMax := by
  obtain ⟨hstate, hindex, hn⟩ := h
  have hlt : IsDigit ch ∨ ch = 109 → n < 10 := fun hch =>
    Nat.lt_of_le_of_ne hn fun h10 => hover ⟨by rw [h10], hch⟩
  intro i hi
  rw [paramAccesses, if_pos hstate, hindex] at hi
  rw [escParamMax]
  split at hi
  next hd =>
    have := hlt (.inl hd)
    rw [List.mem_singleton] at hi
    omega
  · split at hi
    next hm =>
      have := hlt (.inr hm)
      obtain ⟨j, hj, rfl⟩ := List.mem_map.mp hi
      rw [List.mem_range] at hj
      rw [Int.ofNat_eq_natCast]
      omega
    · exact absurd hi (List.not_mem_nil)

/-- A byte stays in the array exactly when it does not go over. -/
theorem paramsIn_iff {s : Scan} (h : Scans c s) (ch : UInt8) : ParamsIn c ch ↔ ¬s.Over ch := by
  constructor
  · rintro hin ⟨rfl, hch⟩
    obtain ⟨hstate, hindex, -⟩ := h
    have hten : (10 : Int) ∈ c.paramAccesses ch := by
      rw [paramAccesses, if_pos hstate, hindex]
      split
      · exact List.mem_singleton.mpr rfl
      next hd =>
        rw [if_pos (hch.resolve_left hd)]
        decide
    exact absurd (hin.access 10 hten).2 (by decide)
  · intro hover
    have hnext := write_scans h hover
    cases s with
    | text =>
      have hstate : c.writeState = .normal := h
      refine ⟨by simp [paramAccesses, hstate], fun hne => absurd ?_ hne⟩
      rw [write, hstate, currParamIndex, (writeNormal_state c ch).2]
      rfl
    | esc =>
      have hstate : c.writeState = .esc := h
      refine ⟨by simp [paramAccesses, hstate], fun hne => .inl ?_⟩
      by_cases hopen : ch = 91
      · subst hopen
        exact ⟨hstate, rfl, hnext.2.1⟩
      · refine absurd ?_ hne
        rw [write, hstate]
        exact writeEsc_index c hopen
    | args n =>
      refine ⟨paramAccesses_square h hover, fun hne => .inr ?_⟩
      obtain ⟨hstate, hindex, -⟩ := h
      rw [Scan.next] at hnext
      by_cases hd : IsDigit ch
      · rw [if_pos hd] at hnext
        exact absurd (hnext.2.1.trans hindex.symm) hne
      rw [if_neg hd] at hnext
      by_cases hsep : ch = 59 ∧ n < 10
      · rw [if_pos hsep] at hnext
        exact ⟨hstate, hsep.1, by rw [hnext.2.1, hindex]; rfl⟩
      · refine absurd ?_ hne
        rw [write, hstate]
        refine writeEscSquare_index c hd fun hs => hsep ⟨hs.1, ?_⟩
        have := hs.2
        rw [hindex, escParamMax] at this
        omega

end Console

/-! ## Streams -/

/-- The same for an event; other code does not touch the parameters. -/
def ConsoleEvent.ParamsIn (c : Console) : ConsoleEvent → Prop
  | .write ch => c.ParamsIn ch
  | .other _ => True

/-- Every byte of a stream stays in the parameters exactly when no escape
sequence of it has a digit or an `m` after its tenth separator. -/
theorem params_in_array_iff {c : Console} {s : Scan} (h : c.Scans s) (es : List ConsoleEvent) :
    Along consoleStep (fun c e => e.ParamsIn c) c es ↔ ArgsFit s (writtenBytes es) := by
  induction es generalizing c s with
  | nil => exact Iff.rfl
  | cons e es ih =>
    rw [along_cons]
    cases e with
    | write ch =>
      change c.ParamsIn ch ∧ _ ↔ ¬s.Over ch ∧ ArgsFit (s.next ch) (writtenBytes es)
      rw [Console.paramsIn_iff h]
      refine and_congr_right fun hover => ?_
      have hnext := ih (Console.write_scans h hover)
      exact ⟨fun hall => hnext.mp (hall _ rfl), fun hfit c' hc' => by
        obtain rfl := Option.some.inj hc'
        exact hnext.mpr hfit⟩
    | other rest =>
      change True ∧ _ ↔ ArgsFit s (writtenBytes es)
      rw [true_and]
      have hsame : Console.Scans
          { c with esc := fun i => if i ≤ escParamMax then c.esc i else rest i } s := by
        cases s with
        | text => exact h
        | esc => exact h
        | args n => exact h
      exact ⟨fun hall => (ih hsame).mp (hall _ rfl), fun hfit c' hc' => by
        obtain rfl := Option.some.inj hc'
        exact (ih hsame).mpr hfit⟩

/-- `ESC [ 3 1 m` on a fresh console. -/
theorem params_in_array_iff_colour :
    Along consoleStep (fun c e => e.ParamsIn c) (Console.zero.init 1 0)
      [.write 27, .write 91, .write 51, .write 49, .write 109] := by
  refine (params_in_array_iff (s := .text) ?_ _).mpr ?_
  · exact (rfl : (Console.zero.init 1 0).writeState = .normal)
  · simp [writtenBytes, ArgsFit, Scan.next, Scan.Over, Console.IsDigit]

/-- `ESC [` with ten separators and a digit, which goes to the index and
makes it 100. -/
def tenSeparators : List ConsoleEvent :=
  [.write 27, .write 91] ++ List.replicate 10 (.write 59) ++ [.write 48]

theorem ten_separators_leave_array :
    (∃ c, run consoleStep (Console.zero.init 1 0) tenSeparators = some c ∧
      c.currParamIndex = 100) ∧
    ¬Along consoleStep (fun c e => e.ParamsIn c) (Console.zero.init 1 0) tenSeparators := by
  constructor
  · exact ⟨_, rfl, by decide⟩
  · intro h
    rw [tenSeparators, along_append] at h
    have hlast := (h.2 _ rfl).1
    exact absurd (hlast.access 10 (by decide)).2 (by decide)

end Wjos
