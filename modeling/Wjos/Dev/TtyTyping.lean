/-
Wjos.Dev.TtyTyping — typing on a terminal with echo, and the counter
`input_len`.

One task reads: `Typing` holds the queue of typed characters, the call of
`tty_read` with what it has kept, and the console that the echo goes to.
`lineLen` is a count beside the state: the characters kept on the line that is
not finished, over all calls that read it. `inputLen_counts_iff` says when the
console's counter is that number.

A deletion lowers the counter twice: `tty_read` takes one off, and the echoed
0x7f takes one off again in `erase_backword`, unless an escape sequence
swallows it. A `\r` ends the line, but is counted like any other character.

A step of `Typing` is what the steps of `TtyIn` and `TtyOut` come to when one
task reads and nobody else writes (`ttyIn_contents`, `console_echoes`); the
steps of `tty_read` one by one are in `TtyReader`.
-/
import Wjos.Dev.ConsoleParams
import Wjos.Dev.TtyIn
import Wjos.Dev.TtyOut

namespace Wjos

open Lib

/-! ## The counter under output -/

namespace Console

variable {c : Console}

theorem writeNormal_inputLen (c : Console) {ch : UInt8} (h : ch ≠ 0x7f) :
    (writeNormal c ch).inputLen = c.inputLen := by
  unfold writeNormal
  split
  · rfl
  split
  · rfl
  split
  · exact (moveBackwordOne_drawn c).inputLen
  split
  · rfl
  split
  · exact (moveNextLine_drawn c).inputLen
  split
  · exact (showChar_drawn c ch).inputLen
  · rfl

theorem escCommand_inputLen (c : Console) (ch : UInt8) :
    (escCommand c ch).inputLen = c.inputLen := by
  unfold escCommand
  split
  · obtain ⟨fg, bg, he⟩ := setFontStyle_frame c
    rw [he]
  split
  · rfl
  split
  · rfl
  split
  · rfl
  split
  · unfold eraseInDisplay
    split
    · rfl
    · split <;> rfl
  · rfl

theorem writeEsc_inputLen (c : Console) (ch : UInt8) : (writeEsc c ch).inputLen = c.inputLen := by
  unfold writeEsc
  split
  · rfl
  split
  · rfl
  · split <;> rfl

theorem writeEscSquare_inputLen (c : Console) (ch : UInt8) :
    (writeEscSquare c ch).inputLen = c.inputLen := by
  unfold writeEscSquare
  split
  · rfl
  split
  · rfl
  · exact escCommand_inputLen c ch

/-- Only a 0x7f outside escape sequences changes the counter. -/
theorem write_inputLen (c : Console) (ch : UInt8) : (write c ch).inputLen =
    if ch = 0x7f ∧ c.writeState = .normal then cInt (c.inputLen - 1) else c.inputLen := by
  unfold write
  cases hstate : c.writeState with
  | normal =>
    by_cases hdel : ch = 0x7f
    · rw [if_pos ⟨hdel, rfl⟩, hdel]
      exact (eraseBackword_state c 1).2.2
    · rw [if_neg fun h => hdel h.1]
      exact writeNormal_inputLen c hdel
  | esc =>
    rw [if_neg (by simp)]
    exact writeEsc_inputLen c ch
  | square =>
    rw [if_neg (by simp)]
    exact writeEscSquare_inputLen c ch

end Console

/-! ## Typing -/

/-- A terminal with one reader. -/
structure Typing where
  console : Console
  queue : List UInt8
  reading : Option (Int × List UInt8)
  lineLen : Nat

inductive TypingEvent where
  /-- The reader calls `tty_read`. -/
  | call (size : Int)
  /-- A key is pressed: `tty_in`. -/
  | key (ch : UInt8)
  /-- The reader takes a character. -/
  | take

/-- `tty_in`, with a semaphore that counts the queue. -/
def typeIn (queue : List UInt8) (ch : UInt8) : List UInt8 :=
  if queue.length ≥ ttyIbufSize then queue else queue ++ [ch]

/-- `tty_write` of one character, as far as the console sees it. -/
def echo (c : Console) (ch : UInt8) : Console :=
  if expands ttyOcrlf ch then (c.write 13).write ch else c.write ch

/-- The flags of an opened terminal. -/
def echoFlags : Nat := ttyInclr ||| ttyIecho

/-- The characters kept on the unfinished line after one more. -/
def countChar (n : Nat) (kept : List UInt8) (ch : UInt8) : Nat :=
  if ch = 0x7f then if kept = [] then n else n - 1
  else if ch = 10 ∨ ch = 13 then 0 else n + 1

/-- The rest of the round of `tty_read` that has taken `ch`. -/
def takeChar (s : Typing) (size : Int) (kept : List UInt8) (ch : UInt8) (queue : List UInt8) :
    Typing :=
  let (kept', inputLen, goesOn) := readSwitch echoFlags size kept s.console.inputLen ch
  let console : Console := { s.console with inputLen := inputLen }
  { console := if goesOn then echo console ch else console
    queue := queue
    reading :=
      if goesOn ∧ (ch = 10 ∨ ch = 13) then none
      else if (kept'.length : Int) < size then some (size, kept') else none
    lineLen := countChar s.lineLen kept ch }

def typingStep (s : Typing) : TypingEvent → Option Typing
  | .call size =>
    match s.reading with
    | none => some { s with reading := if 0 < size then some (size, []) else none }
    | some _ => none
  | .key ch => some { s with queue := typeIn s.queue ch }
  | .take =>
    match s.reading, s.queue with
    | some (size, kept), ch :: queue => some (takeChar s size kept ch queue)
    | _, _ => none

/-- A terminal after `tty_open`, with its console. -/
def Typing.opened (c : Console) : Typing where
  console := c
  queue := []
  reading := none
  lineLen := 0

/-! ## The steps it stands for -/

section Steps

variable {τ : Type*} [DecidableEq τ]

/-- `typeIn` is what `tty_in` does to the characters in the buffer, with any
number of permits in the hands of readers. -/
theorem ttyIn_contents {s : TtyIn τ} (h : TtyInBase s) (hm : InputMatched s) {ch : UInt8}
    (hok : InputOk s (.ttyIn ch)) :
    (ttyIn s ch).ififo.contents = typeIn s.ififo.contents ch := by
  have hlen := s.ififo.length_contents
  have hsize := h.size
  have hpermits := hm.permits
  unfold ttyIn typeIn
  by_cases hfull : s.isem.count ≥ ttyIbufSize
  · rw [if_pos hfull, if_pos (by omega)]
  · have hroom := hok (by omega)
    obtain ⟨f, hput, -, hcontents, -⟩ := ttyFifoPut_ok h.ok hroom ch
    rw [if_neg hfull, if_neg (by omega), ← hcontents, hput]
    rfl

theorem foldl_echo (c : Console) (chars : List UInt8) :
    chars.foldl echo c = (crlf ttyOcrlf chars).foldl Console.write c := by
  induction chars generalizing c with
  | nil => rfl
  | cons ch chars ih =>
    have hcrlf : crlf ttyOcrlf (ch :: chars) =
        charsOf (expands ttyOcrlf ch) ch ++ crlf ttyOcrlf chars := List.flatMap_cons
    rw [List.foldl_cons, ih, hcrlf, List.foldl_append]
    congr 1
    unfold echo charsOf
    split <;> rfl

/-- When all output is done and one task wrote it, the console has got its
characters one by one, each as `echo` does it. -/
theorem console_echoes {c₀ : Console} {s : TtyOut τ} (h : OutputComplete c₀ s) (t : τ)
    (hidle : ∀ u, s.pc u = .idle) (hone : ∀ u, u ≠ t → s.written u = []) :
    s.console = (s.written t).foldl echo c₀ := by
  have hown : ∀ p ∈ s.puts, p.1 = t := by
    intro p hp
    by_contra hne
    have hnone := h.returned p.1 (hidle p.1)
    rw [hone p.1 hne] at hnone
    have hmem : p.2 ∈ bytesOf p.1 s.puts :=
      List.mem_map_of_mem (List.mem_filter.mpr ⟨hp, decide_eq_true rfl⟩)
    rw [hnone] at hmem
    cases hmem
  have hall : bytesOf t s.puts = s.puts.map Prod.snd := by
    unfold bytesOf
    rw [List.filter_eq_self.mpr fun p hp => decide_eq_true (hown p hp)]
  rw [h.console, h.quiet hidle, ← hall, h.returned t (hidle t), foldl_echo]

end Steps

/-! ## The count -/

/-- What every step keeps: the counter is an `int`, and what a call has kept
is on the line. -/
structure Typing.Ok (s : Typing) : Prop where
  range : -2147483648 ≤ s.console.inputLen ∧ s.console.inputLen ≤ intMax
  kept : ∀ size kept, s.reading = some (size, kept) → kept.length ≤ s.lineLen

/-- The counter is the number of characters on the unfinished line. -/
def Typing.Counts (s : Typing) : Prop := s.console.inputLen = s.lineLen

instance (s : Typing) : Decidable s.Counts := inferInstanceAs (Decidable (_ = _))

/-- The characters that keep the count right: no `\r`, no deletion of a kept
character that the console acts on too, and no character that the counter has
no room for. -/
structure CharCounts (s : Typing) (kept : List UInt8) (ch : UInt8) : Prop where
  deleted : ¬(ch = 0x7f ∧ kept ≠ [] ∧ s.console.writeState = .normal)
  ne_cr : ch ≠ 13
  room : ch ≠ 0x7f → ch ≠ 10 → (s.lineLen : Int) < intMax

instance (s : Typing) (kept : List UInt8) (ch : UInt8) : Decidable (CharCounts s kept ch) :=
  decidable_of_iff (¬(ch = 0x7f ∧ kept ≠ [] ∧ s.console.writeState = .normal) ∧ ch ≠ 13 ∧
      (ch ≠ 0x7f → ch ≠ 10 → (s.lineLen : Int) < intMax))
    ⟨fun ⟨h₁, h₂, h₃⟩ => ⟨h₁, h₂, h₃⟩, fun ⟨h₁, h₂, h₃⟩ => ⟨h₁, h₂, h₃⟩⟩

/-- The character that a step takes keeps the count right. -/
def CountOk (s : Typing) : TypingEvent → Prop
  | .take => ∀ r ∈ s.reading, ∀ ch ∈ s.queue.head?, CharCounts s r.2 ch
  | _ => True

instance (s : Typing) : ∀ e, Decidable (CountOk s e)
  | .call _ => isTrue trivial
  | .key _ => isTrue trivial
  | .take => @Option.decidableForallMem _ _ (fun _ => Option.decidableForallMem _) _

theorem cInt_range (n : Int) : -2147483648 ≤ cInt n ∧ cInt n ≤ intMax := by
  unfold cInt intMax
  have h₁ := Int.bmod_lt (x := n) (by decide : 0 < 4294967296)
  have h₂ := Int.le_bmod (x := n) (by decide : 0 < 4294967296)
  omega

/-- The echo counts only for a deletion outside escape sequences. -/
theorem echo_inputLen (c : Console) (ch : UInt8) : (echo c ch).inputLen =
    if ch = 0x7f ∧ c.writeState = .normal then cInt (c.inputLen - 1) else c.inputLen := by
  unfold echo expands
  by_cases h10 : ch = 10
  · subst h10
    rw [if_pos (by decide), Console.write_inputLen, if_neg (by simp), Console.write_inputLen,
      if_neg (by simp), if_neg (by simp)]
  · rw [if_neg (by simp [h10])]
    exact Console.write_inputLen c ch

/-- The counter after a character, over both paths that change it. -/
theorem takeChar_inputLen (s : Typing) (size : Int) (kept : List UInt8) (ch : UInt8)
    (queue : List UInt8) : (takeChar s size kept ch queue).console.inputLen =
      if ch = 0x7f then
        if kept = [] then s.console.inputLen
        else if s.console.writeState = .normal then cInt (cInt (s.console.inputLen - 1) - 1)
        else cInt (s.console.inputLen - 1)
      else if ch = 10 then 0 else cInt (s.console.inputLen + 1) := by
  unfold takeChar readSwitch
  by_cases hdel : ch = 0x7f
  · rw [if_pos hdel, if_pos hdel]
    by_cases hkept : kept = []
    · simp [hkept]
    · simp [hkept, hdel, echo_inputLen]
  · rw [if_neg hdel, if_neg hdel]
    by_cases h10 : ch = 10
    · simp [h10, echo_inputLen]
    · simp [h10, hdel, echo_inputLen]

/-- What a reader still has kept after a character is on the line. -/
theorem takeChar_kept {s : Typing} {size size' : Int} {kept kept' : List UInt8} {ch : UInt8}
    {queue : List UInt8} (hle : kept.length ≤ s.lineLen)
    (h : (takeChar s size kept ch queue).reading = some (size', kept')) :
    kept'.length ≤ (takeChar s size kept ch queue).lineLen := by
  unfold takeChar readSwitch at h
  change _ ≤ countChar s.lineLen kept ch
  unfold countChar
  by_cases hdel : ch = 0x7f
  · rw [if_pos hdel] at h ⊢
    by_cases hkept : kept = []
    · simp [hkept] at h
      simp [hkept, h.2.2]
    · simp [hkept, hdel] at h
      obtain ⟨-, -, rfl⟩ := h
      rw [if_neg hkept, List.length_dropLast]
      omega
  · rw [if_neg hdel] at h ⊢
    by_cases hend : ch = 10 ∨ ch = 13
    · rcases hend with rfl | rfl <;> simp at h
    · obtain ⟨h10, h13⟩ := not_or.mp hend
      simp [h10, h13] at h
      obtain ⟨-, -, rfl⟩ := h
      rw [if_neg hend, List.length_append, List.length_singleton]
      omega

/-- Where the count was right before a character it is right after it exactly
if the character is one of these. -/
theorem takeChar_counts {s : Typing} {size : Int} {kept : List UInt8} {ch : UInt8}
    (hrange : -2147483648 ≤ s.console.inputLen ∧ s.console.inputLen ≤ intMax)
    (hle : kept.length ≤ s.lineLen) (hc : s.Counts) (queue : List UInt8) :
    (takeChar s size kept ch queue).Counts ↔ CharCounts s kept ch := by
  unfold Typing.Counts at hc ⊢
  rw [takeChar_inputLen, hc]
  rw [hc] at hrange
  change _ = ((countChar s.lineLen kept ch : Nat) : Int) ↔ _
  unfold countChar
  by_cases hdel : ch = 0x7f
  · subst hdel
    rw [if_pos rfl, if_pos rfl]
    by_cases hkept : kept = []
    · rw [if_pos hkept, if_pos hkept]
      exact iff_of_true rfl ⟨fun h => h.2.1 hkept, by decide, fun h => absurd rfl h⟩
    have hpos : 1 ≤ s.lineLen := (List.length_pos_iff.mpr hkept).trans_le hle
    have honce : cInt (s.lineLen - 1) = s.lineLen - 1 := cInt_eq (by omega) (by omega)
    rw [if_neg hkept, if_neg hkept]
    by_cases hnormal : s.console.writeState = .normal
    · -- taken off by the switch and by the echo
      rw [if_pos hnormal, honce, cInt_eq (by omega) (by omega)]
      exact iff_of_false (by omega) fun h => h.deleted ⟨rfl, hkept, hnormal⟩
    · rw [if_neg hnormal, honce]
      exact iff_of_true (by omega) ⟨fun h => hnormal h.2.2, by decide, fun h => absurd rfl h⟩
  rw [if_neg hdel, if_neg hdel]
  by_cases h10 : ch = 10
  · rw [if_pos h10, if_pos (.inl h10)]
    exact iff_of_true rfl ⟨fun h => hdel h.1, by rw [h10]; decide, fun _ h => absurd h10 h⟩
  rw [if_neg h10]
  by_cases h13 : ch = 13
  · -- the line is over, but the counter goes on from its characters
    rw [if_pos (.inr h13)]
    refine iff_of_false ?_ fun h => h.ne_cr h13
    rcases Int.lt_or_eq_of_le hrange.2 with hlt | heq
    · rw [cInt_eq (by omega) (by omega)]
      omega
    · rw [heq]
      decide
  rw [if_neg (not_or.mpr ⟨h10, h13⟩)]
  constructor
  · intro heq
    have hle := (cInt_range ((s.lineLen : Int) + 1)).2
    exact ⟨fun h => hdel h.1, h13, fun _ _ => by omega⟩
  · intro h
    have hroom := h.room hdel h10
    rw [cInt_eq (by omega) (by omega)]
    omega

/-- A step that starts with the right count ends with it exactly under
`CountOk`. -/
theorem typingStep_counts {s s' : Typing} {e : TypingEvent} (hok : s.Ok) (hc : s.Counts)
    (h : typingStep s e = some s') : s'.Ok ∧ (s'.Counts ↔ CountOk s e) := by
  cases e with
  | call size =>
    simp only [typingStep] at h
    split at h
    · obtain rfl := Option.some.inj h
      refine ⟨⟨hok.range, fun size' kept hr => ?_⟩, iff_of_true hc trivial⟩
      dsimp only at hr
      split at hr
      · obtain ⟨-, rfl⟩ := Prod.mk.inj (Option.some.inj hr)
        exact Nat.zero_le _
      · exact absurd hr (by simp)
    · exact absurd h (by simp)
  | key ch =>
    obtain rfl := Option.some.inj h
    exact ⟨⟨hok.range, hok.kept⟩, iff_of_true hc trivial⟩
  | take =>
    simp only [typingStep] at h
    split at h
    case h_2 => exact absurd h (by simp)
    case h_1 size kept ch queue hr hq =>
      obtain rfl := Option.some.inj h
      have hle := hok.kept size kept hr
      have hrange := hok.range
      have hlen := takeChar_inputLen s size kept ch queue
      have hchar : CountOk s .take ↔ CharCounts s kept ch := by
        simp [CountOk, hr, hq]
      rw [hchar]
      constructor
      · refine ⟨?_, fun size' kept' => takeChar_kept hle⟩
        rw [hlen]
        split
        · split
          · exact hrange
          · split <;> exact cInt_range _
        split
        · exact ⟨by decide, by decide⟩
        · exact cInt_range _
      · exact takeChar_counts hrange hle hc queue

theorem Typing.opened_ok {c : Console} (h : c.inputLen = 0) : (Typing.opened c).Ok := by
  refine ⟨?_, fun size kept hr => absurd hr (by simp [Typing.opened])⟩
  change _ ≤ c.inputLen ∧ c.inputLen ≤ _
  rw [h]
  decide

/-- In every run of a terminal with one reader and echo on, the counter is
the number of characters on the unfinished line after every step exactly when
each character taken meets `CountOk`. -/
theorem inputLen_counts_iff {c : Console} (h : c.inputLen = 0) (es : List TypingEvent) :
    (∀ fs s, fs <+: es → run typingStep (Typing.opened c) fs = some s → s.Counts) ↔
      Along typingStep CountOk (Typing.opened c) es := by
  refine always_iff_along ?_ (fun s e s' (hs : s.Ok) => typingStep_counts hs) (Typing.opened_ok h) h
  intro s e hnone
  cases e with
  | call size => trivial
  | key ch => trivial
  | take =>
    intro r hr ch hch
    obtain ⟨queue, hq⟩ := List.head?_eq_some_iff.mp hch
    simp [typingStep, Option.mem_def.mp hr, hq] at hnone

/-- `ab`, Enter: no deletion. -/
def typedPlain : List TypingEvent :=
  [.call 8, .key 97, .key 98, .take, .take, .key 10, .take]

theorem inputLen_counts_iff_plain :
    Along typingStep CountOk (Typing.opened (Console.zero.init 0 0)) typedPlain ∧
    ∀ fs s, fs <+: typedPlain →
      run typingStep (Typing.opened (Console.zero.init 0 0)) fs = some s → s.Counts :=
  ⟨by decide, (inputLen_counts_iff rfl typedPlain).mpr (by decide)⟩

/-- `a` and a deletion leave the counter at -1. -/
theorem deletion_counts_twice : ¬∀ es s,
    run typingStep (Typing.opened (Console.zero.init 0 0)) es = some s → s.Counts := by
  intro h
  exact absurd (h [.call 8, .key 97, .take, .key 0x7f, .take] _ rfl) (by decide)

end Wjos
