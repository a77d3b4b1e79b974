/-
Wjos.Dev.TtyLine — the line discipline of `tty_read`.

`keepChar size` is what one character does to the characters kept so far, and
`lineOf size chars` what a whole input leaves. The code works on the caller's
buffer through a pointer that moves both ways; `LineBuf` says that the buffer
holds the characters kept and that nothing outside its `size` bytes has
changed. `ttyReadLoop_line` compares the loop with the discipline: it stops at
the first character after which the line is over, and never before.

Translation notes. The input is what the loop takes from `ififo`, each
character with the `iflags` it finds then, which `tty_control` may have changed
in between. `mem` is the caller's memory, counted from `buf` on.
-/
import Wjos.Dev.Tty

namespace Wjos

open Lib

/-! ## The code -/

/-- `tty_control` with `TTY_CMD_ECHO`. -/
def ttyControlEcho (iflags : BitVec 32) (arg0 : Int) : BitVec 32 :=
  if arg0 ≠ 0 then iflags ||| BitVec.ofNat 32 ttyIecho else iflags &&& ~~~BitVec.ofNat 32 ttyIecho

/-- The locals of `tty_read` and the caller's memory. -/
structure ReadBuf where
  mem : Int → UInt8
  pbuf : Int
  len : Int

/-- `*pbuf++=ch; len++;`. -/
def ReadBuf.store (b : ReadBuf) (ch : UInt8) : ReadBuf where
  mem := Function.update b.mem b.pbuf ch
  pbuf := b.pbuf + 1
  len := cInt (b.len + 1)

/-- The switch of `tty_read`. -/
def readChar (iflags : BitVec 32) (size : Int) (b : ReadBuf) (ch : UInt8) : ReadBuf :=
  if ch = 0x7f then
    if b.len = 0 then b else { b with len := cInt (b.len - 1), pbuf := b.pbuf - 1 }
  else if ch = 10 then
    let b := if iflags ≠ 0 ∧ b.len < size - 1 then b.store 13 else b
    b.store 10
  else b.store ch

/-- The loop of `tty_read`: the buffer, and the input that is left when it
returns. It does not return while it waits for more. -/
def ttyReadLoop (size : Int) (b : ReadBuf) :
    List (BitVec 32 × UInt8) → ReadBuf × Option (List (BitVec 32 × UInt8))
  | [] => (b, if b.len < size then none else some [])
  | (iflags, ch) :: input =>
    if b.len < size then
      let b := readChar iflags size b ch
      if ch = 10 ∨ ch = 13 then (b, some input) else ttyReadLoop size b input
    else (b, some ((iflags, ch) :: input))

/-- `tty_read`. -/
def ttyRead (mem : Int → UInt8) (size : Int) (input : List (BitVec 32 × UInt8)) :
    ReadBuf × Option (List (BitVec 32 × UInt8)) :=
  ttyReadLoop size { mem := mem, pbuf := 0, len := 0 } input

/-- The flags an opened terminal can have. -/
inductive TtyFlags : BitVec 32 → Prop where
  | opened : TtyFlags (BitVec.ofNat 32 (ttyInclr ||| ttyIecho))
  | control (iflags : BitVec 32) (arg0 : Int) :
    TtyFlags iflags → TtyFlags (ttyControlEcho iflags arg0)

/-- `TTY_INCLR` is never cleared. -/
theorem TtyFlags.ne_zero {iflags : BitVec 32} (h : TtyFlags iflags) : iflags ≠ 0 := by
  have hbit : iflags.getLsbD 0 = true := by
    induction h with
    | opened => decide
    | control iflags arg0 _ ih =>
      unfold ttyControlEcho
      split
      · rw [BitVec.getLsbD_or, ih, Bool.true_or]
      · rw [BitVec.getLsbD_and, ih]
        decide
  intro h0
  rw [h0] at hbit
  exact absurd hbit (by decide)

/-! ## The discipline -/

/-- One character of the input. -/
def keepChar (size : Nat) (kept : List UInt8) (ch : UInt8) : List UInt8 :=
  if ch = 0x7f then kept.dropLast
  else if ch = 10 then kept ++ (if kept.length + 1 < size then [13, 10] else [10])
  else kept ++ [ch]

/-- What an input leaves. -/
def lineOf (size : Nat) (chars : List UInt8) : List UInt8 := chars.foldl (keepChar size) []

theorem lineOf_concat (size : Nat) (chars : List UInt8) (ch : UInt8) :
    lineOf size (chars ++ [ch]) = keepChar size (lineOf size chars) ch := by
  rw [lineOf, List.foldl_append]
  rfl

/-- The line is over: its last character ended it, or the buffer is full. -/
def LineOver (size : Nat) (chars : List UInt8) : Prop :=
  (∃ ch ∈ chars.getLast?, ch = 10 ∨ ch = 13) ∨ (lineOf size chars).length = size

/-- No shorter input ends the line. -/
def FirstOver (size : Nat) (chars : List UInt8) : Prop :=
  ∀ p, p <+: chars → p ≠ chars → ¬LineOver size p

/-! ## The buffer -/

/-- The buffer holds `kept`; outside its `size` bytes memory is as it was. -/
structure LineBuf (size : Nat) (mem : Int → UInt8) (kept : List UInt8) (b : ReadBuf) : Prop where
  len : b.len = kept.length
  pbuf : b.pbuf = kept.length
  le : kept.length ≤ size
  cell : ∀ (i : Nat) (hi : i < kept.length), b.mem i = kept[i]
  frame : ∀ a : Int, a < 0 ∨ size ≤ a → b.mem a = mem a

namespace LineBuf

variable {size : Nat} {mem : Int → UInt8} {kept : List UInt8} {b : ReadBuf}

/-- A character stored behind the others, where there is room. -/
theorem store (h : LineBuf size mem kept b) (hsize : (size : Int) ≤ intMax)
    (hlt : kept.length < size) (ch : UInt8) : LineBuf size mem (kept ++ [ch]) (b.store ch) where
  len := by
    have hlen := h.len
    rw [ReadBuf.store, cInt_eq (by omega) (by omega), hlen, List.length_append,
      List.length_singleton]
    rfl
  pbuf := by
    rw [ReadBuf.store, h.pbuf, List.length_append, List.length_singleton]
    rfl
  le := by
    rw [List.length_append, List.length_singleton]
    omega
  cell i hi := by
    rw [List.length_append, List.length_singleton] at hi
    dsimp only [ReadBuf.store]
    rw [h.pbuf]
    rcases Nat.lt_succ_iff_lt_or_eq.mp hi with hlt | rfl
    · rw [Function.update_of_ne (by omega), List.getElem_append_left hlt]
      exact h.cell i hlt
    · simp
  frame a ha := by
    dsimp only [ReadBuf.store]
    rw [h.pbuf, Function.update_of_ne (by omega)]
    exact h.frame a ha

/-- The switch does what the discipline says. -/
theorem readChar (h : LineBuf size mem kept b) (hsize : (size : Int) ≤ intMax)
    (hlt : kept.length < size) {iflags : BitVec 32} (hflags : iflags ≠ 0) (ch : UInt8) :
    LineBuf size mem (keepChar size kept ch) (readChar iflags size b ch) := by
  have hlen := h.len
  unfold Wjos.readChar keepChar
  split
  · by_cases h0 : kept.length = 0
    · rw [if_pos (by omega), List.eq_nil_of_length_eq_zero h0]
      rw [List.eq_nil_of_length_eq_zero h0] at h
      exact h
    · rw [if_neg (by omega)]
      have hpred : ((kept.dropLast.length : Nat) : Int) = kept.length - 1 := by
        rw [List.length_dropLast]
        omega
      refine ⟨?_, ?_, ?_, fun i hi => ?_, h.frame⟩
      · rw [hpred, hlen]
        exact cInt_eq (by omega) (by omega)
      · rw [hpred, h.pbuf]
      · rw [List.length_dropLast]
        omega
      · rw [List.getElem_dropLast]
        exact h.cell i _
  split
  · -- a `\r` goes before the `\n` where both fit
    by_cases hroom : kept.length + 1 < size
    · rw [if_pos hroom, if_pos ⟨hflags, by omega⟩]
      have hcr := h.store hsize hlt 13
      have hnl := hcr.store hsize (by simp; omega) 10
      rwa [List.append_assoc] at hnl
    · rw [if_neg hroom, if_neg (by rintro ⟨-, hl⟩; omega)]
      exact h.store hsize hlt 10
  · exact h.store hsize hlt ch

end LineBuf

/-! ## The loop -/

/-- What a call has done with the characters `consumed`. -/
structure ReadsLine (size : Nat) (mem : Int → UInt8) (consumed : List UInt8) (b : ReadBuf) :
    Prop where
  buf : LineBuf size mem (lineOf size consumed) b
  first : FirstOver size consumed

theorem getLast?_concat_end {chars : List UInt8} {ch : UInt8} (h : ch = 10 ∨ ch = 13) :
    ∃ c ∈ (chars ++ [ch]).getLast?, c = 10 ∨ c = 13 := by
  rw [List.getLast?_concat]
  exact ⟨ch, rfl, h⟩

/-- A longer input whose shorter part is not over. -/
theorem FirstOver.concat {size : Nat} {chars : List UInt8} (h : FirstOver size chars)
    (hover : ¬LineOver size chars) (ch : UInt8) : FirstOver size (chars ++ [ch]) := by
  intro p hp hne
  rcases List.prefix_concat_iff.mp hp with rfl | hpre
  · exact absurd rfl hne
  · by_cases heq : p = chars
    · rw [heq]
      exact hover
    · exact h p hpre heq

/-- Before the end of the line the loop goes on exactly while there is room. -/
theorem lineOver_iff {size : Nat} {mem : Int → UInt8} {done : List UInt8} {b : ReadBuf}
    (h : LineBuf size mem (lineOf size done) b) (hend : ∀ ch ∈ done.getLast?, ch ≠ 10 ∧ ch ≠ 13) :
    LineOver size done ↔ ¬b.len < size := by
  have hlen := h.len
  have hle := h.le
  constructor
  · rintro (⟨ch, hch, he⟩ | hfull)
    · obtain ⟨h10, h13⟩ := hend ch hch
      exact absurd he (by simp [h10, h13])
    · omega
  · intro hge
    exact .inr (by omega)

/-- The loop from any place in the line: `done` has been taken already. -/
theorem ttyReadLoop_line {size : Nat} (hsize : (size : Int) ≤ intMax) {mem : Int → UInt8}
    (input : List (BitVec 32 × UInt8)) (hflags : ∀ e ∈ input, e.1 ≠ 0) {done : List UInt8}
    {b : ReadBuf} (h : ReadsLine size mem done b)
    (hend : ∀ ch ∈ done.getLast?, ch ≠ 10 ∧ ch ≠ 13) :
    ∃ consumed, ReadsLine size mem consumed (ttyReadLoop size b input).1 ∧
      match (ttyReadLoop size b input).2 with
      | none => consumed = done ++ input.map Prod.snd ∧ ¬LineOver size consumed
      | some rest => consumed ++ rest.map Prod.snd = done ++ input.map Prod.snd ∧
          LineOver size consumed := by
  have hover := lineOver_iff h.buf hend
  induction input generalizing done b with
  | nil =>
    refine ⟨done, h, ?_⟩
    rw [ttyReadLoop]
    by_cases hlt : b.len < size
    · rw [if_pos hlt]
      exact ⟨by simp, fun ho => hover.mp ho hlt⟩
    · rw [if_neg hlt]
      exact ⟨rfl, hover.mpr hlt⟩
  | cons e input ih =>
    obtain ⟨iflags, ch⟩ := e
    rw [ttyReadLoop]
    by_cases hlt : b.len < size
    · have hlen := h.buf.len
      have hnext : ReadsLine size mem (done ++ [ch]) (readChar iflags size b ch) := by
        refine ⟨?_, h.first.concat (fun ho => hover.mp ho hlt) ch⟩
        rw [lineOf_concat]
        exact h.buf.readChar hsize (by omega) (hflags _ List.mem_cons_self) ch
      rw [if_pos hlt]
      by_cases hch : ch = 10 ∨ ch = 13
      · simp only [if_pos hch]
        exact ⟨done ++ [ch], hnext, by simp, .inl (getLast?_concat_end hch)⟩
      · simp only [if_neg hch]
        have hend' : ∀ c ∈ (done ++ [ch]).getLast?, c ≠ 10 ∧ c ≠ 13 := by
          intro c hc
          rw [List.getLast?_concat] at hc
          obtain rfl := Option.some.inj hc
          exact not_or.mp hch
        have hrest := ih (fun e he => hflags e (List.mem_cons_of_mem _ he)) hnext hend'
          (lineOver_iff hnext.buf hend')
        simpa [List.append_assoc] using hrest
    · rw [if_neg hlt]
      exact ⟨done, h, rfl, hover.mpr hlt⟩

/-- `tty_read` returns the line that the characters it took make, within its
buffer, as soon as that line is over; until then it waits. -/
theorem ttyRead_line (size : Nat) (hsize : (size : Int) ≤ intMax)
    (mem : Int → UInt8) (input : List (BitVec 32 × UInt8)) (hflags : ∀ e ∈ input, TtyFlags e.1) :
    ∃ consumed, ReadsLine size mem consumed (ttyRead mem size input).1 ∧
      match (ttyRead mem size input).2 with
      | none => consumed = input.map Prod.snd ∧ ¬LineOver size consumed
      | some rest => consumed ++ rest.map Prod.snd = input.map Prod.snd ∧
          LineOver size consumed := by
  have hstart : ReadsLine size mem [] { mem := mem, pbuf := 0, len := 0 } := by
    refine ⟨⟨rfl, rfl, Nat.zero_le size, fun i hi => absurd hi (Nat.not_lt_zero i), fun _ _ => rfl⟩,
      fun p hp hne => absurd (List.prefix_nil.mp hp) hne⟩
  exact ttyReadLoop_line hsize input (fun e he => (hflags e he).ne_zero) hstart
    (fun ch hch => absurd hch (by simp))

/-- `a`, a deletion, `b` and Enter in a buffer of three bytes. -/
def editedLine : List (BitVec 32 × UInt8) :=
  [97, 0x7f, 98, 10].map fun ch => (BitVec.ofNat 32 (ttyInclr ||| ttyIecho), ch)

theorem ttyRead_line_edited : ∃ consumed,
    ReadsLine 3 (fun _ => 0) consumed (ttyRead (fun _ => 0) (3 : Nat) editedLine).1 := by
  have hflags : ∀ e ∈ editedLine, TtyFlags e.1 := by
    intro e he
    obtain ⟨ch, -, rfl⟩ := List.mem_map.mp he
    exact .opened
  obtain ⟨consumed, h, -⟩ := ttyRead_line 3 (by decide) (fun _ => 0) editedLine hflags
  exact ⟨consumed, h⟩

example : lineOf 3 [97, 0x7f, 98, 10] = [98, 13, 10] := by decide

end Wjos
