/-
Wjos.Dev.TtyReader — what the steps of one reader come to.

`Reader` is a terminal with one task in `tty_read`, step by step: keys come
between any two of its steps, also while it holds a permit that it has not used.
`Reader.typing` is the terminal of `TtyTyping` that such a state comes to. Its
queue is what the buffer holds, and a round of `tty_read` whose character is out
of the buffer counts as done; so the reader takes its character with the get
(`readerStep_typing`). A run of `Reader` comes to a run of `Typing` while no key
finds the buffer full and a permit in the hand of the reader
(`reader_run_typing`).

A recalled command goes the same way, key by key (`Reader.showHisCmd_typing`).
Only its erasing has to find the counter that `Typing` has: between the get of a
character and its echo `input_len` lags behind.

Translation notes. The echo is one step, which is what `tty_write` comes to when
nobody else writes (`console_echoes`). `input_len` is one field of the source: it
stands in `input`, and `Reader.screen` is the console with it.
-/
import Wjos.Dev.TtyRecall

namespace Wjos

open Lib

/-- An opened terminal with one reader; `lineLen` is the count of `Typing`. -/
structure Reader where
  input : TtyIn Unit
  console : Console
  lineLen : Nat

/-- The console, with its counter. -/
def Reader.screen (s : Reader) : Console := { s.console with inputLen := s.input.inputLen }

/-- The console is now this one. -/
def Reader.shows (s : Reader) (console : Console) : Reader :=
  { s with console := console, input := { s.input with inputLen := console.inputLen } }

/-- A step of `tty_read` with its echo, or a key. -/
def readerStep (s : Reader) (e : TtyInEvent Unit) : Option Reader :=
  (ttyInStep s.input e).map fun input =>
    match e, s.input.pc () with
    | .step _ _, .char ch _ kept =>
      { s with input := input, lineLen := countChar s.lineLen kept ch }
    | .step _ _, .echo ch _ _ => Reader.shows { s with input := input } (echo s.screen ch)
    | _, _ => { s with input := input }

/-- After `tty_open`. -/
def Reader.opened (ibuf : Nat → UInt8) (c : Console) : Reader where
  input := ttyInInit ibuf
  console := c
  lineLen := 0

/-! ## What a state comes to -/

/-- The call of `tty_read` at the head of its loop. -/
def readsOn (size : Int) (kept : List UInt8) : Option (Int × List UInt8) :=
  if (kept.length : Int) < size then some (size, kept) else none

/-- The terminal with a reader at this place, its round finished if the
character is out of the buffer. -/
def comesTo (c : Console) (queue : List UInt8) (lineLen : Nat) : ReadPc → Typing
  | .idle => ⟨c, queue, none, lineLen⟩
  | .start size kept => ⟨c, queue, readsOn size kept, lineLen⟩
  | .waiting size kept => ⟨c, queue, some (size, kept), lineLen⟩
  | .get size kept => ⟨c, queue, some (size, kept), lineLen⟩
  | .char ch size kept => takeChar ⟨c, queue, some (size, kept), lineLen⟩ size kept ch queue
  | .echo ch size kept =>
    ⟨echo c ch, queue, if ch = 10 ∨ ch = 13 then none else readsOn size kept, lineLen⟩

/-- What the state comes to. -/
def Reader.typing (s : Reader) : Typing :=
  comesTo s.screen s.input.ififo.contents s.lineLen (s.input.pc ())

/-- What an event comes to. -/
def typingSeen (s : Reader) : TtyInEvent Unit → List TypingEvent
  | .ttyIn ch => [.key ch]
  | .call _ size => [.call size]
  | .step _ _ =>
    match s.input.pc () with
    | .get _ _ => [.take]
    | _ => []

section ComesTo

variable (c : Console) (queue : List UInt8) (n : Nat)

theorem comesTo_granted (p : ReadPc) : comesTo c queue n p.granted = comesTo c queue n p := by
  cases p <;> rfl

/-- A key goes behind the queue wherever the reader is. -/
theorem comesTo_queue (queue' : List UInt8) (p : ReadPc) :
    comesTo c queue' n p = { comesTo c queue n p with queue := queue' } := by
  cases p <;> rfl

/-- The switch, with what it leaves to the echo. -/
theorem comesTo_char (ch : UInt8) (size : Int) (kept : List UInt8) :
    let (kept', inputLen, goesOn) := readSwitch echoFlags size kept c.inputLen ch
    comesTo { c with inputLen := inputLen } queue (countChar n kept ch)
        (if goesOn then .echo ch size kept' else .start size kept') =
      comesTo c queue n (.char ch size kept) := by
  rw [comesTo, takeChar]
  rcases readSwitch echoFlags size kept c.inputLen ch with ⟨kept', inputLen, goesOn⟩
  cases goesOn
  · simp [comesTo, readsOn]
  · simp [comesTo, readsOn]

end ComesTo

/-! ## The steps -/

/-- Permits and characters are matched, and the flags are those of an opened
terminal. -/
structure Reader.Ok (s : Reader) : Prop where
  base : TtyInBase s.input
  matched : InputMatched s.input
  flags : s.input.iflags = echoFlags

theorem TtyInBase.counter {s : TtyIn Unit} (h : TtyInBase s) (n : Int) :
    TtyInBase { s with inputLen := n } := ⟨h.ok, h.size, h.waits, h.finite, h.count_le⟩

theorem InputMatched.counter {s : TtyIn Unit} (h : InputMatched s) (n : Int) :
    InputMatched { s with inputLen := n } := ⟨h.permits, h.gets, h.order⟩

section Steps

variable {s s' : Reader} {e : TtyInEvent Unit}

theorem Reader.Ok.shows (h : s.Ok) (console : Console) : (s.shows console).Ok :=
  ⟨h.base.counter _, h.matched.counter _, h.flags⟩

theorem ttyIn_iflags (s : TtyIn Unit) (ch : UInt8) : (ttyIn s ch).iflags = s.iflags := by
  unfold ttyIn
  split <;> rfl

theorem ttyInStep_iflags {s s' : TtyIn Unit} {e : TtyInEvent Unit}
    (h : ttyInStep s e = some s') : s'.iflags = s.iflags := by
  cases e with
  | ttyIn ch =>
    obtain rfl := Option.some.inj h
    exact ttyIn_iflags s ch
  | call t size =>
    simp only [ttyInStep] at h
    split at h
    · split at h <;> exact Option.some.inj h ▸ rfl
    · cases h
  | step t junk =>
    simp only [ttyInStep] at h
    split at h
    case h_2 =>
      split at h <;> exact Option.some.inj h ▸ rfl
    case h_4 =>
      split at h <;> exact Option.some.inj h ▸ rfl
    case h_5 => exact Option.some.inj h ▸ rfl
    case h_6 => exact Option.some.inj h ▸ rfl
    all_goals cases h

/-- A key wakes the reader at most. -/
theorem ttyIn_pc (s : TtyIn Unit) (ch : UInt8) :
    (ttyIn s ch).pc () = s.pc () ∨ (ttyIn s ch).pc () = (s.pc ()).granted := by
  unfold ttyIn
  split
  · exact .inl rfl
  · dsimp only
    cases s.isem.notify.2 with
    | none => exact .inl rfl
    | some u =>
      have hself : Function.update s.pc () (s.pc u).granted () = (s.pc u).granted :=
        Function.update_self ..
      exact .inr hself

/-- A key is a key. -/
theorem Reader.typing_key (h : s.Ok) {ch : UInt8} (hok : InputOk s.input (.ttyIn ch)) :
    Reader.typing { s with input := ttyIn s.input ch } =
      { s.typing with queue := typeIn s.typing.queue ch } := by
  have hcontents := ttyIn_contents h.base h.matched hok
  have hlen : (ttyIn s.input ch).inputLen = s.input.inputLen := by
    unfold ttyIn
    split <;> rfl
  have hqueue : s.typing.queue = s.input.ififo.contents := by
    rw [Reader.typing, comesTo_queue s.screen s.input.ififo.contents]
  have hpc : ∀ c q n, comesTo c q n ((ttyIn s.input ch).pc ()) = comesTo c q n (s.input.pc ()) := by
    intro c q n
    rcases ttyIn_pc s.input ch with hpc | hpc
    · rw [hpc]
    · rw [hpc, comesTo_granted]
  rw [Reader.typing, Reader.screen]
  dsimp only
  rw [hcontents, hlen, hpc, hqueue]
  exact comesTo_queue _ _ _ _ _

/-- At the head of the loop the reader goes on to the wait, or out. -/
theorem Reader.typing_start {input : TtyIn Unit} {size : Int} {kept : List UInt8} {junk : UInt8}
    (hpc : s.input.pc () = .start size kept)
    (hinput : ttyInStep s.input (.step () junk) = some input) :
    Reader.typing { s with input := input } = s.typing := by
  simp only [ttyInStep, hpc] at hinput
  by_cases hlen : (kept.length : Int) < size
  · rw [if_pos hlen] at hinput
    obtain rfl := Option.some.inj hinput
    have hreads : readsOn size kept = some (size, kept) := if_pos hlen
    simp only [Reader.typing, Reader.screen, Function.update_self, hpc]
    cases (s.input.isem.wait ()).2 <;> simp [comesTo, hreads]
  · rw [if_neg hlen] at hinput
    obtain rfl := Option.some.inj hinput
    have hreads : readsOn size kept = none := if_neg hlen
    simp only [Reader.typing, Reader.screen, Function.update_self, hpc, comesTo, hreads]

/-- The get is where the reader takes its character. -/
theorem Reader.typing_get (h : s.Ok) {input : TtyIn Unit} {size : Int} {kept : List UInt8}
    {junk : UInt8} (hpc : s.input.pc () = .get size kept)
    (hinput : ttyInStep s.input (.step () junk) = some input) :
    typingStep s.typing .take = some (Reader.typing { s with input := input }) := by
  obtain ⟨ch, queue, hqueue⟩ := h.base.gets h.matched.permits (t := ()) (by rw [hpc]; rfl)
  obtain ⟨f, hget, -, hrest, -⟩ := ttyFifoGet_ok h.base.ok hqueue
  simp only [ttyInStep, hpc, hget, Option.some.injEq] at hinput
  subst hinput
  simp only [Reader.typing, Reader.screen, Function.update_self, hpc, hqueue, hrest]
  rfl

/-- The switch and the echo belong to the round that the get has begun. -/
theorem Reader.typing_char (h : s.Ok) {input : TtyIn Unit} {ch : UInt8} {size : Int}
    {kept : List UInt8} {junk : UInt8} (hpc : s.input.pc () = .char ch size kept)
    (hinput : ttyInStep s.input (.step () junk) = some input) :
    Reader.typing { s with input := input, lineLen := countChar s.lineLen kept ch } =
      s.typing := by
  have hchar := comesTo_char s.screen s.input.ififo.contents s.lineLen ch size kept
  simp only [ttyInStep, hpc, h.flags, Option.some.injEq] at hinput
  subst hinput
  simp only [Reader.typing, Reader.screen, Function.update_self, hpc]
  exact hchar

theorem Reader.typing_echo {input : TtyIn Unit} {ch : UInt8} {size : Int} {kept : List UInt8}
    {junk : UInt8} (hpc : s.input.pc () = .echo ch size kept)
    (hinput : ttyInStep s.input (.step () junk) = some input) :
    Reader.typing (Reader.shows { s with input := input } (echo s.screen ch)) = s.typing := by
  simp only [ttyInStep, hpc, Option.some.injEq] at hinput
  subst hinput
  simp only [Reader.typing, Reader.shows, Reader.screen, Function.update_self, hpc]
  split
  next hend => simp only [comesTo, if_pos hend]
  next hend => simp only [comesTo, if_neg hend]

theorem readerStep_ok (h : s.Ok) (hok : InputOk s.input e) (hs : readerStep s e = some s') :
    s'.Ok := by
  obtain ⟨input, hinput, rfl⟩ := Option.map_eq_some_iff.mp hs
  obtain ⟨hbase, hiff⟩ := ttyInStep_matched_iff s.input e input h.base h.matched hinput
  have hin : Reader.Ok { s with input := input } :=
    ⟨hbase, hiff.mpr hok, (ttyInStep_iflags hinput).trans h.flags⟩
  split
  · exact ⟨hin.base, hin.matched, hin.flags⟩
  · exact hin.shows _
  · exact hin

/-- Each step comes to what `typingSeen` says. -/
theorem readerStep_typing (h : s.Ok) (hok : InputOk s.input e) (hs : readerStep s e = some s') :
    run typingStep s.typing (typingSeen s e) = some s'.typing := by
  obtain ⟨input, hinput, rfl⟩ := Option.map_eq_some_iff.mp hs
  cases e with
  | ttyIn ch =>
    obtain rfl := Option.some.inj hinput
    dsimp only
    rw [Reader.typing_key h hok]
    rfl
  | call t size =>
    cases hpc : s.input.pc () with
    | idle =>
      have hnone : typingStep s.typing (.call size) =
          some { s.typing with reading := readsOn size [] } := by
        simp only [Reader.typing, hpc]
        rfl
      rw [typingSeen, run_cons, hnone]
      simp only [ttyInStep, hpc] at hinput
      split at hinput
      next hneg =>
        obtain rfl := Option.some.inj hinput
        have hreads : readsOn size [] = none := if_neg (by simp; omega)
        simp only [Reader.typing, hpc, hreads]
        rfl
      next hpos =>
        obtain rfl := Option.some.inj hinput
        simp only [Reader.typing, Reader.screen, Function.update_self, hpc]
        rfl
    | _ => simp [ttyInStep, hpc] at hinput
  | step t junk =>
    cases hpc : s.input.pc () with
    | idle => simp [ttyInStep, hpc] at hinput
    | start size kept =>
      simp only [typingSeen, hpc, run_nil]
      rw [Reader.typing_start hpc hinput]
    | waiting size kept => simp [ttyInStep, hpc] at hinput
    | get size kept =>
      simp only [typingSeen, hpc, run_cons, run_nil]
      rw [Reader.typing_get h hpc hinput]
      rfl
    | char ch size kept =>
      simp only [typingSeen, hpc, run_nil]
      rw [Reader.typing_char h hpc hinput]
    | echo ch size kept =>
      simp only [typingSeen, hpc, run_nil]
      rw [Reader.typing_echo hpc hinput]

end Steps

/-- A run of the reader, with keys between its steps, comes to a run of `Typing`
with the same keys and calls, while no key finds the buffer full and a permit in
the hand of the reader. -/
theorem reader_run_typing {ibuf : Nat → UInt8} {c : Console} (hc : c.inputLen = 0)
    {es : List (TtyInEvent Unit)} {s : Reader}
    (hok : Along readerStep (fun s e => InputOk s.input e) (Reader.opened ibuf c) es)
    (hrun : run readerStep (Reader.opened ibuf c) es = some s) :
    run typingStep (Typing.opened c) (traceOf readerStep typingSeen (Reader.opened ibuf c) es) =
      some s.typing := by
  obtain ⟨hbase, hmatched⟩ := ttyInBase_init (τ := Unit) ibuf
  have hstart : (Reader.opened ibuf c).typing = Typing.opened c := by
    have hqueue := (ttyFifoInit_ok ibuf (show 0 < ttyIbufSize by decide)).2
    have hscreen : (Reader.opened ibuf c).screen = c := by
      rw [Reader.screen, show (Reader.opened ibuf c).input.inputLen = c.inputLen from hc.symm]
      rfl
    rw [Reader.typing, hscreen]
    exact congrArg (fun queue => (⟨c, queue, none, 0⟩ : Typing)) hqueue
  rw [← hstart]
  exact (run_traceOf (fun s e s' h hok hs => ⟨readerStep_ok h hok hs, readerStep_typing h hok hs⟩)
    ⟨hbase, hmatched, rfl⟩ hok hrun).2

/-- `a`, `b` and `c` are typed while the reader waits, holds its permit and has
`a` in its hand. -/
example : (run readerStep (Reader.opened (fun _ => 0) (Console.zero.init 0 0))
    [.call () 8, .step () 0, .ttyIn 97, .ttyIn 98, .step () 0, .ttyIn 99, .step () 0,
      .step () 0]).map (fun s => (s.typing.queue, s.typing.reading)) =
    some ([98, 99], some (8, [97])) := by decide

/-- So the counter is the number of characters on the line when each of them
keeps it right. -/
theorem reader_counts {ibuf : Nat → UInt8} {c : Console} (hc : c.inputLen = 0)
    {es : List (TtyInEvent Unit)} {s : Reader}
    (hok : Along readerStep (fun s e => InputOk s.input e) (Reader.opened ibuf c) es)
    (hcounts : Along typingStep CountOk (Typing.opened c)
      (traceOf readerStep typingSeen (Reader.opened ibuf c) es))
    (hrun : run readerStep (Reader.opened ibuf c) es = some s) : s.typing.Counts := by
  have hstep : ∀ r e r', Typing.Ok r ∧ r.Counts → CountOk r e → typingStep r e = some r' →
      r'.Ok ∧ r'.Counts := by
    rintro r e r' ⟨hr, hcount⟩ he hs
    obtain ⟨hr', hiff⟩ := typingStep_counts hr hcount hs
    exact ⟨hr', hiff.mpr he⟩
  exact (run_invariant_along hstep ⟨Typing.opened_ok hc, hc⟩ hcounts
    (reader_run_typing hc hok hrun)).2

/-! ## Recalled commands -/

/-- `show_his_cmd`, with `tty_in` for each character. -/
def Reader.showHisCmd (s : Reader) (cmd : Nat → UInt8) : Reader :=
  let erased := s.shows (s.screen.eraseBackword s.screen.inputLen)
  { erased with input := (hisChars cmd cliInputSize).foldl ttyIn erased.input }

/-- The reader has taken a character that is not on the screen yet. -/
def ReadPc.midRound : ReadPc → Bool
  | .char _ _ _ => true
  | .echo _ _ _ => true
  | _ => false

section Recalled

variable {s : Reader} {cmd : Nat → UInt8}

/-- Keys, one after the other. -/
theorem Reader.typing_keys (chars : List UInt8) : ∀ {s : Reader}, s.Ok →
    Along readerStep (fun s e => InputOk s.input e) s (chars.map .ttyIn) →
      Reader.typing { s with input := chars.foldl ttyIn s.input } =
        { s.typing with queue := chars.foldl typeIn s.typing.queue } := by
  induction chars with
  | nil => exact fun _ _ => rfl
  | cons ch chars ih =>
    intro s h hkeys
    obtain ⟨hfirst, hrest⟩ := along_cons.mp hkeys
    have hstep : readerStep s (.ttyIn ch) = some { s with input := ttyIn s.input ch } := rfl
    have hlater := ih (readerStep_ok h hfirst hstep) (hrest _ hstep)
    rw [Reader.typing_key h hfirst] at hlater
    exact hlater

/-- What the switch keeps, and whether it goes on, is not up to the counter. -/
theorem readSwitch_counter (iflags : Nat) (size : Int) (kept : List UInt8) (m n : Int)
    (ch : UInt8) :
    (readSwitch iflags size kept m ch).1 = (readSwitch iflags size kept n ch).1 ∧
      (readSwitch iflags size kept m ch).2.2 = (readSwitch iflags size kept n ch).2.2 := by
  unfold readSwitch
  split
  · split <;> exact ⟨rfl, rfl⟩
  · split <;> exact ⟨rfl, rfl⟩

/-- What the reader comes to has kept does not depend on the console. -/
theorem comesTo_reading (c c' : Console) (queue queue' : List UInt8) (n : Nat) (p : ReadPc) :
    (comesTo c queue n p).reading = (comesTo c' queue' n p).reading := by
  cases p with
  | char ch size kept =>
    obtain ⟨hkept, hgoes⟩ :=
      readSwitch_counter echoFlags size kept c.inputLen c'.inputLen ch
    simp only [comesTo, takeChar, hkept, hgoes]
  | _ => rfl

/-- Without such a character the console is the one that is shown. -/
theorem comesTo_console {p : ReadPc} (hp : p.midRound = false) (c c' : Console)
    (queue : List UInt8) (n : Nat) :
    comesTo c' queue n p = { comesTo c queue n p with console := c' } ∧
      (comesTo c queue n p).console = c := by
  cases p with
  | char ch size kept => cases hp
  | echo ch size kept => cases hp
  | _ => exact ⟨rfl, rfl⟩

/-- A recalled command is typed, wherever the reader is. Where no character is on
its way to the screen, what was there before is erased as `Typing` has it. -/
theorem Reader.showHisCmd_typing (h : s.Ok)
    (hkeys : Along readerStep (fun s e => InputOk s.input e)
      (s.shows (s.screen.eraseBackword s.screen.inputLen))
      ((hisChars cmd cliInputSize).map .ttyIn)) :
    (s.showHisCmd cmd).typing.queue = (Wjos.showHisCmd s.typing cmd).queue ∧
      (s.showHisCmd cmd).typing.reading = (Wjos.showHisCmd s.typing cmd).reading ∧
        ((s.input.pc ()).midRound = false →
          (s.showHisCmd cmd).typing = Wjos.showHisCmd s.typing cmd) := by
  have herased := Reader.typing_keys (hisChars cmd cliInputSize)
    (h.shows (s.screen.eraseBackword s.screen.inputLen)) hkeys
  have htyping : (s.showHisCmd cmd).typing = _ := herased
  have hqueue : ∀ console, (s.shows console).typing.queue = s.typing.queue := by
    intro console
    rw [Reader.typing, Reader.typing, comesTo_queue _ s.input.ififo.contents,
      comesTo_queue s.screen s.input.ififo.contents]
    rfl
  have hreading : ∀ console, (s.shows console).typing.reading = s.typing.reading :=
    fun console => comesTo_reading ..
  rw [htyping]
  refine ⟨?_, hreading _, fun hpc => ?_⟩
  · dsimp only [Wjos.showHisCmd]
    rw [hqueue]
  · rw [hqueue]
    have hscreen := (comesTo_console hpc s.screen s.screen s.input.ififo.contents s.lineLen).2
    have hshows := (comesTo_console hpc s.screen (s.screen.eraseBackword s.screen.inputLen)
      s.input.ififo.contents s.lineLen).1
    have herase : (s.shows (s.screen.eraseBackword s.screen.inputLen)).typing =
        { s.typing with console := s.typing.console.eraseBackword s.typing.console.inputLen } := by
      rw [show s.typing.console = s.screen from hscreen]
      exact hshows
    rw [herase]
    rfl

end Recalled

end Wjos
