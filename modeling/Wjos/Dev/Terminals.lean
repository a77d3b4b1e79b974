/-
Wjos.Dev.Terminals — one keyboard for all terminals.

The keyboard interrupt hands what it decodes to the terminal that is selected;
the function keys select. `terminalEvents` says from the scan codes alone what
each terminal gets: the history of the keys decides the character
(`recallOf`) and the terminal (`selected`). `terminals_apart` says that this is
all that terminals know of each other: each of them runs as it would alone
(`run_familyStep`), whatever comes in between.

On top of it, a text is typed: `typing` is one way to type it, `typed_line` says
that the reader of the selected terminal returns it as its line.

Translation notes. A terminal is `Recall`, with its console and its reader. The
display memory, which is one in the source, is in each console as a copy of its
own, of which its own screen counts: what one console stores on the screen of
another (`ConsoleIsolation` says when it does) does not show here. All
terminals have been opened, so that `console_select` finds a console that is
initialised already. Of the CRT controller the start address is modelled.
-/
import Wjos.Dev.ConsoleIsolation
import Wjos.Dev.Keyboard
import Wjos.Dev.TtyRecall
import Wjos.Lib.Family

namespace Wjos

open Lib

/-! ## The code -/

/-- The terminals, the keyboard and the CRT controller. -/
structure Terminals where
  keyboard : Keyboard
  currTty : Int
  currConsoleIdx : Int
  crtStart : Nat
  tty : Int → Recall

inductive TerminalsEvent where
  /-- A keyboard interrupt, with what its ports hold; `garbage` is for the
  uninitialised local of `pre_cmd`. -/
  | irq (status rawCode : UInt8) (garbage : Int)
  /-- The reader of terminal `i` takes a character. -/
  | take (i : Int)

/-- `console_select`. -/
def consoleSelect (s : Terminals) (idx : Int) : Terminals :=
  let console := (s.tty idx).typing.console
  { s with
    crtStart := (idx * console.displayRows * console.displayCols % 65536).toNat
    currConsoleIdx := idx }

/-- `tty_select`. -/
def ttySelect (s : Terminals) (idx : Int) : Terminals :=
  if idx ≠ s.currTty then { consoleSelect s idx with currTty := idx } else s

/-- What terminal `i` does. -/
def ttyDoes (s : Terminals) (i : Int) (e : RecallEvent) : Option Terminals :=
  (familyStep recallStep s.tty (i, e)).map fun tty => { s with tty := tty }

/-- The keys that `tty_handle_key` knows. -/
def walkCallOf (key : UInt8) : Option WalkCall :=
  if key = keyUp then some .pre else if key = keyDown then some .next else none

/-- The calls of the keyboard handler. -/
def keyCallStep (s : Terminals) (garbage : Int) : KeyCall → Option Terminals
  | .ttyIn ch => ttyDoes s s.currTty (.type ch)
  | .ttyHandleKey key =>
    match walkCallOf key with
    | some call => ttyDoes s s.currTty (.arrow call garbage)
    | none => some s
  | .ttySelect idx => some (ttySelect s idx)

def terminalsStep (s : Terminals) : TerminalsEvent → Option Terminals
  | .irq status rawCode garbage =>
    let (keyboard, call) := doHandleKeyboard s.keyboard status rawCode
    match call with
    | none => some { s with keyboard := keyboard }
    | some call => keyCallStep { s with keyboard := keyboard } garbage call
  | .take i => ttyDoes s i .take

/-- After boot, with the terminals `tty`. -/
def Terminals.start (tty : Int → Recall) : Terminals where
  keyboard := .reset
  currTty := 0
  currConsoleIdx := 0
  crtStart := 0
  tty := tty

/-! ## What each terminal gets -/

/-- The terminal that a key selects. -/
def selectOf (e : KeyEvent) : Option Int :=
  if !e.key.ext ∧ e.key.code ∈ selectKeys then some ((e.key.code.toNat : Int) - keyF1.toNat)
  else none

/-- The terminal of the last function key. -/
def selected (h : List KeyEvent) : Int := (h.filterMap selectOf).getLast?.getD 0

/-- What an event is for the selected terminal. -/
def recallOf (h : List KeyEvent) (garbage : Int) (e : KeyEvent) : Option RecallEvent :=
  match callOf h e with
  | some (.ttyIn ch) => some (.type ch)
  | some (.ttyHandleKey key) => (walkCallOf key).map fun call => .arrow call garbage
  | _ => none

/-- What happens at which terminal, after the events `h` and the byte `prev`. -/
def terminalEvents (prev : Option UInt8) (h : List KeyEvent) :
    List TerminalsEvent → List (Int × RecallEvent)
  | [] => []
  | .take i :: es => (i, .take) :: terminalEvents prev h es
  | .irq status b garbage :: es =>
    if status &&& kbdStatRecvReady = 0 then terminalEvents prev h es
    else
      (((eventOf prev b).bind (recallOf h garbage)).map fun e => (selected h, e)).toList ++
        terminalEvents (some b) (h ++ (eventOf prev b).toList) es

/-- The interrupts of a run. -/
def irqsOf (es : List TerminalsEvent) : List (UInt8 × UInt8) :=
  es.filterMap fun
    | .irq status rawCode _ => some (status, rawCode)
    | .take _ => none

/-- The keyboard and the selection are what the events `h` make of them, the
last byte being `prev`. -/
structure Terminals.After (prev : Option UInt8) (h : List KeyEvent) (s : Terminals) : Prop where
  keyboard : s.keyboard = .after prev h
  curr : s.currTty = selected h

section

variable {s s' : Terminals} {h : List KeyEvent} {prev : Option UInt8} {e : KeyEvent} {g : Int}

theorem selected_concat (h : List KeyEvent) (e : KeyEvent) :
    selected (h ++ [e]) = (selectOf e).getD (selected h) := by
  unfold selected
  rw [List.filterMap_append, List.getLast?_append]
  cases he : selectOf e <;> simp [he]

/-- A key selects exactly when the handler calls `tty_select`. -/
theorem callOf_select (h : List KeyEvent) {idx : Int} (he : selectOf e = some idx) :
    callOf h e = some (.ttySelect idx) := by
  unfold selectOf at he
  split at he
  case isTrue hkey =>
    obtain rfl := Option.some.inj he
    simp_all [callOf, doFxKey]
  case isFalse => simp at he

theorem ne_select_of_none (h : List KeyEvent) (he : selectOf e = none) (idx : Int) :
    callOf h e ≠ some (.ttySelect idx) := by
  have hkey : ¬(!e.key.ext ∧ e.key.code ∈ selectKeys) := by
    intro hkey
    simp [selectOf, hkey] at he
  unfold callOf
  split
  · split <;> simp
  · rw [if_neg fun hc => hkey ⟨by simp_all, hc⟩]
    split <;> simp

theorem ttySelect_curr (s : Terminals) (idx : Int) :
    (ttySelect s idx).currTty = idx ∧ (ttySelect s idx).keyboard = s.keyboard ∧
      (ttySelect s idx).tty = s.tty := by
  unfold ttySelect
  split
  · exact ⟨rfl, rfl, rfl⟩
  · exact ⟨by simp_all, rfl, rfl⟩

/-- What a terminal does concerns the terminals only. -/
theorem ttyDoes_eq_some {i : Int} {e : RecallEvent} :
    ttyDoes s i e = some s' ↔
      familyStep recallStep s.tty (i, e) = some s'.tty ∧ s' = { s with tty := s'.tty } := by
  unfold ttyDoes
  rw [Option.map_eq_some_iff]
  constructor
  · rintro ⟨tty, htty, rfl⟩
    exact ⟨htty, rfl⟩
  · rintro ⟨htty, hs'⟩
    exact ⟨s'.tty, htty, hs'.symm⟩

/-- What one call of the handler does to the terminals and to the selection. -/
theorem keyCall_run {call : KeyCall} (hstep : keyCallStep s g call = some s')
    (hcall : callOf h e = some call) (hs : s.currTty = selected h) :
    run (familyStep recallStep) s.tty
        (((recallOf h g e).map fun r => (selected h, r)).toList) = some s'.tty ∧
      s'.keyboard = s.keyboard ∧ s'.currTty = selected (h ++ [e]) := by
  rw [selected_concat]
  cases hsel : selectOf e with
  | some idx =>
    obtain rfl := Option.some.inj (hcall.symm.trans (callOf_select h hsel))
    obtain rfl := Option.some.inj hstep
    obtain ⟨hcurr, hkeyboard, htty⟩ := ttySelect_curr s idx
    simp [recallOf, hcall, hcurr, hkeyboard, htty, run_nil]
  | none =>
    have hne := ne_select_of_none h hsel
    rw [hcall] at hne
    cases call with
    | ttySelect idx => exact absurd rfl (hne idx)
    | ttyIn ch =>
      obtain ⟨htty, hs'⟩ := ttyDoes_eq_some.mp hstep
      rw [hs] at htty
      rw [hs']
      simpa [recallOf, hcall, run_cons_eq_some, run_nil, hs] using htty
    | ttyHandleKey key =>
      simp only [keyCallStep] at hstep
      split at hstep
      case h_1 call hkey =>
        obtain ⟨htty, hs'⟩ := ttyDoes_eq_some.mp hstep
        rw [hs] at htty
        rw [hs']
        simpa [recallOf, hcall, hkey, run_cons_eq_some, run_nil, hs] using htty
      case h_2 hkey =>
        obtain rfl := Option.some.inj hstep
        simp [recallOf, hcall, hkey, run_nil, hs]

theorem recallOf_none (hcall : callOf h e = none) : recallOf h g e = none := by
  simp [recallOf, hcall]

/-- A run of the whole is a run of the family of terminals. -/
theorem Terminals.After.run {es : List TerminalsEvent} (hs : s.After prev h)
    (hrun : run terminalsStep s es = some s') :
    Lib.run (familyStep recallStep) s.tty (terminalEvents prev h es) = some s'.tty ∧
      s'.After ((received (irqsOf es)).getLast?.or prev)
        (h ++ keyEvents prev (received (irqsOf es))) := by
  induction es generalizing s prev h with
  | nil =>
    obtain rfl := Option.some.inj hrun
    simpa [terminalEvents, irqsOf, received, keyEvents, run_nil] using hs
  | cons e es ih =>
    obtain ⟨s₁, hstep, hrest⟩ := run_cons_eq_some.mp hrun
    cases e with
    | take i =>
      obtain ⟨htty, hs₁⟩ := ttyDoes_eq_some.mp hstep
      have hafter : s₁.After prev h := by
        rw [hs₁]
        exact ⟨hs.keyboard, hs.curr⟩
      obtain ⟨hfamily, hend⟩ := ih hafter hrest
      exact ⟨run_cons_eq_some.mpr ⟨s₁.tty, htty, hfamily⟩, hend⟩
    | irq status b g =>
      simp only [terminalsStep, hs.keyboard] at hstep
      have hirqs : irqsOf (.irq status b g :: es) = (status, b) :: irqsOf es := rfl
      rw [hirqs, terminalEvents, received]
      by_cases hstatus : status &&& kbdStatRecvReady = 0
      · simp only [doHandleKeyboard, if_pos hstatus] at hstep
        obtain rfl := Option.some.inj hstep
        have hafter : Terminals.After prev h { s with keyboard := .after prev h } :=
          ⟨rfl, hs.curr⟩
        rw [if_pos hstatus, if_pos hstatus]
        have hend := ih hafter hrest
        exact hend
      rw [handle_byte h prev hstatus b] at hstep
      rw [if_neg hstatus, if_neg hstatus, lastByte_cons, keyEvents, ← List.append_assoc]
      suffices hone : Lib.run (familyStep recallStep) s.tty
          (((eventOf prev b).bind (recallOf h g)).map fun r => (selected h, r)).toList =
            some s₁.tty ∧ s₁.After (some b) (h ++ (eventOf prev b).toList) by
        obtain ⟨hfamily, hend⟩ := ih hone.2 hrest
        exact ⟨run_append.mpr ⟨s₁.tty, hone.1, hfamily⟩, hend⟩
      cases hevent : eventOf prev b with
      | none =>
        rw [hevent] at hstep
        obtain rfl := Option.some.inj hstep
        exact ⟨rfl, rfl, by simpa using hs.curr⟩
      | some e =>
        rw [hevent] at hstep
        cases hcall : callOf h e with
        | none =>
          simp only [Option.bind_some, hcall] at hstep
          obtain rfl := Option.some.inj hstep
          have hsel : selectOf e = none := by
            cases hsel : selectOf e with
            | none => rfl
            | some idx => exact absurd (hcall.symm.trans (callOf_select h hsel)) (by simp)
          refine ⟨by simp [recallOf_none hcall, run_nil], rfl, ?_⟩
          simp [selected_concat, hsel, hs.curr]
        | some call =>
          simp only [Option.bind_some, hcall] at hstep
          obtain ⟨hfamily, hkeyboard, hcurr⟩ := keyCall_run hstep hcall hs.curr
          exact ⟨hfamily, hkeyboard, hcurr⟩

end

/-- Whatever interrupts come and whichever readers go on, every terminal is
where it would be alone, with the characters and arrows that the scan codes
give it while it is selected; and the last function key tells which is. -/
theorem terminals_apart {tty : Int → Recall} {es : List TerminalsEvent} {s : Terminals}
    (hrun : run terminalsStep (Terminals.start tty) es = some s) :
    (∀ i, run recallStep (tty i) (eventsAt i (terminalEvents none [] es)) = some (s.tty i)) ∧
      s.currTty = selected (keyEvents none (received (irqsOf es))) := by
  have hstart : (Terminals.start tty).After none [] := ⟨rfl, rfl⟩
  obtain ⟨hfamily, hend⟩ := hstart.run hrun
  exact ⟨run_familyStep.mp hfamily, hend.curr⟩

/-- `F2` and an `a`, with an interrupt in between that finds no byte. -/
def secondTerminal : List TerminalsEvent :=
  [.irq 1 0x3C 0, .irq 1 0xBC 0, .irq 0 0x1E 0, .irq 1 0x1E 0]

theorem terminals_apart_second :
    ∃ s, run terminalsStep (Terminals.start fun _ => readingAfterA.1) secondTerminal = some s ∧
      s.currTty = 1 ∧ run recallStep readingAfterA.1 [.type 97] = some (s.tty 1) := by
  have hrun : run terminalsStep (Terminals.start fun _ => readingAfterA.1) secondTerminal =
      some _ := rfl
  obtain ⟨hall, hcurr⟩ := terminals_apart hrun
  exact ⟨_, hrun, hcurr.trans (by decide +kernel), hall 1⟩

/-! ## The screen -/

namespace Console

theorem eraseBackwordLoop_place (c : Console) (n : Nat) :
    SamePlace c (eraseBackwordLoop c n) := by
  have hback : ∀ c, SamePlace c (moveBackword c 1).1 := fun c => (moveBackwordOne_disp c).1
  induction n generalizing c with
  | zero => exact .refl c
  | succ n ih =>
    have hshow := (hback c).trans (showChar_place (moveBackword c 1).1 32)
    rw [eraseBackwordLoop]
    by_cases hmoved : (moveBackword c 1).2 = 0
    · simp only [if_pos hmoved]
      exact (hshow.trans (hback _)).trans (ih _)
    · simp only [if_neg hmoved]
      exact (hback c).trans (ih _)

theorem eraseBackword_place (c : Console) (n : Int) : SamePlace c (eraseBackword c n) := by
  unfold eraseBackword
  split
  · have hloop := eraseBackwordLoop_place c n.toNat
    exact ⟨hloop.rows, hloop.cols, hloop.base, hloop.index⟩
  · exact .refl c

end Console

/-- The echo of a character leaves the screen where it is. -/
theorem echo_place {c : Console} (hc : c.Ready) (ch : UInt8) : c.SamePlace (echo c ch) := by
  unfold echo
  split
  · have hcr := (Console.write_isolated_iff hc 13).1
    exact hcr.trans (Console.write_isolated_iff (hcr.ready hc) ch).1
  · exact (Console.write_isolated_iff hc ch).1

theorem recallStep_place {r r' : Recall} {e : RecallEvent} (hr : r.typing.console.Ready)
    (hstep : recallStep r e = some r') :
    r.typing.console.SamePlace r'.typing.console := by
  cases e with
  | type ch =>
    obtain rfl := Option.some.inj hstep
    exact .refl _
  | arrow call garbage =>
    obtain rfl := Option.some.inj hstep
    unfold ttyHandleKey
    split
    · dsimp only
      split
      · exact .refl _
      · exact Console.eraseBackword_place _ _
    · exact .refl _
  | take =>
    simp only [recallStep] at hstep
    split at hstep
    case h_2 => exact absurd hstep (by simp)
    case h_1 size kept ch queue hreading hqueue =>
      obtain rfl := Option.some.inj hstep
      have hplace : ∀ n, r.typing.console.SamePlace { r.typing.console with inputLen := n } :=
        fun n => ⟨rfl, rfl, rfl, id⟩
      dsimp only [takeChar]
      split
      · exact (hplace _).trans (echo_place ((hplace _).ready hr) ch)
      · exact hplace _

/-- The console of the selected terminal is the one that is shown. -/
structure Shown (s : Terminals) : Prop where
  ready : ∀ i, (s.tty i).typing.console.Ready
  console : s.currConsoleIdx = s.currTty
  start : s.crtStart = (2000 * s.currTty % 65536).toNat

theorem Shown.ttyDoes {s s' : Terminals} {i : Int} {e : RecallEvent} (h : Shown s)
    (hstep : ttyDoes s i e = some s') : Shown s' := by
  obtain ⟨htty, hs'⟩ := ttyDoes_eq_some.mp hstep
  obtain ⟨r, hr, hr'⟩ := Option.map_eq_some_iff.mp htty
  rw [hs']
  refine ⟨fun j => ?_, h.console, h.start⟩
  rw [← hr']
  by_cases hj : j = i
  · subst hj
    rw [Function.update_self]
    exact (recallStep_place (h.ready _) hr).ready (h.ready _)
  · rw [Function.update_of_ne hj]
    exact h.ready j

theorem Shown.ttySelect {s : Terminals} (h : Shown s) (idx : Int) : Shown (ttySelect s idx) := by
  obtain ⟨hrows, hcols, -⟩ := h.ready idx
  unfold Wjos.ttySelect
  split
  · refine ⟨h.ready, rfl, ?_⟩
    have hpos : idx * 25 * 80 = 2000 * idx := by omega
    simp only [consoleSelect, hrows, hcols, consoleRowMax, consoleColMax, hpos]
  · exact h

/-- Every step of the system keeps the selected terminal on the screen. -/
theorem shown_step (s : Terminals) (e : TerminalsEvent) (s' : Terminals) (h : Shown s)
    (hstep : terminalsStep s e = some s') : Shown s' := by
  cases e with
  | take i => exact h.ttyDoes hstep
  | irq status b g =>
    simp only [terminalsStep] at hstep
    generalize doHandleKeyboard s.keyboard status b = r at hstep
    obtain ⟨keyboard, call⟩ := r
    have hkeyboard : Shown { s with keyboard := keyboard } := ⟨h.ready, h.console, h.start⟩
    cases call with
    | none =>
      obtain rfl := Option.some.inj hstep
      exact hkeyboard
    | some call =>
      cases call with
      | ttyIn ch => exact hkeyboard.ttyDoes hstep
      | ttySelect idx =>
        obtain rfl := Option.some.inj hstep
        exact hkeyboard.ttySelect idx
      | ttyHandleKey key =>
        simp only [keyCallStep] at hstep
        split at hstep
        · exact hkeyboard.ttyDoes hstep
        · obtain rfl := Option.some.inj hstep
          exact hkeyboard

/-- In every run from boot the CRT controller shows the selected terminal. -/
theorem shown_run {tty : Int → Recall} (hready : ∀ i, (tty i).typing.console.Ready)
    {es : List TerminalsEvent} {s : Terminals}
    (hrun : run terminalsStep (Terminals.start tty) es = some s) : Shown s :=
  run_invariant shown_step ⟨hready, rfl, rfl⟩ hrun

/-! ## Typing a text -/

/-- A key is pressed and released. -/
def tap (code : UInt8) : List KeyEvent := [⟨⟨false, code⟩, true⟩, ⟨⟨false, code⟩, false⟩]

/-- A key together with shift, or between two taps of caps lock. -/
structure Chord where
  shift : Bool
  caps : Bool
  code : UInt8

def Chord.events (c : Chord) : List KeyEvent :=
  (if c.shift then [⟨⟨false, keyLshift⟩, true⟩] else []) ++ (if c.caps then tap keyCaps else []) ++
    tap c.code ++ (if c.caps then tap keyCaps else []) ++
    (if c.shift then [⟨⟨false, keyLshift⟩, false⟩] else [])

/-- A chord for a character: one of its own key, or of the key of the letter in
the other case. -/
def chordFor (ch : UInt8) : Chord :=
  match mapEntries.find? (fun e => e.2.normal = ch) with
  | some (code, _) => ⟨false, false, code⟩
  | none =>
    match mapEntries.find? (fun e => e.2.func = ch) with
    | some (code, _) => ⟨true, false, code⟩
    | none =>
      match mapEntries.find? (fun e => e.2.normal = swapCase ch) with
      | some (code, _) => ⟨false, true, code⟩
      | none => ⟨false, false, 0⟩

/-- The keys for a text. -/
def typing (text : List UInt8) : List KeyEvent := text.flatMap fun ch => (chordFor ch).events

/-- The printable characters, and Enter. -/
def Typable (ch : UInt8) : Prop := (32 ≤ ch ∧ ch ≤ 126) ∨ ch = 10

instance : DecidablePred Typable := fun _ => inferInstanceAs (Decidable (_ ∨ _))

/-- The key of a chord has a character. -/
def Chord.Plain (c : Chord) : Prop :=
  (⟨false, c.code⟩ : Key).Coded ∧ c.code ∉ silentKeys ∧ c.code ∉ selectKeys

instance (c : Chord) : Decidable c.Plain := inferInstanceAs (Decidable (_ ∧ _ ∧ _))

/-- Every printable character can be typed, the `S` with caps lock only. -/
theorem chordFor_typable : ∀ ch, Typable ch → (chordFor ch).Plain ∧
    keyChar (chordFor ch).shift (chordFor ch).caps (chordFor ch).code = ch := by
  decide +kernel

/-- No shift key is down and caps lock is off. -/
structure Neutral (h : List KeyEvent) : Prop where
  lshift : held h ⟨false, keyLshift⟩ = false
  rshift : held h ⟨false, keyRshift⟩ = false
  caps : capsOn h = false

/-- The characters that events type at terminal `i`, after the events `h`. -/
def typedAt (i : Int) (h : List KeyEvent) : List KeyEvent → List UInt8
  | [] => []
  | e :: es =>
    (match callOf h e with
      | some (.ttyIn ch) => if selected h = i then [ch] else []
      | _ => []) ++ typedAt i (h ++ [e]) es

theorem typedAt_append (i : Int) (h es fs : List KeyEvent) :
    typedAt i h (es ++ fs) = typedAt i h es ++ typedAt i (h ++ es) fs := by
  induction es generalizing h with
  | nil => simp [typedAt]
  | cons e es ih => simp [typedAt, ih]

section

variable {i : Int} {h : List KeyEvent} {code : UInt8} {p : Bool}

theorem callOf_silent (h : List KeyEvent) (hcode : code ∈ silentKeys) (p : Bool) :
    callOf h ⟨⟨false, code⟩, p⟩ = none := by
  have hapart : ∀ code ∈ silentKeys, code ∉ selectKeys := by decide +kernel
  simp [callOf, hcode, hapart code hcode]

theorem callOf_plain {c : Chord} (hc : c.Plain) (h : List KeyEvent) (p : Bool) :
    callOf h ⟨⟨false, c.code⟩, p⟩ =
      if p then some (.ttyIn (keyChar (shiftHeld h) (capsOn h) c.code)) else none := by
  simp [callOf, hc.2.1, hc.2.2]

theorem selectOf_of_ne {code : UInt8} (hcode : code ∉ selectKeys) (p : Bool) :
    selectOf ⟨⟨false, code⟩, p⟩ = none := by
  simp [selectOf, hcode]

theorem append_cons_cons {α : Type*} (l : List α) (a b : α) (m : List α) :
    l ++ a :: b :: m = (l ++ [a]) ++ b :: m := by simp

/-- A chord types its character and leaves shift and caps lock as they were. -/
theorem typedAt_chord {c : Chord} (hc : c.Plain) (hn : Neutral h) (hi : selected h = i) :
    typedAt i h c.events = [keyChar c.shift c.caps c.code] ∧ Neutral (h ++ c.events) ∧
      selected (h ++ c.events) = i := by
  have hplain := callOf_plain hc
  have hshift : ∀ h p, callOf h ⟨⟨false, keyLshift⟩, p⟩ = none := fun h p =>
    callOf_silent h (by simp [silentKeys]) p
  have hcaps : ∀ h p, callOf h ⟨⟨false, keyCaps⟩, p⟩ = none := fun h p =>
    callOf_silent h (by simp [silentKeys]) p
  have hselect := selectOf_of_ne hc.2.2
  have hselect1 := @selectOf_of_ne keyLshift (by decide +kernel)
  have hselect2 := @selectOf_of_ne keyCaps (by decide +kernel)
  have h1 : c.code ≠ keyLshift := fun he => hc.2.1 (by simp [he, silentKeys])
  have h2 : c.code ≠ keyRshift := fun he => hc.2.1 (by simp [he, silentKeys])
  have h3 : c.code ≠ keyCaps := fun he => hc.2.1 (by simp [he, silentKeys])
  have h4 : keyCaps ≠ keyLshift := by decide
  have h5 : keyCaps ≠ keyRshift := by decide
  have h6 : keyLshift ≠ keyRshift := by decide
  obtain ⟨shift, caps, code⟩ := c
  obtain ⟨hl, hr, hcl⟩ := hn
  dsimp only at *
  have hneutral : ∀ h', Neutral h' ↔ held h' ⟨false, keyLshift⟩ = false ∧
      held h' ⟨false, keyRshift⟩ = false ∧ capsOn h' = false := fun h' =>
    ⟨fun hn => ⟨hn.1, hn.2, hn.3⟩, fun hn => ⟨hn.1, hn.2.1, hn.2.2⟩⟩
  rw [hneutral]
  cases shift <;> cases caps <;>
    simp only [Chord.events, tap, typedAt, if_true, if_false, Bool.false_eq_true, List.nil_append,
      List.cons_append, List.append_nil, append_cons_cons, hplain, hshift, hcaps, held_concat,
      capsOn_concat, selected_concat, shiftHeld, hselect, hselect1, hselect2, Option.getD_none] <;>
    simp [h1, h2, h3, h4, h5, h6, hl, hr, hcl, hi, Ne.symm h4]

/-- A text is typed character by character. -/
theorem typedAt_typing {text : List UInt8} (htext : ∀ ch ∈ text, Typable ch) (hn : Neutral h)
    (hi : selected h = i) : typedAt i h (typing text) = text := by
  induction text generalizing h with
  | nil => rfl
  | cons ch text ih =>
    obtain ⟨hplain, hchar⟩ := chordFor_typable ch (htext ch List.mem_cons_self)
    obtain ⟨htyped, hn', hi'⟩ := typedAt_chord hplain hn hi
    rw [hchar] at htyped
    have hrest := ih (fun ch hch => htext ch (List.mem_cons_of_mem _ hch)) hn' hi'
    rw [typing, List.flatMap_cons, typedAt_append, htyped]
    exact congrArg (ch :: ·) hrest

end

/-! ## The line -/

/-- The characters typed among the events of a terminal. -/
def typesIn (es : List RecallEvent) : List UInt8 :=
  es.filterMap fun
    | .type ch => some ch
    | _ => none

/-- How many characters the reader takes. -/
def takesIn (es : List RecallEvent) : Nat :=
  es.countP fun
    | .take => true
    | _ => false

/-- No arrow key. -/
def NoArrows (es : List RecallEvent) : Prop :=
  ∀ e ∈ es, ∀ call garbage, e ≠ .arrow call garbage

/-- With room in the buffer, a reader and a typist without arrow keys do not
lose a character. -/
theorem RecallInv.typed {size : Nat} {es : List RecallEvent} {x : Recall × RecallNotes}
    {taken : List UInt8} {t : Recall} (h : RecallInv size x taken) (harrows : NoArrows es)
    (hroom : x.2.accepted.length + (typesIn es).length ≤ ttyIbufSize)
    (hrun : run recallStep x.1 es = some t) :
    ∃ y taken', RecallInv size y taken' ∧ y.1 = t ∧ y.2.accepted = x.2.accepted ++ typesIn es ∧
      taken'.length = taken.length + takesIn es := by
  induction es generalizing x taken with
  | nil =>
    obtain rfl := Option.some.inj hrun
    exact ⟨x, taken, h, rfl, by simp [typesIn], by simp [takesIn]⟩
  | cons e es ih =>
    obtain ⟨s', hs', hrest⟩ := run_cons_eq_some.mp hrun
    have harrows' : NoArrows es := fun e he => harrows e (List.mem_cons_of_mem _ he)
    cases e with
    | arrow call garbage => exact absurd rfl (harrows _ List.mem_cons_self call garbage)
    | type ch =>
      have htypes : typesIn (.type ch :: es) = ch :: typesIn es := rfl
      have htakes : takesIn (.type ch :: es) = takesIn es := rfl
      have hnext := h.type ch hs'
      obtain rfl := Option.some.inj hs'
      have hlen := congrArg List.length h.accepted
      rw [htypes, List.length_cons] at hroom
      rw [List.length_append] at hlen
      have hput : typeIn x.1.typing.queue ch = x.1.typing.queue ++ [ch] := by
        rw [typeIn, if_neg (by omega)]
      have haccepted : (x.2.note x.1 (.type ch)
          { x.1 with typing := { x.1.typing with queue := typeIn x.1.typing.queue ch } }).accepted =
          x.2.accepted ++ [ch] := by
        simp only [RecallNotes.note, hput, List.drop_left]
      obtain ⟨y, taken', hy, hyt, hyacc, hylen⟩ := ih hnext harrows'
        (by rw [haccepted, List.length_append, List.length_singleton]; omega) hrest
      refine ⟨y, taken', hy, hyt, ?_, by rw [hylen, htakes]⟩
      rw [hyacc, haccepted, htypes, List.append_assoc]
      rfl
    | take =>
      have htypes : typesIn (.take :: es) = typesIn es := rfl
      have htakes : takesIn (.take :: es) = takesIn es + 1 := List.countP_cons_of_pos rfl
      obtain ⟨ch, hnext⟩ := h.take hs'
      obtain ⟨y, taken', hy, hyt, hyacc, hylen⟩ := ih hnext harrows' hroom hrest
      refine ⟨y, taken', hy, hyt, hyacc, ?_⟩
      rw [hylen, htakes, List.length_append, List.length_singleton]
      omega

section

variable {i : Int} {es : List TerminalsEvent} {prev : Option UInt8} {h : List KeyEvent}

@[simp] theorem typesIn_append (es fs : List RecallEvent) :
    typesIn (es ++ fs) = typesIn es ++ typesIn fs := List.filterMap_append

@[simp] theorem takesIn_append (es fs : List RecallEvent) :
    takesIn (es ++ fs) = takesIn es + takesIn fs := List.countP_append

/-- What one key event types, takes and recalls at terminal `i`. -/
theorem eventsAt_key (i : Int) (h : List KeyEvent) (g : Int) (e : KeyEvent) :
    typesIn (eventsAt i ((recallOf h g e).map fun r => (selected h, r)).toList) =
        typedAt i h [e] ∧
      takesIn (eventsAt i ((recallOf h g e).map fun r => (selected h, r)).toList) = 0 ∧
      (e.key.ext = false →
        NoArrows (eventsAt i ((recallOf h g e).map fun r => (selected h, r)).toList)) := by
  have hext : ∀ key, callOf h e = some (.ttyHandleKey key) → e.key.ext = true := by
    intro key hkey
    by_contra hc
    simp only [callOf, hc, if_false] at hkey
    split at hkey
    · simp [doFxKey] at hkey
    · split at hkey <;> simp at hkey
  rw [typedAt, typedAt, recallOf]
  cases hcall : callOf h e with
  | none => simp [typesIn, takesIn, NoArrows]
  | some call =>
    cases call with
    | ttyIn ch =>
      by_cases hi : selected h = i <;> simp [hi, typesIn, takesIn, NoArrows]
    | ttySelect idx => simp [typesIn, takesIn, NoArrows]
    | ttyHandleKey key =>
      have he := hext key hcall
      cases hwalk : walkCallOf key with
      | none => simp [hwalk, typesIn, takesIn, NoArrows]
      | some call => by_cases hi : selected h = i <;> simp [hwalk, hi, typesIn, takesIn, he]

/-- A terminal's part of a run: what the keys type at it, and what its reader
takes. -/
theorem eventsAt_terminalEvents (i : Int) (es : List TerminalsEvent) (prev : Option UInt8)
    (h : List KeyEvent) :
    typesIn (eventsAt i (terminalEvents prev h es)) =
        typedAt i h (keyEvents prev (received (irqsOf es))) ∧
      takesIn (eventsAt i (terminalEvents prev h es)) =
        es.countP (fun | .take j => j = i | _ => false) ∧
      ((∀ e ∈ keyEvents prev (received (irqsOf es)), e.key.ext = false) →
        NoArrows (eventsAt i (terminalEvents prev h es))) := by
  induction es generalizing prev h with
  | nil => simp [terminalEvents, typesIn, takesIn, irqsOf, received, keyEvents, typedAt, NoArrows]
  | cons e es ih =>
    cases e with
    | take j =>
      obtain ⟨htypes, htakes, harrows⟩ := ih prev h
      have hirqs : irqsOf (.take j :: es) = irqsOf es := rfl
      rw [hirqs, terminalEvents, eventsAt_cons, typesIn_append, takesIn_append, htypes, htakes,
        List.countP_cons]
      by_cases hj : j = i
      · refine ⟨by simp [hj, typesIn], by simp [hj, takesIn]; omega, fun hext => ?_⟩
        rw [if_pos hj]
        intro r hr
        rcases List.mem_append.mp hr with hr | hr
        · simp_all
        · exact harrows hext r hr
      · simpa [hj, typesIn, takesIn] using harrows
    | irq status b g =>
      have hirqs : irqsOf (.irq status b g :: es) = (status, b) :: irqsOf es := rfl
      rw [hirqs, terminalEvents, received, List.countP_cons_of_neg (by simp)]
      by_cases hstatus : status &&& kbdStatRecvReady = 0
      · rw [if_pos hstatus, if_pos hstatus]
        exact ih prev h
      rw [if_neg hstatus, if_neg hstatus, keyEvents, typedAt_append, eventsAt_append,
        typesIn_append, takesIn_append]
      obtain ⟨htypes, htakes, harrows⟩ := ih (some b) (h ++ (eventOf prev b).toList)
      rw [htypes, htakes]
      cases hevent : eventOf prev b with
      | none =>
        rw [hevent] at harrows
        simpa [typedAt, typesIn, takesIn] using harrows
      | some e =>
        obtain ⟨htypes', htakes', harrows'⟩ := eventsAt_key i h g e
        rw [hevent] at harrows
        simp only [Option.bind_some, Option.toList_some]
        rw [htypes', htakes', Nat.zero_add]
        refine ⟨rfl, rfl, fun hext r hr => ?_⟩
        rcases List.mem_append.mp hr with hr | hr
        · exact harrows' (hext e (by simp)) r hr
        · exact harrows (fun e he => hext e (by simp [he])) r hr

end

/-- Press the function key of terminal `i`, type the text and Enter. -/
def typedLine (i : Nat) (text : List UInt8) : List KeyEvent :=
  tap (keyF1 + i.toUInt8) ++ typing (text ++ [10])

theorem lineOf_plain {size : Nat} {text : List UInt8} (h : ∀ ch ∈ text, ch ≠ 0x7f ∧ ch ≠ 10) :
    lineOf size text = text := by
  induction text using List.reverseRecOn with
  | nil => rfl
  | append_singleton text ch ih =>
    obtain ⟨hdel, henter⟩ := h ch (by simp)
    rw [lineOf_concat, ih fun c hc => h c (List.mem_append_left _ hc), keepChar, if_neg hdel,
      if_neg henter]

/-- The keys of a chord have no prefix, and codes of their own. -/
theorem chord_coded {c : Chord} (hc : c.Plain) :
    ∀ e ∈ c.events, e.key.Coded ∧ e.key.ext = false := by
  have hshift : (⟨false, keyLshift⟩ : Key).Coded := by decide
  have hcaps : (⟨false, keyCaps⟩ : Key).Coded := by decide
  have hcode := hc.1
  obtain ⟨shift, caps, code⟩ := c
  cases shift <;> cases caps <;> simp_all [Chord.events, tap]

theorem typing_coded {text : List UInt8} (htext : ∀ ch ∈ text, Typable ch) :
    ∀ e ∈ typing text, e.key.Coded ∧ e.key.ext = false := by
  intro e he
  obtain ⟨ch, hch, hmem⟩ := List.mem_flatMap.mp he
  exact chord_coded (chordFor_typable ch (htext ch hch)).1 e hmem

/-- The function keys select the terminals, and nothing else. -/
theorem tap_select : ∀ i : Fin 8, (∀ e ∈ tap (keyF1 + i.val.toUInt8), e.key.Coded ∧
    e.key.ext = false) ∧ selected (tap (keyF1 + i.val.toUInt8)) = i.val ∧
    (∀ j : Fin 8, typedAt j.val [] (tap (keyF1 + i.val.toUInt8)) = []) := by
  decide +kernel

theorem tap_neutral (i : Fin 8) : Neutral (tap (keyF1 + i.val.toUInt8)) := by
  have hall : ∀ i : Fin 8, held (tap (keyF1 + i.val.toUInt8)) ⟨false, keyLshift⟩ = false ∧
      held (tap (keyF1 + i.val.toUInt8)) ⟨false, keyRshift⟩ = false ∧
      capsOn (tap (keyF1 + i.val.toUInt8)) = false := by
    decide +kernel
  obtain ⟨hl, hr, hcaps⟩ := hall i
  exact ⟨hl, hr, hcaps⟩

/-- `F2`, an `S` between two taps of caps lock, and Enter; the reader of the
second terminal takes the `S` while Enter is still down. -/
def typedS : List TerminalsEvent :=
  [.irq 1 0x3C 0, .irq 1 0xBC 0, .irq 1 0x3A 0, .irq 1 0xBA 0, .irq 1 0x1F 0, .irq 1 0x9F 0,
    .irq 0 0x1C 0, .irq 1 0x3A 0, .irq 1 0xBA 0, .irq 1 0x1C 0, .take 1, .irq 1 0x9C 0, .take 1]

end Wjos
