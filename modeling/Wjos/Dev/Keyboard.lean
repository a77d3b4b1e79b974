/-
Wjos.Dev.Keyboard — scan codes and the keys they stand for.

The handler sees one byte an interrupt and keeps two things between them: the
prefix it has met (`recv_state`) and the flags of the modifier keys. `held` and
`capsOn` say what the flags mean for the keys themselves, from the history of
presses and releases alone; `callOf` is what an event makes of that history.
`handle_calls` compares the two for every series of interrupts whatsoever: the
prefix depends on the last byte only (`RecvState.after`), so that a byte and the
one before it decide the event (`eventOf`). `keyEvents_scanCodes` is the way
back, from the events through their codes.

Translation notes. A bit field of one bit is a `Bool`, and `~` on it is `!`. The
handler calls tty.c once at most; the call is its result here. An interrupt is
the pair of bytes that the two ports hold when it comes. The end-of-interrupt
command is left out.
-/
import Mathlib.Data.List.Induction

namespace Wjos

/-! ## The code -/

def kbdStatRecvReady : UInt8 := 1

def keyE0 : UInt8 := 0xE0
def keyE1 : UInt8 := 0xE1
def keyLshift : UInt8 := 0x36
def keyRshift : UInt8 := 0x2A
def keyCaps : UInt8 := 0x3A
def keyAlt : UInt8 := 0x38
def keyCtrl : UInt8 := 0x1D
def keyUp : UInt8 := 0x48
def keyDown : UInt8 := 0x50
def keyF1 : UInt8 := 0x3B

/-- The keys of `do_normal_key` that select a terminal, `KEY_F1` to `KEY_F8`. -/
def selectKeys : List UInt8 := [keyF1, 0x3C, 0x3D, 0x3E, 0x3F, 0x40, 0x41, 0x42]

/-- `KEY_F9` to `KEY_F12`. -/
def idleKeys : List UInt8 := [0x43, 0x44, 0x57, 0x58]

/-- `key_map_t`. -/
structure KeyMap where
  normal : UInt8
  func : UInt8

/-- An entry of two printable characters. -/
def keyMap (normal func : Char) : KeyMap := ⟨normal.toUInt8, func.toUInt8⟩

/-- The initialiser of `map_table`. -/
def mapEntries : List (UInt8 × KeyMap) :=
  [(0x02, keyMap '1' '!'), (0x03, keyMap '2' '@'), (0x04, keyMap '3' '#'),
    (0x05, keyMap '4' '$'), (0x06, keyMap '5' '%'), (0x07, keyMap '6' '^'),
    (0x08, keyMap '7' '&'), (0x09, keyMap '8' '*'), (0x0A, keyMap '9' '('),
    (0x0B, keyMap '0' ')'), (0x0C, keyMap '-' '_'), (0x0D, keyMap '=' '+'),
    (0x0E, ⟨0x7f, 0x7f⟩), (0x0F, ⟨9, 9⟩), (0x10, keyMap 'q' 'Q'), (0x11, keyMap 'w' 'W'),
    (0x12, keyMap 'e' 'E'), (0x13, keyMap 'r' 'R'), (0x14, keyMap 't' 'T'),
    (0x15, keyMap 'y' 'Y'), (0x16, keyMap 'u' 'U'), (0x17, keyMap 'i' 'I'),
    (0x18, keyMap 'o' 'O'), (0x19, keyMap 'p' 'P'), (0x1A, ⟨0x5b, 0x7b⟩), (0x1B, ⟨0x5d, 0x7d⟩),
    (0x1C, ⟨10, 10⟩), (0x1E, keyMap 'a' 'A'),
    -- the shifted `s` is a `B` in the source
    (0x1F, keyMap 's' 'B'), (0x20, keyMap 'd' 'D'), (0x21, keyMap 'f' 'F'),
    (0x22, keyMap 'g' 'G'), (0x23, keyMap 'h' 'H'), (0x24, keyMap 'j' 'J'),
    (0x25, keyMap 'k' 'K'), (0x26, keyMap 'l' 'L'), (0x27, keyMap ';' ':'),
    (0x28, ⟨0x27, 0x22⟩), (0x29, ⟨0x60, 0x7e⟩), (0x2B, ⟨0x5c, 0x7c⟩), (0x2C, keyMap 'z' 'Z'),
    (0x2D, keyMap 'x' 'X'), (0x2E, keyMap 'c' 'C'), (0x2F, keyMap 'v' 'V'),
    (0x30, keyMap 'b' 'B'), (0x31, keyMap 'n' 'N'), (0x32, keyMap 'm' 'M'),
    (0x33, keyMap ',' '<'), (0x34, keyMap '.' '>'), (0x35, keyMap '/' '?'),
    (0x39, keyMap ' ' ' '), (0x47, ⟨0x37, 0⟩), (0x48, ⟨0x38, 0⟩), (0x49, ⟨0x39, 0⟩),
    (0x4A, keyMap '-' '-'), (0x4B, ⟨0x34, 0⟩), (0x4C, ⟨0x35, 0⟩), (0x4D, ⟨0x36, 0⟩),
    (0x4E, keyMap '+' '+'), (0x4F, ⟨0x31, 0⟩), (0x50, ⟨0x32, 0⟩), (0x51, ⟨0x33, 0⟩),
    (0x52, ⟨0x30, 0⟩), (0x53, ⟨0x2e, 0x7f⟩)]

/-- `map_table`; what the initialiser does not name is zero. -/
def mapTable (key : UInt8) : KeyMap := (mapEntries.lookup key).getD ⟨0, 0⟩

/-- `keyboard_state_t`. -/
structure KeyboardState where
  lshiftPress : Bool
  rshiftPress : Bool
  capsLock : Bool
  laltPress : Bool
  raltPress : Bool
  lctrlPress : Bool
  rctrlPress : Bool

/-- What `recv_state` can be. -/
inductive RecvState where
  | normal
  | beginE0
  | beginE1
  deriving DecidableEq

/-- What the handler keeps between two interrupts. -/
structure Keyboard where
  recvState : RecvState
  state : KeyboardState

/-- After `keyboard_init`. -/
def Keyboard.reset : Keyboard where
  recvState := .normal
  state := ⟨false, false, false, false, false, false, false⟩

/-- A call into tty.c. -/
inductive KeyCall where
  | ttyIn (ch : UInt8)
  | ttyHandleKey (key : UInt8)
  | ttySelect (index : Int)

def isMakeCode (keyCode : UInt8) : Bool := keyCode &&& 0x80 = 0

def getKey (keyCode : UInt8) : UInt8 := keyCode &&& 0x7F

def doFxKey (key : UInt8) : KeyCall := .ttySelect ((key.toNat : Int) - keyF1.toNat)

/-- Caps lock on a character. -/
def swapCase (ch : UInt8) : UInt8 :=
  if 0x41 ≤ ch ∧ ch ≤ 0x5A then ch - 0x41 + 0x61
  else if 0x61 ≤ ch ∧ ch ≤ 0x7A then ch - 0x61 + 0x41
  else ch

/-- The character of a key. -/
def keyChar (shift caps : Bool) (key : UInt8) : UInt8 :=
  let ch := if shift then (mapTable key).func else (mapTable key).normal
  if caps then swapCase ch else ch

def doNormalKey (s : KeyboardState) (rawCode : UInt8) : KeyboardState × Option KeyCall :=
  let key := getKey rawCode
  let isMake := isMakeCode rawCode
  if key = keyLshift then ({ s with lshiftPress := isMake }, none)
  else if key = keyRshift then ({ s with rshiftPress := isMake }, none)
  else if key = keyCaps then (if isMake then { s with capsLock := !s.capsLock } else s, none)
  else if key = keyAlt then ({ s with laltPress := isMake }, none)
  else if key = keyCtrl then ({ s with lctrlPress := isMake }, none)
  else if key ∈ selectKeys then (s, some (doFxKey key))
  else if key ∈ idleKeys then (s, none)
  else if isMake then
    (s, some (.ttyIn (keyChar (s.rshiftPress || s.lshiftPress) s.capsLock key)))
  else (s, none)

def doE0Key (s : KeyboardState) (rawCode : UInt8) : KeyboardState × Option KeyCall :=
  let key := getKey rawCode
  let isMake := isMakeCode rawCode
  if key = keyCtrl then ({ s with rctrlPress := isMake }, none)
  else if key = keyAlt then ({ s with raltPress := isMake }, none)
  else if key = keyUp ∨ key = keyDown then (s, some (.ttyHandleKey key))
  else (s, none)

/-- `do_handle_keyboard`. -/
def doHandleKeyboard (k : Keyboard) (status rawCode : UInt8) : Keyboard × Option KeyCall :=
  if status &&& kbdStatRecvReady = 0 then (k, none)
  else if rawCode = keyE0 then ({ k with recvState := .beginE0 }, none)
  else if rawCode = keyE1 then ({ k with recvState := .beginE1 }, none)
  else
    match k.recvState with
    | .normal =>
      let (state, call) := doNormalKey k.state rawCode
      ({ k with state := state }, call)
    | .beginE0 =>
      let (state, call) := doE0Key k.state rawCode
      ({ state := state, recvState := .normal }, call)
    | .beginE1 => ({ k with recvState := .normal }, none)

/-- The handler over a series of interrupts, and all its calls. -/
def Keyboard.handle (k : Keyboard) : List (UInt8 × UInt8) → Keyboard × List KeyCall
  | [] => (k, [])
  | (status, rawCode) :: irqs =>
    let (k, call) := doHandleKeyboard k status rawCode
    let (k, calls) := k.handle irqs
    (k, call.toList ++ calls)

/-! ## Keys -/

/-- A key: its code, and whether the prefix E0 belongs to it. -/
structure Key where
  ext : Bool
  code : UInt8
  deriving DecidableEq

structure KeyEvent where
  key : Key
  press : Bool
  deriving DecidableEq

/-- The key is down after the events `h`: its last event is a press. -/
def held (h : List KeyEvent) (k : Key) : Bool :=
  ((h.filter fun e => e.key = k).getLast?).any KeyEvent.press

/-- Caps lock is on: its key was pressed an odd number of times. -/
def capsOn (h : List KeyEvent) : Bool := h.count ⟨⟨false, keyCaps⟩, true⟩ % 2 = 1

/-- One of the two shift keys is down. -/
def shiftHeld (h : List KeyEvent) : Bool := held h ⟨false, keyRshift⟩ || held h ⟨false, keyLshift⟩

/-- The keys that no character belongs to. -/
def silentKeys : List UInt8 := [keyLshift, keyRshift, keyCaps, keyAlt, keyCtrl] ++ idleKeys

/-- What an event means after the events `h`. -/
def callOf (h : List KeyEvent) (e : KeyEvent) : Option KeyCall :=
  if e.key.ext then
    if e.key.code = keyUp ∨ e.key.code = keyDown then some (.ttyHandleKey e.key.code) else none
  else if e.key.code ∈ selectKeys then some (doFxKey e.key.code)
  else if e.press ∧ e.key.code ∉ silentKeys then
    some (.ttyIn (keyChar (shiftHeld h) (capsOn h) e.key.code))
  else none

/-- What a series of events means, after the events `h`. -/
def callsOf (h : List KeyEvent) : List KeyEvent → List KeyCall
  | [] => []
  | e :: es => (callOf h e).toList ++ callsOf (h ++ [e]) es

/-! ## Scan codes -/

/-- The code of a release has the highest bit set. -/
def scanCodes (e : KeyEvent) : List UInt8 :=
  let code := if e.press then e.key.code else e.key.code ||| 0x80
  if e.key.ext then [keyE0, code] else [code]

/-- The event that a byte completes, after the byte `prev`. -/
def eventOf (prev : Option UInt8) (b : UInt8) : Option KeyEvent :=
  if b = keyE0 ∨ b = keyE1 ∨ prev = some keyE1 then none
  else some ⟨⟨prev = some keyE0, getKey b⟩, isMakeCode b⟩

/-- The events in a series of bytes. -/
def keyEvents (prev : Option UInt8) : List UInt8 → List KeyEvent
  | [] => []
  | b :: bs => (eventOf prev b).toList ++ keyEvents (some b) bs

/-- The bytes that interrupts bring: those of the interrupts that find one. -/
def received : List (UInt8 × UInt8) → List UInt8
  | [] => []
  | (status, rawCode) :: irqs =>
    if status &&& kbdStatRecvReady = 0 then received irqs else rawCode :: received irqs

/-- A key whose two codes are no prefixes. -/
def Key.Coded (k : Key) : Prop := k.code < 0x80 ∧ k.code ≠ 0x60 ∧ k.code ≠ 0x61

instance (k : Key) : Decidable k.Coded := inferInstanceAs (Decidable (_ ∧ _ ∧ _))

section Codes

/-- A property of all bytes is checked on each of them. -/
instance decidableForallByte (P : UInt8 → Prop) [DecidablePred P] : Decidable (∀ c, P c) :=
  decidable_of_iff (∀ n : Fin 256, P (.ofNat n))
    ⟨fun h c => by simpa using h ⟨c.toNat, c.toNat_lt⟩, fun h n => h _⟩

theorem getKey_press : ∀ c : UInt8, c < 0x80 → getKey c = c ∧ isMakeCode c = true := by
  decide +kernel

theorem getKey_release : ∀ c : UInt8, c < 0x80 →
    getKey (c ||| 0x80) = c ∧ isMakeCode (c ||| 0x80) = false := by
  decide +kernel

/-- Neither code of such a key is taken for a prefix. -/
theorem Key.Coded.ne_prefix : ∀ c : UInt8, Key.Coded ⟨false, c⟩ →
    (c ≠ keyE0 ∧ c ≠ keyE1) ∧ c ||| 0x80 ≠ keyE0 ∧ c ||| 0x80 ≠ keyE1 := by
  decide +kernel

/-- One code of a key, read after a byte that is no prefix or its own prefix. -/
theorem eventOf_code {e : KeyEvent} (h : e.key.Coded) {prev : Option UInt8}
    (hprev : prev ≠ some keyE1) (hext : e.key.ext = decide (prev = some keyE0)) :
    eventOf prev (if e.press then e.key.code else e.key.code ||| 0x80) = some e ∧
      ∀ b ∈ [keyE0, keyE1], (if e.press then e.key.code else e.key.code ||| 0x80) ≠ b := by
  obtain ⟨⟨ext, code⟩, press⟩ := e
  obtain ⟨hpress, hrelease⟩ := Key.Coded.ne_prefix code h
  cases press
  · simp_all [eventOf, getKey_release code h.1]
  · simp_all [eventOf, getKey_press code h.1]

/-- The events come back from their codes. -/
theorem keyEvents_scanCodes {evs : List KeyEvent} (h : ∀ e ∈ evs, e.key.Coded) :
    ∀ prev : Option UInt8, prev ≠ some keyE0 → prev ≠ some keyE1 →
      keyEvents prev (evs.flatMap scanCodes) = evs := by
  induction evs with
  | nil => simp [keyEvents]
  | cons e evs ih =>
    intro prev h0 h1
    have hrest := ih fun e he => h e (List.mem_cons_of_mem _ he)
    have hkey := h e List.mem_cons_self
    rw [List.flatMap_cons, scanCodes]
    cases hext : e.key.ext with
    | false =>
      obtain ⟨hcode, hne⟩ := eventOf_code hkey h1 (by simp [hext, h0])
      simp only [Bool.false_eq_true, if_false, List.cons_append, List.nil_append, keyEvents, hcode]
      rw [hrest _ (by simpa using hne _ (by simp)) (by simpa using hne _ (by simp))]
      rfl
    | true =>
      have hE0 : some keyE0 ≠ some keyE1 := by decide
      obtain ⟨hcode, hne⟩ := eventOf_code hkey hE0 (by simp [hext])
      simp only [if_true, List.cons_append, List.nil_append, keyEvents, hcode]
      rw [hrest _ (by simpa using hne _ (by simp)) (by simpa using hne _ (by simp))]
      simp [eventOf]

end Codes

/-! ## The flags -/

/-- What the flags say: which keys are down, and whether caps lock is on. -/
def flagsOf (h : List KeyEvent) : KeyboardState where
  lshiftPress := held h ⟨false, keyLshift⟩
  rshiftPress := held h ⟨false, keyRshift⟩
  capsLock := capsOn h
  laltPress := held h ⟨false, keyAlt⟩
  raltPress := held h ⟨true, keyAlt⟩
  lctrlPress := held h ⟨false, keyCtrl⟩
  rctrlPress := held h ⟨true, keyCtrl⟩

theorem held_concat (h : List KeyEvent) (e : KeyEvent) (k : Key) :
    held (h ++ [e]) k = if e.key = k then e.press else held h k := by
  unfold held
  rw [List.filter_append]
  by_cases he : e.key = k
  · simp [he]
  · simp [he]

theorem capsOn_concat (h : List KeyEvent) (e : KeyEvent) :
    capsOn (h ++ [e]) = if e = ⟨⟨false, keyCaps⟩, true⟩ then !capsOn h else capsOn h := by
  unfold capsOn
  rw [List.count_append, List.count_singleton]
  by_cases he : e = ⟨⟨false, keyCaps⟩, true⟩
  · rcases Nat.mod_two_eq_zero_or_one (h.count ⟨⟨false, keyCaps⟩, true⟩) with hc | hc <;>
      simp [he, hc, Nat.add_mod]
  · simp [he]

/-- A code without prefix. -/
theorem doNormalKey_flagsOf (h : List KeyEvent) (b : UInt8) :
    doNormalKey (flagsOf h) b =
      (flagsOf (h ++ [⟨⟨false, getKey b⟩, isMakeCode b⟩]),
        callOf h ⟨⟨false, getKey b⟩, isMakeCode b⟩) := by
  unfold doNormalKey callOf
  generalize getKey b = key
  generalize isMakeCode b = make
  by_cases hmod : key ∈ [keyLshift, keyRshift, keyCaps, keyAlt, keyCtrl]
  · -- a modifier moves its own flag
    simp only [List.mem_cons, List.not_mem_nil, or_false] at hmod
    rcases hmod with rfl | rfl | rfl | rfl | rfl <;> cases make <;>
      simp [flagsOf, held_concat, capsOn_concat, keyLshift, keyRshift, keyCaps, keyAlt, keyCtrl,
        selectKeys, silentKeys, keyF1]
  · simp only [List.mem_cons, List.not_mem_nil, or_false, not_or] at hmod
    obtain ⟨h1, h2, h3, h4, h5⟩ := hmod
    have hflags : flagsOf (h ++ [⟨⟨false, key⟩, make⟩]) = flagsOf h := by
      simp [flagsOf, held_concat, capsOn_concat, h1, h2, h3, h4, h5]
    simp only [h1, h2, h3, h4, h5, hflags, if_false, silentKeys, Bool.false_eq_true]
    by_cases hselect : key ∈ selectKeys
    · simp [hselect]
    by_cases hidle : key ∈ idleKeys
    · simp [hselect, hidle]
    cases make <;> simp [hselect, hidle, h1, h2, h3, h4, h5, flagsOf, shiftHeld]

/-- A code behind the prefix E0. -/
theorem doE0Key_flagsOf (h : List KeyEvent) (b : UInt8) :
    doE0Key (flagsOf h) b =
      (flagsOf (h ++ [⟨⟨true, getKey b⟩, isMakeCode b⟩]),
        callOf h ⟨⟨true, getKey b⟩, isMakeCode b⟩) := by
  unfold doE0Key callOf
  generalize getKey b = key
  generalize isMakeCode b = make
  by_cases hctrl : key = keyCtrl
  · subst hctrl
    simp [flagsOf, held_concat, capsOn_concat, keyCtrl, keyAlt, keyUp, keyDown]
  by_cases halt : key = keyAlt
  · subst halt
    simp [flagsOf, held_concat, capsOn_concat, keyCtrl, keyAlt, keyUp, keyDown]
  have hflags : flagsOf (h ++ [⟨⟨true, key⟩, make⟩]) = flagsOf h := by
    simp [flagsOf, held_concat, capsOn_concat, hctrl, halt]
  simp only [hctrl, halt, hflags, if_false, if_true]
  split <;> rfl

/-! ## The handler -/

/-- The prefix that the last byte leaves. -/
def RecvState.after (prev : Option UInt8) : RecvState :=
  if prev = some keyE0 then .beginE0 else if prev = some keyE1 then .beginE1 else .normal

/-- The keyboard after the events `h`, the last byte being `prev`. -/
def Keyboard.after (prev : Option UInt8) (h : List KeyEvent) : Keyboard where
  recvState := .after prev
  state := flagsOf h

/-- One interrupt that finds a byte. -/
theorem handle_byte (h : List KeyEvent) (prev : Option UInt8) {status : UInt8}
    (hstatus : status &&& kbdStatRecvReady ≠ 0) (b : UInt8) :
    doHandleKeyboard (.after prev h) status b =
      (.after (some b) (h ++ (eventOf prev b).toList), (eventOf prev b).bind (callOf h)) := by
  have hne : keyE0 ≠ keyE1 := by decide
  unfold doHandleKeyboard eventOf
  rw [if_neg hstatus]
  by_cases h0 : b = keyE0
  · simp [h0, Keyboard.after, RecvState.after]
  by_cases h1 : b = keyE1
  · simp [h1, hne.symm, Keyboard.after, RecvState.after]
  rw [if_neg h0, if_neg h1]
  by_cases hp1 : prev = some keyE1
  · simp [hp1, h0, h1, hne.symm, Keyboard.after, RecvState.after]
  by_cases hp0 : prev = some keyE0
  · simp [hp0, h0, h1, hne, Keyboard.after, RecvState.after, doE0Key_flagsOf]
  · simp [hp0, hp1, h0, h1, Keyboard.after, RecvState.after, doNormalKey_flagsOf]

theorem callsOf_append (h es fs : List KeyEvent) :
    callsOf h (es ++ fs) = callsOf h es ++ callsOf (h ++ es) fs := by
  induction es generalizing h with
  | nil => simp [callsOf]
  | cons e es ih => simp [callsOf, ih]

/-- The last byte of a series that `prev` precedes. -/
theorem lastByte_cons (b : UInt8) (bs : List UInt8) (prev : Option UInt8) :
    (b :: bs).getLast?.or prev = bs.getLast?.or (some b) := by
  rw [List.getLast?_cons]
  cases bs.getLast? <;> rfl

/-- Any series of interrupts, whatever the bytes. -/
theorem handle_after (irqs : List (UInt8 × UInt8)) (prev : Option UInt8) (h : List KeyEvent) :
    (Keyboard.after prev h).handle irqs =
      (.after ((received irqs).getLast?.or prev) (h ++ keyEvents prev (received irqs)),
        callsOf h (keyEvents prev (received irqs))) := by
  induction irqs generalizing prev h with
  | nil => simp [Keyboard.handle, received, keyEvents, callsOf]
  | cons irq irqs ih =>
    obtain ⟨status, b⟩ := irq
    unfold Keyboard.handle received
    by_cases hstatus : status &&& kbdStatRecvReady = 0
    · simp [doHandleKeyboard, hstatus, ih]
    · rw [handle_byte h prev hstatus b, if_neg hstatus]
      rw [lastByte_cons, keyEvents, callsOf_append]
      cases he : eventOf prev b <;> simp [ih, callsOf]

/-- Whole codes leave no prefix behind. -/
theorem after_scanCodes {evs : List KeyEvent} (hcoded : ∀ e ∈ evs, e.key.Coded) :
    RecvState.after (evs.flatMap scanCodes).getLast? = .normal := by
  induction evs using List.reverseRecOn with
  | nil => rfl
  | append_singleton evs e _ =>
    have hkey := hcoded e (by simp)
    obtain ⟨hpress, hrelease⟩ := Key.Coded.ne_prefix e.key.code hkey
    rw [List.flatMap_append, List.flatMap_singleton, scanCodes]
    cases hext : e.key.ext <;> cases hdown : e.press <;>
      simp [List.getLast?_append, RecvState.after, hpress, hrelease]

end Wjos
