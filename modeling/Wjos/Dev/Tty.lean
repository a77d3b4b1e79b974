/-
Wjos.Dev.Tty — the terminals of `dev/tty.c`: the ring buffers, output through
`tty_write` and `console_write`, and input through `tty_in` and `tty_read`.

Translation notes. Each system call is cut into its atomic steps, at the
operations on semaphores, mutexes and buffers, and every task has a program
counter (`WritePc`, `ReadPc`); an event lets one task take its next step, so a
run is any interleaving. A task in a wait list takes no step; the operation
that hands it a permit or the mutex moves its counter on. `tty_in` runs in the
keyboard interrupt and is one step. The fields that only record what has
happened stand last in each state. The device table, `get_tty` and the choice
of the current terminal are left out: there is one opened terminal.
-/
import Wjos.Dev.Console
import Wjos.Lib.Ring
import Wjos.Lib.Sync

namespace Wjos

open Lib

def ttyObufSize : Nat := 512
def ttyIbufSize : Nat := 512
def ttyOcrlf : Nat := 1
def ttyInclr : Nat := 1
def ttyIecho : Nat := 2

/-! ## The ring buffer -/

/-- `tty_fifo_t`. -/
structure TtyFifo where
  buf : Nat → UInt8
  size : Nat
  read : Nat
  write : Nat
  count : Nat

def ttyFifoInit (buf : Nat → UInt8) (size : Nat) : TtyFifo where
  buf := buf
  size := size
  read := 0
  write := 0
  count := 0

/-- `tty_fifo_put`; `none` is the answer -1. -/
def ttyFifoPut (fifo : TtyFifo) (c : UInt8) : Option TtyFifo :=
  if fifo.count ≥ fifo.size then none
  else
    some { fifo with
      buf := Function.update fifo.buf fifo.write c
      write := if fifo.write + 1 ≥ fifo.size then 0 else fifo.write + 1
      count := fifo.count + 1 }

/-- `tty_fifo_get`; `none` is the answer -1. -/
def ttyFifoGet (fifo : TtyFifo) : Option (TtyFifo × UInt8) :=
  if fifo.count ≤ 0 then none
  else
    some ({ fifo with
      read := if fifo.read + 1 ≥ fifo.size then 0 else fifo.read + 1
      count := fifo.count - 1 }, fifo.buf fifo.read)

/-- The characters in the buffer, oldest first. -/
def TtyFifo.contents (fifo : TtyFifo) : List UInt8 :=
  (List.range fifo.count).map fun i => fifo.buf (ringIndex fifo.size (fifo.read + i))

/-- The buffer is in order. -/
def TtyFifo.Ok (fifo : TtyFifo) : Prop :=
  RingHolds fifo.size fifo.buf fifo.read fifo.write fifo.count fifo.contents

theorem TtyFifo.length_contents (fifo : TtyFifo) : fifo.contents.length = fifo.count := by
  simp [contents]

/-- What lies in the buffer is its contents. -/
theorem contents_eq (fifo : TtyFifo) {q : List UInt8}
    (h : RingHolds fifo.size fifo.buf fifo.read fifo.write fifo.count q) :
    fifo.Ok ∧ fifo.contents = q := by
  have hq : fifo.contents = q := by
    refine List.ext_getElem (by rw [fifo.length_contents, h.count_eq]) fun i hi hi' => ?_
    simp only [TtyFifo.contents, List.getElem_map, List.getElem_range]
    exact h.cell i hi'
  exact ⟨by rw [TtyFifo.Ok, hq]; exact h, hq⟩

theorem ttyFifoInit_ok (buf : Nat → UInt8) {size : Nat} (hs : 0 < size) :
    (ttyFifoInit buf size).Ok ∧ (ttyFifoInit buf size).contents = [] :=
  contents_eq _ (RingHolds.empty hs buf)

/-- A put appends, unless the buffer is full. -/
theorem ttyFifoPut_ok {fifo : TtyFifo} (h : fifo.Ok) (hc : fifo.count < fifo.size) (c : UInt8) :
    ∃ f, ttyFifoPut fifo c = some f ∧ f.Ok ∧ f.contents = fifo.contents ++ [c] ∧
      f.size = fifo.size ∧ f.count = fifo.count + 1 := by
  obtain ⟨hok, hq⟩ := contents_eq { fifo with
    buf := Function.update fifo.buf fifo.write c
    write := if fifo.write + 1 ≥ fifo.size then 0 else fifo.write + 1
    count := fifo.count + 1 } (RingHolds.put h hc c)
  exact ⟨_, if_neg (Nat.not_le.mpr hc), hok, hq, rfl, rfl⟩

theorem ttyFifoPut_full {fifo : TtyFifo} (hc : fifo.size ≤ fifo.count) (c : UInt8) :
    ttyFifoPut fifo c = none := if_pos hc

/-- A get takes the oldest character, unless the buffer is empty. -/
theorem ttyFifoGet_ok {fifo : TtyFifo} {c : UInt8} {q : List UInt8} (h : fifo.Ok)
    (hq : fifo.contents = c :: q) :
    ∃ f, ttyFifoGet fifo = some (f, c) ∧ f.Ok ∧ f.contents = q ∧ f.size = fifo.size ∧
      f.count + 1 = fifo.count := by
  have hlen := fifo.length_contents
  rw [TtyFifo.Ok, hq] at h
  rw [hq, List.length_cons] at hlen
  obtain ⟨hc, hget⟩ := h.get
  obtain ⟨hok, hrest⟩ := contents_eq { fifo with
    read := if fifo.read + 1 ≥ fifo.size then 0 else fifo.read + 1
    count := fifo.count - 1 } hget
  refine ⟨_, ?_, hok, hrest, rfl, ?_⟩
  · rw [ttyFifoGet, if_neg (by omega), hc]
  · dsimp only
    omega

theorem ttyFifoGet_empty {fifo : TtyFifo} (hq : fifo.contents = []) : ttyFifoGet fifo = none := by
  have hlen := fifo.length_contents
  rw [hq, List.length_nil] at hlen
  rw [ttyFifoGet, if_pos (by omega)]

/-! ## Output -/

/-- Where a task is in `tty_write`; `buf` is what it has still to write, and
`cr` says that the character to put is the `\r` before `c`. -/
inductive WritePc where
  | idle
  /-- At the head of the loop. -/
  | start (buf : List UInt8)
  /-- Before `sem_wait`. -/
  | wait (cr : Bool) (c : UInt8) (buf : List UInt8)
  /-- In the wait list of `osem`. -/
  | waiting (cr : Bool) (c : UInt8) (buf : List UInt8)
  /-- After `sem_wait`, before `tty_fifo_put`. -/
  | put (cr : Bool) (c : UInt8) (buf : List UInt8)
  /-- In `console_write`, before `mutex_lock`. -/
  | lock (buf : List UInt8)
  /-- In the wait list of the mutex. -/
  | locking (buf : List UInt8)
  /-- At the head of the loop of `console_write`. -/
  | get (buf : List UInt8)
  /-- Before `sem_notify`, with a character. -/
  | notify (ch : UInt8) (buf : List UInt8)
  /-- Before the switch on `write_state`. -/
  | process (ch : UInt8) (buf : List UInt8)
  /-- Before `mutex_unlock`. -/
  | unlock (buf : List UInt8)

/-- A waiter that is handed what it waits for. -/
def WritePc.granted : WritePc → WritePc
  | .waiting cr c buf => .put cr c buf
  | .locking buf => .get buf
  | pc => pc

/-- An opened terminal with its console and the tasks that write to it. -/
structure TtyOut (τ : Type*) where
  oflags : Nat
  ofifo : TtyFifo
  osem : Semaphore τ
  mutex : Lock τ
  console : Console
  pc : τ → WritePc
  written : τ → List UInt8
  puts : List (τ × UInt8)
  gets : List UInt8
  processed : List UInt8

/-- After `tty_open`. -/
def ttyOutInit {τ : Type*} (obuf : Nat → UInt8) (console : Console) : TtyOut τ where
  oflags := ttyOcrlf
  ofifo := ttyFifoInit obuf ttyObufSize
  osem := ⟨ttyObufSize, []⟩
  mutex := Lock.free
  console := console
  pc := fun _ => .idle
  written := fun _ => []
  puts := []
  gets := []
  processed := []

inductive TtyOutEvent (τ : Type*) where
  /-- Task `t` calls `tty_write`, or echoes a character. -/
  | call (t : τ) (buf : List UInt8)
  | step (t : τ)

section Output

variable {τ : Type*} [DecidableEq τ]

/-- The task that an operation wakes goes on. -/
def wake (pc : τ → WritePc) : Option τ → τ → WritePc
  | none => pc
  | some u => Function.update pc u (pc u).granted

/-- A `\n` gets a `\r` before it. -/
def expands (oflags : Nat) (c : UInt8) : Bool := c = 10 && oflags &&& ttyOcrlf ≠ 0

def ttyOutStep (s : TtyOut τ) : TtyOutEvent τ → Option (TtyOut τ)
  | .call t buf =>
    match s.pc t with
    | .idle =>
      some { s with
        pc := Function.update s.pc t (.start buf)
        written := Function.update s.written t (s.written t ++ buf) }
    | _ => none
  | .step t =>
    match s.pc t with
    | .idle => none
    | .start [] => some { s with pc := Function.update s.pc t .idle }
    | .start (c :: buf) =>
      some { s with pc := Function.update s.pc t (.wait (expands s.oflags c) c buf) }
    | .wait cr c buf =>
      let (osem, ok) := s.osem.wait t
      some { s with
        osem := osem
        pc := Function.update s.pc t (if ok then .put cr c buf else .waiting cr c buf) }
    | .waiting _ _ _ => none
    | .put cr c buf =>
      let ch := if cr then 13 else c
      match ttyFifoPut s.ofifo ch with
      | none => some { s with pc := Function.update s.pc t .idle }
      | some ofifo =>
        some { s with
          ofifo := ofifo
          puts := s.puts ++ [(t, ch)]
          pc := Function.update s.pc t (if cr then .wait false c buf else .lock buf) }
    | .lock buf =>
      let (mutex, ok) := s.mutex.lock t
      some { s with
        mutex := mutex
        pc := Function.update s.pc t (if ok then .get buf else .locking buf) }
    | .locking _ => none
    | .get buf =>
      match ttyFifoGet s.ofifo with
      | none => some { s with pc := Function.update s.pc t (.unlock buf) }
      | some (ofifo, ch) =>
        some { s with
          ofifo := ofifo
          gets := s.gets ++ [ch]
          pc := Function.update s.pc t (.notify ch buf) }
    | .notify ch buf =>
      let (osem, woken) := s.osem.notify
      some { s with
        osem := osem
        pc := wake (Function.update s.pc t (.process ch buf)) woken }
    | .process ch buf =>
      some { s with
        console := s.console.write ch
        processed := s.processed ++ [ch]
        pc := Function.update s.pc t (.get buf) }
    | .unlock buf =>
      let (mutex, woken) := s.mutex.unlock t
      some { s with
        mutex := mutex
        pc := wake (Function.update s.pc t (.start buf)) woken }

end Output

/-! ## Input -/

/-- Where a task is in `tty_read`, with the size it was given and what it has
stored so far. -/
inductive ReadPc where
  | idle
  /-- At the head of the loop. -/
  | start (size : Int) (kept : List UInt8)
  /-- In the wait list of `isem`. -/
  | waiting (size : Int) (kept : List UInt8)
  /-- After `sem_wait`, before `tty_fifo_get`. -/
  | get (size : Int) (kept : List UInt8)
  /-- Before the switch on `ch`. -/
  | char (ch : UInt8) (size : Int) (kept : List UInt8)
  /-- At the echo of `ch` and the test for the end of the line. -/
  | echo (ch : UInt8) (size : Int) (kept : List UInt8)

def ReadPc.granted : ReadPc → ReadPc
  | .waiting size kept => .get size kept
  | pc => pc

/-- An opened terminal and the tasks that read from it. -/
structure TtyIn (τ : Type*) where
  iflags : Nat
  ififo : TtyFifo
  isem : Semaphore τ
  inputLen : Int
  pc : τ → ReadPc
  accepted : List UInt8
  delivered : List UInt8

/-- After `tty_open`. -/
def ttyInInit {τ : Type*} (ibuf : Nat → UInt8) : TtyIn τ where
  iflags := ttyInclr ||| ttyIecho
  ififo := ttyFifoInit ibuf ttyIbufSize
  isem := ⟨0, []⟩
  inputLen := 0
  pc := fun _ => .idle
  accepted := []
  delivered := []

inductive TtyInEvent (τ : Type*) where
  /-- A key, or a character of a recalled command. -/
  | ttyIn (ch : UInt8)
  /-- Task `t` calls `tty_read`. -/
  | call (t : τ) (size : Int)
  /-- The next step of task `t`; `junk` is what an uninitialised `ch` holds. -/
  | step (t : τ) (junk : UInt8)

/-- What the switch of `tty_read` does with a character: the characters kept,
the change of `input_len`, and whether it goes on to the echo. -/
def readSwitch (iflags : Nat) (size : Int) (kept : List UInt8) (inputLen : Int) (ch : UInt8) :
    List UInt8 × Int × Bool :=
  if ch = 0x7f then
    if kept.length = 0 then (kept, inputLen, false)
    else (kept.dropLast, cInt (inputLen - 1), true)
  else if ch = 10 then
    let kept := if iflags ≠ 0 ∧ (kept.length : Int) < size - 1 then kept ++ [13] else kept
    (kept ++ [10], 0, true)
  else (kept ++ [ch], cInt (inputLen + 1), true)

section Input

variable {τ : Type*} [DecidableEq τ]

/-- The task that an operation wakes goes on. -/
def wakeReader (pc : τ → ReadPc) : Option τ → τ → ReadPc
  | none => pc
  | some u => Function.update pc u (pc u).granted

/-- `tty_in`; the answer of `tty_fifo_put` is not looked at. -/
def ttyIn (s : TtyIn τ) (ch : UInt8) : TtyIn τ :=
  if s.isem.count ≥ ttyIbufSize then s
  else
    let ififo := (ttyFifoPut s.ififo ch).getD s.ififo
    let (isem, woken) := s.isem.notify
    { s with
      ififo := ififo
      isem := isem
      pc := wakeReader s.pc woken
      accepted := s.accepted ++ [ch] }

def ttyInStep (s : TtyIn τ) : TtyInEvent τ → Option (TtyIn τ)
  | .ttyIn ch => some (ttyIn s ch)
  | .call t size =>
    match s.pc t with
    | .idle =>
      if size < 0 then some s else some { s with pc := Function.update s.pc t (.start size []) }
    | _ => none
  | .step t junk =>
    match s.pc t with
    | .idle => none
    | .start size kept =>
      if (kept.length : Int) < size then
        let (isem, ok) := s.isem.wait t
        some { s with
          isem := isem
          pc := Function.update s.pc t (if ok then .get size kept else .waiting size kept) }
      else some { s with pc := Function.update s.pc t .idle }
    | .waiting _ _ => none
    | .get size kept =>
      match ttyFifoGet s.ififo with
      | none => some { s with pc := Function.update s.pc t (.char junk size kept) }
      | some (ififo, ch) =>
        some { s with
          ififo := ififo
          delivered := s.delivered ++ [ch]
          pc := Function.update s.pc t (.char ch size kept) }
    | .char ch size kept =>
      let (kept, inputLen, goesOn) := readSwitch s.iflags size kept s.inputLen ch
      some { s with
        inputLen := inputLen
        pc := Function.update s.pc t (if goesOn then .echo ch size kept else .start size kept) }
    | .echo ch size kept =>
      some { s with
        pc := Function.update s.pc t (if ch = 10 ∨ ch = 13 then .idle else .start size kept) }

end Input

end Wjos
