/-
Wjos.Dev.TtyFifo — the ring buffer of `dev/tty.c` over whole runs of calls.

A call of `tty_fifo_put` or `tty_fifo_get` runs with interrupts off, so a run
is a list of calls. `FifoCall.apply` is the call on the buffer, `FifoCall.onQueue`
the same call on a queue of at most `size` characters. `TtyFifo.call_refines`
takes one step of both and `TtyFifo.calls_refine` a whole run: the answers are
the same and the buffer holds the queue.
-/
import Wjos.Dev.Tty

namespace Wjos

open Lib

/-- A call on a ring buffer. -/
inductive FifoCall where
  | put (c : UInt8)
  | get
deriving DecidableEq, Repr

/-- What a call returns: -1, or 0 with the character that was got. -/
inductive FifoAnswer where
  | failed
  | put
  | got (c : UInt8)
deriving DecidableEq, Repr

/-- The call on the buffer; one that fails changes nothing. -/
def FifoCall.apply (fifo : TtyFifo) : FifoCall → TtyFifo × FifoAnswer
  | put c =>
    match ttyFifoPut fifo c with
    | none => (fifo, .failed)
    | some f => (f, .put)
  | get =>
    match ttyFifoGet fifo with
    | none => (fifo, .failed)
    | some (f, c) => (f, .got c)

/-- The call on a queue of at most `size` characters. -/
def FifoCall.onQueue (size : Nat) (q : List UInt8) : FifoCall → List UInt8 × FifoAnswer
  | put c => if q.length = size then (q, .failed) else (q ++ [c], .put)
  | get =>
    match q with
    | [] => ([], .failed)
    | c :: q => (q, .got c)

/-- One call after the other, with the answers. -/
def answered {σ : Type*} (f : σ → FifoCall → σ × FifoAnswer) :
    σ → List FifoCall → σ × List FifoAnswer
  | s, [] => (s, [])
  | s, c :: calls =>
    let r := answered f (f s c).1 calls
    (r.1, (f s c).2 :: r.2)

/-- The buffer is in order, has this size and holds the queue `q`. -/
structure TtyFifo.Queues (fifo : TtyFifo) (size : Nat) (q : List UInt8) : Prop where
  ok : fifo.Ok
  size_eq : fifo.size = size
  contents_eq : fifo.contents = q

namespace TtyFifo

variable {fifo : TtyFifo} {size : Nat} {q : List UInt8}

theorem Queues.count_eq (h : fifo.Queues size q) : fifo.count = q.length := by
  rw [← h.contents_eq, fifo.length_contents]

theorem Queues.length_le (h : fifo.Queues size q) : q.length ≤ size := by
  rw [← h.size_eq, ← h.contents_eq]
  exact h.ok.le

theorem Queues.read_lt (h : fifo.Queues size q) : fifo.read < size :=
  h.size_eq ▸ h.ok.read_lt

theorem Queues.write_lt (h : fifo.Queues size q) : fifo.write < size := by
  have hr := h.read_lt
  have hl := h.length_le
  have hw := h.ok.write_eq
  rw [h.contents_eq, h.size_eq, ringIndex] at hw
  split at hw <;> omega

/-- At most one turn is taken off, which is the remainder. -/
theorem Queues.cells (h : fifo.Queues size q) :
    (List.range fifo.count).map (fun i => fifo.buf ((fifo.read + i) % size)) = q := by
  have hr := h.read_lt
  have hl := h.length_le
  rw [← h.contents_eq, TtyFifo.contents, h.size_eq]
  refine List.map_congr_left fun i hi => congrArg fifo.buf ?_
  have hi' : i < q.length := h.count_eq ▸ List.mem_range.mp hi
  rw [ringIndex]
  split
  · rw [Nat.mod_eq_of_lt (by omega)]
  · rw [Nat.mod_eq_sub_mod (by omega), Nat.mod_eq_of_lt (by omega)]

theorem Queues.put_none_iff (h : fifo.Queues size q) (c : UInt8) :
    ttyFifoPut fifo c = none ↔ fifo.count = size := by
  have hl := h.length_le
  have hc := h.count_eq
  rw [ttyFifoPut, h.size_eq]
  constructor
  · intro hput
    split at hput
    · omega
    · exact absurd hput (Option.some_ne_none _)
  · intro hcount
    rw [if_pos (by omega)]

theorem get_none_iff : ttyFifoGet fifo = none ↔ fifo.count = 0 := by
  rw [ttyFifoGet]
  constructor
  · intro hget
    split at hget
    · omega
    · exact absurd hget (Option.some_ne_none _)
  · intro hcount
    rw [if_pos (by omega)]

theorem queues_init (buf : Nat → UInt8) (hs : 0 < size) : (ttyFifoInit buf size).Queues size [] :=
  ⟨(ttyFifoInit_ok buf hs).1, rfl, (ttyFifoInit_ok buf hs).2⟩

/-- One call. -/
theorem call_refines (h : fifo.Queues size q) (c : FifoCall) :
    (c.apply fifo).1.Queues size (c.onQueue size q).1 ∧
      (c.apply fifo).2 = (c.onQueue size q).2 := by
  have hcount := h.count_eq
  have hle := h.length_le
  cases c with
  | put c =>
    rw [FifoCall.apply, FifoCall.onQueue]
    by_cases hfull : q.length = size
    · rw [(h.put_none_iff c).mpr (hcount.trans hfull), if_pos hfull]
      exact ⟨h, rfl⟩
    · obtain ⟨f, hput, hok, hq, hsize, -⟩ :=
        ttyFifoPut_ok h.ok (by rw [h.size_eq]; omega) c
      rw [hput, if_neg hfull]
      exact ⟨⟨hok, hsize.trans h.size_eq, by rw [hq, h.contents_eq]⟩, rfl⟩
  | get =>
    rw [FifoCall.apply]
    cases q with
    | nil =>
      rw [get_none_iff.mpr hcount, FifoCall.onQueue]
      exact ⟨h, rfl⟩
    | cons c q =>
      obtain ⟨f, hget, hok, hq, hsize, -⟩ := ttyFifoGet_ok h.ok h.contents_eq
      rw [hget, FifoCall.onQueue]
      exact ⟨⟨hok, hsize.trans h.size_eq, hq⟩, rfl⟩

/-- A run of calls. -/
theorem calls_refine (h : fifo.Queues size q) (calls : List FifoCall) :
    (answered FifoCall.apply fifo calls).1.Queues size
        (answered (FifoCall.onQueue size) q calls).1 ∧
      (answered FifoCall.apply fifo calls).2 = (answered (FifoCall.onQueue size) q calls).2 := by
  induction calls generalizing fifo q with
  | nil => exact ⟨h, rfl⟩
  | cons c calls ih =>
    obtain ⟨hnext, hans⟩ := call_refines h c
    obtain ⟨hlast, hrest⟩ := ih hnext
    exact ⟨hlast, congrArg₂ List.cons hans hrest⟩

end TtyFifo

/-- After any calls on a new buffer, its cells from `read` on hold the queue
that the calls build, and every call was answered as the queue answers it. -/
theorem ttyFifo_is_queue (buf : Nat → UInt8) (size : Nat) (hs : 0 < size)
    (calls : List FifoCall) :
    let r := answered FifoCall.apply (ttyFifoInit buf size) calls
    let queue := answered (FifoCall.onQueue size) [] calls
    (List.range r.1.count).map (fun i => r.1.buf ((r.1.read + i) % size)) = queue.1 ∧
      r.1.count = queue.1.length ∧ r.2 = queue.2 ∧ r.1.read < size ∧ r.1.write < size ∧
      (∀ c, ttyFifoPut r.1 c = none ↔ r.1.count = size) ∧
      (ttyFifoGet r.1 = none ↔ r.1.count = 0) := by
  intro r queue
  obtain ⟨hq, hans⟩ := TtyFifo.calls_refine (TtyFifo.queues_init buf hs) calls
  exact ⟨hq.cells, hq.count_eq, hans, hq.read_lt, hq.write_lt, hq.put_none_iff,
    TtyFifo.get_none_iff⟩

/-- Two puts, a get and a put in a buffer of two cells go round its end. -/
theorem ttyFifo_is_queue_wraps :
    (answered FifoCall.apply (ttyFifoInit (fun _ => 0) 2)
      [.put 97, .put 98, .get, .put 99]).1.write < 2 ∧
    (answered (FifoCall.onQueue 2) [] [.put 97, .put 98, .get, .put 99]).1 = [98, 99] :=
  ⟨(ttyFifo_is_queue (fun _ => 0) 2 (by decide)
    [.put 97, .put 98, .get, .put 99]).2.2.2.2.1, by decide⟩

end Wjos
