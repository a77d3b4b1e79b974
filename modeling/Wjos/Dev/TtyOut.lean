/-
Wjos.Dev.TtyOut — terminal output loses nothing.

A character takes a permit of `osem` when its writer waits and gives it back
when the task that drains the buffer notifies. In between the permit is held by
the writer (`put`), by the cell of the buffer, or by the drainer (`notify`), so
permits and characters add up to the size of the buffer (`permits`) and a put
always finds room. The console mutex is held from the first get of a drain to
the last, so at most one character is between get and the console (`flight`).

`TtyOutInv` is the invariant, with one lemma for each step; `tty_output_complete`
says what follows for every run.
-/
import Wjos.Dev.Tty
import Wjos.Lib.Run

namespace Wjos

open Lib

namespace WritePc

/-- Has a permit of `osem`: between `sem_wait` and the put, or between the get
and `sem_notify`. -/
def holdsPermit : WritePc → Bool
  | .put _ _ _ | .notify _ _ => true
  | _ => false

def isWaiting : WritePc → Bool
  | .waiting _ _ _ => true
  | _ => false

/-- Holds the console mutex. -/
def inside : WritePc → Bool
  | .get _ | .notify _ _ | .process _ _ | .unlock _ => true
  | _ => false

def isLocking : WritePc → Bool
  | .locking _ => true
  | _ => false

/-- The character between the get and the console. -/
def inFlight : WritePc → Option UInt8
  | .notify ch _ | .process ch _ => some ch
  | _ => none

/-- Will look into the buffer before its call returns. -/
def willDrain : WritePc → Bool
  | .idle | .start _ | .unlock _ => false
  | _ => true

end WritePc

namespace WritePc

theorem inFlight_granted (p : WritePc) : p.granted.inFlight = p.inFlight := by
  cases p <;> rfl

theorem willDrain_granted (p : WritePc) : p.granted.willDrain = p.willDrain := by
  cases p <;> rfl

theorem isWaiting_granted (p : WritePc) : p.granted.isWaiting = false := by
  cases p <;> rfl

/-- A writer that is handed a permit. -/
theorem granted_of_waiting {p : WritePc} (hp : p.isWaiting = true) :
    ∃ cr c buf, p = .waiting cr c buf ∧ p.granted = .put cr c buf := by
  cases p with
  | waiting cr c buf => exact ⟨cr, c, buf, rfl, rfl⟩
  | _ => exact absurd hp (by simp [isWaiting])

/-- A drainer that is handed the mutex. -/
theorem granted_of_locking {p : WritePc} (hp : p.isLocking = true) :
    ∃ buf, p = .locking buf ∧ p.granted = .get buf := by
  cases p with
  | locking buf => exact ⟨buf, rfl, rfl⟩
  | _ => exact absurd hp (by simp [isLocking])

/-- Only a task with the mutex has a character in flight. -/
theorem inside_of_inFlight {p : WritePc} {ch : UInt8} (hp : p.inFlight = some ch) :
    p.inside = true := by
  cases p with
  | notify | process => rfl
  | _ => exact absurd hp (by simp [inFlight])

end WritePc

/-- What is put for `c`. -/
def charsOf (cr : Bool) (c : UInt8) : List UInt8 := if cr then [13, c] else [c]

/-- `buf` with `\r` inserted before `\n`, if the terminal expands it. -/
def crlf (oflags : Nat) (buf : List UInt8) : List UInt8 :=
  buf.flatMap fun c => charsOf (expands oflags c) c

/-- What the call has still to put. -/
def WritePc.pending (oflags : Nat) : WritePc → List UInt8
  | .idle => []
  | .start buf | .lock buf | .locking buf | .get buf | .notify _ buf | .process _ buf |
    .unlock buf =>
    crlf oflags buf
  | .wait cr c buf | .waiting cr c buf | .put cr c buf => charsOf cr c ++ crlf oflags buf

theorem pending_granted (oflags : Nat) (p : WritePc) :
    p.granted.pending oflags = p.pending oflags := by
  cases p <;> rfl

section

variable {τ : Type*} [DecidableEq τ]

/-- A class that the new counter shares with the old one. -/
theorem update_same {α β : Type*} {g : α → β} {f : τ → α} {t : τ} {x : α} (h : g x = g (f t))
    (u : τ) : g (Function.update f t x u) = g (f u) := by
  by_cases hut : u = t
  · rw [hut, Function.update_self, h]
  · rw [Function.update_of_ne hut]

/-- A class that a grant does not change. -/
theorem wake_same {β : Type*} {g : WritePc → β} (hg : ∀ p, g p.granted = g p) (pc : τ → WritePc)
    (woken : Option τ) (u : τ) : g (wake pc woken u) = g (pc u) := by
  cases woken with
  | none => rfl
  | some v => exact update_same (hg _) u

/-- What task `t` has put. -/
def bytesOf (t : τ) (puts : List (τ × UInt8)) : List UInt8 :=
  (puts.filter fun p => p.1 = t).map Prod.snd

theorem bytesOf_concat_self (t : τ) (puts : List (τ × UInt8)) (c : UInt8) :
    bytesOf t (puts ++ [(t, c)]) = bytesOf t puts ++ [c] := by
  simp [bytesOf]

theorem bytesOf_concat_of_ne {t u : τ} (h : u ≠ t) (puts : List (τ × UInt8)) (c : UInt8) :
    bytesOf u (puts ++ [(t, c)]) = bytesOf u puts := by
  simp [bytesOf, Ne.symm h]

/-! ## The invariant -/

structure TtyOutInv (c₀ : Console) (s : TtyOut τ) : Prop where
  oflags : s.oflags = ttyOcrlf
  ok : s.ofifo.Ok
  size : s.ofifo.size = ttyObufSize
  order : s.puts.map Prod.snd = s.gets ++ s.ofifo.contents
  waits : s.osem.Waits WritePc.isWaiting s.pc
  guards : s.mutex.Guards WritePc.inside WritePc.isLocking s.pc
  finite : FinitelyMany WritePc.holdsPermit s.pc
  permits : s.osem.count + numberOf WritePc.holdsPermit s.pc + s.ofifo.count = ttyObufSize
  flight : ∀ t ch, (s.pc t).inFlight = some ch → s.gets = s.processed ++ [ch]
  landed : (∀ t, (s.pc t).inFlight = none) → s.gets = s.processed
  console : s.console = s.processed.foldl Console.write c₀
  writer : ∀ t, bytesOf t s.puts ++ (s.pc t).pending s.oflags = crlf s.oflags (s.written t)
  drains : s.ofifo.contents ≠ [] → ∃ t, (s.pc t).willDrain = true

theorem ttyOutInv_init (obuf : Nat → UInt8) (c₀ : Console) :
    TtyOutInv c₀ (ttyOutInit obuf c₀ : TtyOut τ) := by
  obtain ⟨hok, hq⟩ := ttyFifoInit_ok obuf (show 0 < ttyObufSize by decide)
  have hp : numberOf WritePc.holdsPermit (fun _ : τ => WritePc.idle) = 0 :=
    numberOf_none fun _ => rfl
  refine ⟨rfl, hok, rfl, ?_, ⟨by simp [ttyOutInit], by simp [ttyOutInit], List.nodup_nil, ?_⟩,
    ⟨?_, rfl, fun _ => rfl, List.nodup_nil, ?_⟩, finitelyMany_none fun _ => rfl, ?_, ?_,
    fun _ => rfl, rfl, fun _ => rfl, fun hne => absurd hq hne⟩
  · simp only [ttyOutInit, hq]
    rfl
  · simp [ttyOutInit, WritePc.isWaiting]
  · simp [ttyOutInit, Lock.free, WritePc.inside]
  · simp [ttyOutInit, Lock.free, WritePc.isLocking]
  · simp [ttyOutInit, hp, ttyFifoInit]
  · simp [ttyOutInit, WritePc.inFlight]

variable {c₀ : Console} {s : TtyOut τ} {t : τ}

/-- The counter of `t` moves on, and its account of what is written is in
order. -/
theorem writer_update {oflags : Nat} {pc : τ → WritePc} {x : WritePc}
    {puts puts' : List (τ × UInt8)} {written written' : τ → List UInt8}
    (h : ∀ u, bytesOf u puts ++ (pc u).pending oflags = crlf oflags (written u))
    (ht : bytesOf t puts' ++ x.pending oflags = crlf oflags (written' t))
    (ho : ∀ u, u ≠ t → bytesOf u puts' = bytesOf u puts ∧ written' u = written u) (u : τ) :
    bytesOf u puts' ++ (Function.update pc t x u).pending oflags = crlf oflags (written' u) := by
  by_cases hut : u = t
  · rw [hut, Function.update_self, ht]
  · obtain ⟨hp, hw⟩ := ho u hut
    rw [Function.update_of_ne hut, hp, hw, h]

/-- Somebody will drain the buffer: another task than `t`, or `t` itself. -/
theorem drains_update {pc : τ → WritePc} {x : WritePc} (h : ∃ u, (pc u).willDrain = true)
    (ht : (pc t).willDrain = true → x.willDrain = true) :
    ∃ u, (Function.update pc t x u).willDrain = true := by
  obtain ⟨u, hu⟩ := h
  by_cases hut : u = t
  · exact ⟨t, by rw [Function.update_self]; exact ht (hut ▸ hu)⟩
  · exact ⟨u, by rwa [Function.update_of_ne hut]⟩

/-- The character in flight stays in flight. -/
theorem TtyOutInv.flight_update (h : TtyOutInv c₀ s) {x : WritePc}
    (hx : x.inFlight = (s.pc t).inFlight) {u : τ} {ch : UInt8}
    (hu : (Function.update s.pc t x u).inFlight = some ch) : s.gets = s.processed ++ [ch] :=
  h.flight u ch ((update_same hx u).symm.trans hu)

theorem TtyOutInv.landed_update (h : TtyOutInv c₀ s) {x : WritePc}
    (hx : x.inFlight = (s.pc t).inFlight)
    (hall : ∀ u, (Function.update s.pc t x u).inFlight = none) : s.gets = s.processed :=
  h.landed fun u => (update_same hx u).symm.trans (hall u)

/-- Where no permit is taken or given back. -/
theorem TtyOutInv.permits_update (h : TtyOutInv c₀ s) {x : WritePc}
    (hx : x.holdsPermit = (s.pc t).holdsPermit) :
    s.osem.count + numberOf WritePc.holdsPermit (Function.update s.pc t x) + s.ofifo.count =
      ttyObufSize := by
  have hn := numberOf_update h.finite t x
  have hp := h.permits
  rw [hx] at hn
  omega

/-- No more permits are free than there are cells. -/
theorem TtyOutInv.count_lt (h : TtyOutInv c₀ s) : s.osem.count < intMax := by
  have hp := h.permits
  simp only [ttyObufSize] at hp
  rw [intMax]
  omega

/-! ## The steps -/

section Steps

variable {cr : Bool} {c ch : UInt8} {buf : List UInt8}

/-- A call of `tty_write`. -/
theorem TtyOutInv.call (h : TtyOutInv c₀ s) (hpc : s.pc t = .idle) (buf : List UInt8) :
    TtyOutInv c₀ { s with
      pc := Function.update s.pc t (.start buf)
      written := Function.update s.written t (s.written t ++ buf) } := by
  have hfl : (WritePc.start buf).inFlight = (s.pc t).inFlight := by rw [hpc]; rfl
  have hwriter := h.writer t
  rw [hpc, WritePc.pending, List.append_nil] at hwriter
  exact { h with
    waits := h.waits.step (by rw [hpc]; rfl) rfl
    guards := h.guards.step (by rw [hpc]; rfl) (by rw [hpc]; rfl)
    finite := h.finite.update t _
    permits := h.permits_update (by rw [hpc]; rfl)
    flight := fun _ _ => h.flight_update hfl
    landed := h.landed_update hfl
    writer := by
      refine writer_update h.writer ?_ fun u hut => ⟨rfl, Function.update_of_ne hut ..⟩
      dsimp only
      rw [Function.update_self, hwriter]
      simp [crlf, WritePc.pending]
    drains := fun hne => drains_update (h.drains hne) (by simp [hpc, WritePc.willDrain]) }

/-- The head of the loop of `tty_write`. -/
theorem TtyOutInv.start (h : TtyOutInv c₀ s) (hpc : s.pc t = .start buf) :
    ∃ s', ttyOutStep s (.step t) = some s' ∧ TtyOutInv c₀ s' := by
  have hwriter := h.writer t
  rw [hpc] at hwriter
  simp only [ttyOutStep, hpc]
  cases buf with
  | nil =>
    have hfl : WritePc.idle.inFlight = (s.pc t).inFlight := by rw [hpc]; rfl
    exact ⟨_, rfl, { h with
      waits := h.waits.step (by rw [hpc]; rfl) rfl
      guards := h.guards.step (by rw [hpc]; rfl) (by rw [hpc]; rfl)
      finite := h.finite.update t _
      permits := h.permits_update (by rw [hpc]; rfl)
      flight := fun _ _ => h.flight_update hfl
      landed := h.landed_update hfl
      writer := writer_update h.writer hwriter fun _ _ => ⟨rfl, rfl⟩
      drains := fun hne => drains_update (h.drains hne) (by simp [hpc, WritePc.willDrain]) }⟩
  | cons c buf =>
    have hfl : (WritePc.wait (expands s.oflags c) c buf).inFlight = (s.pc t).inFlight := by
      rw [hpc]
      rfl
    exact ⟨_, rfl, { h with
      waits := h.waits.step (by rw [hpc]; rfl) rfl
      guards := h.guards.step (by rw [hpc]; rfl) (by rw [hpc]; rfl)
      finite := h.finite.update t _
      permits := h.permits_update (by rw [hpc]; rfl)
      flight := fun _ _ => h.flight_update hfl
      landed := h.landed_update hfl
      writer := writer_update h.writer hwriter fun _ _ => ⟨rfl, rfl⟩
      drains := fun hne => drains_update (h.drains hne) fun _ => rfl }⟩

/-- The step `sem_wait`. -/
theorem TtyOutInv.wait (h : TtyOutInv c₀ s) (hpc : s.pc t = .wait cr c buf) :
    ∃ s', ttyOutStep s (.step t) = some s' ∧ TtyOutInv c₀ s' := by
  have hwait : (s.pc t).isWaiting = false := by rw [hpc]; rfl
  have hperm := h.permits
  have hwriter := h.writer t
  rw [hpc] at hwriter
  simp only [ttyOutStep, hpc]
  by_cases hpos : s.osem.count > 0
  · obtain ⟨hw, hwaits⟩ := h.waits.granted (a := .put cr c buf) hpos (Int.le_of_lt h.count_lt)
      hwait rfl
    have hfl : (WritePc.put cr c buf).inFlight = (s.pc t).inFlight := by rw [hpc]; rfl
    have hn := numberOf_update h.finite t (.put cr c buf)
    simp only [hpc, WritePc.holdsPermit, Bool.false_eq_true, if_false, if_true] at hn
    rw [hw]
    dsimp only
    rw [if_pos rfl]
    exact ⟨_, rfl, { h with
      waits := hwaits
      guards := h.guards.step (by rw [hpc]; rfl) (by rw [hpc]; rfl)
      finite := h.finite.update t _
      permits := by dsimp only; omega
      flight := fun _ _ => h.flight_update hfl
      landed := h.landed_update hfl
      writer := writer_update h.writer hwriter fun _ _ => ⟨rfl, rfl⟩
      drains := fun hne => drains_update (h.drains hne) fun _ => rfl }⟩
  · obtain ⟨hw, hwaits⟩ := h.waits.blocked (a := .waiting cr c buf) hpos hwait rfl
    have hfl : (WritePc.waiting cr c buf).inFlight = (s.pc t).inFlight := by rw [hpc]; rfl
    rw [hw]
    dsimp only
    rw [if_neg (by simp)]
    exact ⟨_, rfl, { h with
      waits := hwaits
      guards := h.guards.step (by rw [hpc]; rfl) (by rw [hpc]; rfl)
      finite := h.finite.update t _
      permits := h.permits_update (by rw [hpc]; rfl)
      flight := fun _ _ => h.flight_update hfl
      landed := h.landed_update hfl
      writer := writer_update h.writer hwriter fun _ _ => ⟨rfl, rfl⟩
      drains := fun hne => drains_update (h.drains hne) fun _ => rfl }⟩

/-- A task about to put holds a permit, so there is room. -/
theorem TtyOutInv.room (h : TtyOutInv c₀ s) (hpc : s.pc t = .put cr c buf) :
    s.ofifo.count < s.ofifo.size := by
  have hpos := numberOf_pos h.finite (t := t) (by rw [hpc]; rfl)
  have hperm := h.permits
  have hnonneg := h.waits.nonneg
  rw [h.size]
  omega

/-- The step `tty_fifo_put`. -/
theorem TtyOutInv.put (h : TtyOutInv c₀ s) (hpc : s.pc t = .put cr c buf) :
    ∃ s', ttyOutStep s (.step t) = some s' ∧ TtyOutInv c₀ s' := by
  obtain ⟨f, hf, hok, hq, hsize, hcount⟩ := ttyFifoPut_ok h.ok (h.room hpc) (if cr then 13 else c)
  have hwriter := h.writer t
  rw [hpc] at hwriter
  simp only [ttyOutStep, hpc, hf]
  have hn := numberOf_update h.finite t (if cr then .wait false c buf else .lock buf)
  have hperm := h.permits
  cases cr with
  | true =>
    have hfl : (WritePc.wait false c buf).inFlight = (s.pc t).inFlight := by rw [hpc]; rfl
    simp only [hpc, WritePc.holdsPermit, Bool.false_eq_true, if_false, if_true] at hn
    simp only [if_true] at hq ⊢
    exact ⟨_, rfl, { h with
      ok := hok
      size := hsize.trans h.size
      order := by simp [hq, h.order]
      waits := h.waits.step (by rw [hpc]; rfl) rfl
      guards := h.guards.step (by rw [hpc]; rfl) (by rw [hpc]; rfl)
      finite := h.finite.update t _
      permits := by dsimp only; omega
      flight := fun _ _ => h.flight_update hfl
      landed := h.landed_update hfl
      writer := by
        refine writer_update h.writer ?_ fun u hut => ⟨bytesOf_concat_of_ne hut .., rfl⟩
        rw [bytesOf_concat_self, List.append_assoc, ← hwriter]
        rfl
      drains := fun _ => ⟨t, by dsimp only; rw [Function.update_self]; rfl⟩ }⟩
  | false =>
    have hfl : (WritePc.lock buf).inFlight = (s.pc t).inFlight := by rw [hpc]; rfl
    simp only [hpc, WritePc.holdsPermit, Bool.false_eq_true, if_false, if_true] at hn
    simp only [Bool.false_eq_true, if_false] at hq ⊢
    exact ⟨_, rfl, { h with
      ok := hok
      size := hsize.trans h.size
      order := by simp [hq, h.order]
      waits := h.waits.step (by rw [hpc]; rfl) rfl
      guards := h.guards.step (by rw [hpc]; rfl) (by rw [hpc]; rfl)
      finite := h.finite.update t _
      permits := by dsimp only; omega
      flight := fun _ _ => h.flight_update hfl
      landed := h.landed_update hfl
      writer := by
        refine writer_update h.writer ?_ fun u hut => ⟨bytesOf_concat_of_ne hut .., rfl⟩
        rw [bytesOf_concat_self, List.append_assoc, ← hwriter]
        rfl
      drains := fun _ => ⟨t, by dsimp only; rw [Function.update_self]; rfl⟩ }⟩

/-- The step `mutex_lock`. -/
theorem TtyOutInv.lock (h : TtyOutInv c₀ s) (hpc : s.pc t = .lock buf) :
    ∃ s', ttyOutStep s (.step t) = some s' ∧ TtyOutInv c₀ s' := by
  have hwriter := h.writer t
  rw [hpc] at hwriter
  simp only [ttyOutStep, hpc]
  rcases h.guards.lock (t := t) (a := .get buf) (b := .locking buf) (by rw [hpc]; rfl)
    (by rw [hpc]; rfl) ⟨rfl, rfl⟩ ⟨rfl, rfl⟩ with ⟨x', hx, -, hguards⟩ | ⟨x', hx, hguards⟩
  · have hfl : (WritePc.get buf).inFlight = (s.pc t).inFlight := by rw [hpc]; rfl
    rw [hx]
    dsimp only
    rw [if_pos rfl]
    exact ⟨_, rfl, { h with
      waits := h.waits.step (by rw [hpc]; rfl) rfl
      guards := hguards
      finite := h.finite.update t _
      permits := h.permits_update (by rw [hpc]; rfl)
      flight := fun _ _ => h.flight_update hfl
      landed := h.landed_update hfl
      writer := writer_update h.writer hwriter fun _ _ => ⟨rfl, rfl⟩
      drains := fun hne => drains_update (h.drains hne) fun _ => rfl }⟩
  · have hfl : (WritePc.locking buf).inFlight = (s.pc t).inFlight := by rw [hpc]; rfl
    rw [hx]
    dsimp only
    rw [if_neg (by simp)]
    exact ⟨_, rfl, { h with
      waits := h.waits.step (by rw [hpc]; rfl) rfl
      guards := hguards
      finite := h.finite.update t _
      permits := h.permits_update (by rw [hpc]; rfl)
      flight := fun _ _ => h.flight_update hfl
      landed := h.landed_update hfl
      writer := writer_update h.writer hwriter fun _ _ => ⟨rfl, rfl⟩
      drains := fun hne => drains_update (h.drains hne) fun _ => rfl }⟩

/-- A task inside without a character: all that were taken have landed. -/
theorem TtyOutInv.all_landed (h : TtyOutInv c₀ s) (hin : (s.pc t).inside = true)
    (hfl : (s.pc t).inFlight = none) : s.gets = s.processed := by
  refine h.landed fun u => ?_
  cases hu : (s.pc u).inFlight with
  | none => rfl
  | some ch =>
    rw [h.guards.unique (WritePc.inside_of_inFlight hu) hin, hfl] at hu
    exact absurd hu (by simp)

/-- The step `tty_fifo_get`. -/
theorem TtyOutInv.get (h : TtyOutInv c₀ s) (hpc : s.pc t = .get buf) :
    ∃ s', ttyOutStep s (.step t) = some s' ∧ TtyOutInv c₀ s' := by
  have hwriter := h.writer t
  rw [hpc] at hwriter
  simp only [ttyOutStep, hpc]
  cases hq : s.ofifo.contents with
  | nil =>
    have hfl : (WritePc.unlock buf).inFlight = (s.pc t).inFlight := by rw [hpc]; rfl
    rw [ttyFifoGet_empty hq]
    exact ⟨_, rfl, { h with
      waits := h.waits.step (by rw [hpc]; rfl) rfl
      guards := h.guards.step (by rw [hpc]; rfl) (by rw [hpc]; rfl)
      finite := h.finite.update t _
      permits := h.permits_update (by rw [hpc]; rfl)
      flight := fun _ _ => h.flight_update hfl
      landed := h.landed_update hfl
      writer := writer_update h.writer hwriter fun _ _ => ⟨rfl, rfl⟩
      drains := fun hne => absurd hq hne }⟩
  | cons ch q =>
    obtain ⟨f, hf, hok, hfq, hsize, hcount⟩ := ttyFifoGet_ok h.ok hq
    have hlanded : s.gets = s.processed := h.all_landed (by rw [hpc]; rfl) (by rw [hpc]; rfl)
    have hin : (s.pc t).inside = true := by rw [hpc]; rfl
    have hn := numberOf_update h.finite t (.notify ch buf)
    simp only [hpc, WritePc.holdsPermit, Bool.false_eq_true, if_false, if_true] at hn
    have hperm := h.permits
    rw [hf]
    exact ⟨_, rfl, { h with
      ok := hok
      size := hsize.trans h.size
      order := by simp [hfq, h.order, hq]
      waits := h.waits.step (by rw [hpc]; rfl) rfl
      guards := h.guards.step (by rw [hpc]; rfl) (by rw [hpc]; rfl)
      finite := h.finite.update t _
      permits := by dsimp only; omega
      flight := by
        intro u ch' hu
        dsimp only at hu ⊢
        by_cases hut : u = t
        · rw [hut, Function.update_self] at hu
          rw [hlanded, show ch = ch' from Option.some.inj hu]
        · rw [Function.update_of_ne hut] at hu
          exact absurd (h.guards.unique (WritePc.inside_of_inFlight hu) hin) hut
      landed := fun hall => absurd (hall t) (by simp [WritePc.inFlight])
      writer := writer_update h.writer hwriter fun _ _ => ⟨rfl, rfl⟩
      drains := fun _ => ⟨t, by dsimp only; rw [Function.update_self]; rfl⟩ }⟩

/-- The step `sem_notify`. -/
theorem TtyOutInv.notify (h : TtyOutInv c₀ s) (hpc : s.pc t = .notify ch buf) :
    ∃ s', ttyOutStep s (.step t) = some s' ∧ TtyOutInv c₀ s' := by
  have hwriter := h.writer t
  rw [hpc] at hwriter
  have hfl : (WritePc.process ch buf).inFlight = (s.pc t).inFlight := by rw [hpc]; rfl
  have hstep := h.waits.step (t := t) (a := .process ch buf) (by rw [hpc]; rfl) rfl
  have hgstep := h.guards.step (t := t) (a := .process ch buf) (by rw [hpc]; rfl) (by rw [hpc]; rfl)
  have hn := numberOf_update h.finite t (.process ch buf)
  simp only [hpc, WritePc.holdsPermit, Bool.false_eq_true, if_false, if_true] at hn
  have hperm := h.permits
  simp only [ttyOutStep, hpc]
  cases hl : s.osem.waitList with
  | nil =>
    obtain ⟨hx, hwaits⟩ := hstep.raised hl h.count_lt
    rw [hx]
    exact ⟨_, rfl, { h with
      waits := hwaits
      guards := hgstep
      finite := h.finite.update t _
      permits := by dsimp only [wake]; omega
      flight := fun _ _ => h.flight_update hfl
      landed := h.landed_update hfl
      writer := writer_update h.writer hwriter fun _ _ => ⟨rfl, rfl⟩
      drains := fun hne => drains_update (h.drains hne) fun _ => rfl }⟩
  | cons u rest =>
    obtain ⟨hx, hu, hwaits⟩ := hstep.woken hl (WritePc.isWaiting_granted
      (Function.update s.pc t (.process ch buf) u))
    obtain ⟨cr, c, buf', hp, hgr⟩ := WritePc.granted_of_waiting hu
    have hn' := numberOf_update (h.finite.update t (.process ch buf)) u
      (Function.update s.pc t (.process ch buf) u).granted
    rw [hgr, hp] at hn'
    simp only [WritePc.holdsPermit, Bool.false_eq_true, if_false, if_true] at hn'
    rw [hx]
    refine ⟨_, rfl, { h with
      waits := hwaits
      guards := hgstep.step (by rw [hgr, hp]; rfl) (by rw [hgr, hp]; rfl)
      finite := (h.finite.update t _).update u _
      permits := by dsimp only [wake]; rw [hgr]; omega
      flight := fun v ch' hv =>
        h.flight_update hfl ((wake_same WritePc.inFlight_granted _ (some u) v).symm.trans hv)
      landed := fun hall => h.landed_update hfl fun v =>
        (wake_same WritePc.inFlight_granted _ (some u) v).symm.trans (hall v)
      writer := fun v => ?_
      drains := fun hne => ?_ }⟩
    · rw [wake_same (pending_granted s.oflags)]
      exact writer_update (x := .process ch buf) h.writer hwriter (fun _ _ => ⟨rfl, rfl⟩) v
    · obtain ⟨v, hv⟩ := drains_update (t := t) (x := .process ch buf) (h.drains hne) fun _ => rfl
      exact ⟨v, (wake_same WritePc.willDrain_granted _ (some u) v).trans hv⟩

/-- The switch on `write_state`. -/
theorem TtyOutInv.process (h : TtyOutInv c₀ s) (hpc : s.pc t = .process ch buf) :
    ∃ s', ttyOutStep s (.step t) = some s' ∧ TtyOutInv c₀ s' := by
  have hwriter := h.writer t
  rw [hpc] at hwriter
  have hgets : s.gets = s.processed ++ [ch] := h.flight t ch (by rw [hpc]; rfl)
  have hin : (s.pc t).inside = true := by rw [hpc]; rfl
  simp only [ttyOutStep, hpc]
  exact ⟨_, rfl, { h with
    waits := h.waits.step (by rw [hpc]; rfl) rfl
    guards := h.guards.step (by rw [hpc]; rfl) (by rw [hpc]; rfl)
    finite := h.finite.update t _
    permits := h.permits_update (by rw [hpc]; rfl)
    flight := by
      intro u ch' hu
      dsimp only at hu
      by_cases hut : u = t
      · rw [hut, Function.update_self] at hu
        exact absurd hu (by simp [WritePc.inFlight])
      · rw [Function.update_of_ne hut] at hu
        exact absurd (h.guards.unique (WritePc.inside_of_inFlight hu) hin) hut
    landed := fun _ => hgets
    console := by simp [h.console]
    writer := writer_update h.writer hwriter fun _ _ => ⟨rfl, rfl⟩
    drains := fun hne => drains_update (h.drains hne) fun _ => rfl }⟩

/-- The step `mutex_unlock`. -/
theorem TtyOutInv.unlock (h : TtyOutInv c₀ s) (hpc : s.pc t = .unlock buf) :
    ∃ s', ttyOutStep s (.step t) = some s' ∧ TtyOutInv c₀ s' := by
  have hwriter := h.writer t
  rw [hpc] at hwriter
  have hfl : (WritePc.start buf).inFlight = (s.pc t).inFlight := by rw [hpc]; rfl
  have hstep := h.waits.step (t := t) (a := .start buf) (by rw [hpc]; rfl) rfl
  have hdrain : (s.pc t).willDrain = true → (WritePc.start buf).willDrain = true := by
    simp [hpc, WritePc.willDrain]
  have hperm := h.permits_update (t := t) (x := .start buf) (by rw [hpc]; rfl)
  simp only [ttyOutStep, hpc]
  rcases h.guards.unlock (t := t) (a := .start buf) (b := fun u => (s.pc u).granted)
    (by rw [hpc]; rfl) (by rw [hpc]; rfl) ⟨rfl, rfl⟩ (fun u hu => by
      obtain ⟨buf', -, hgr⟩ := WritePc.granted_of_locking hu
      rw [hgr]
      exact ⟨rfl, rfl⟩) with ⟨x', hx, hguards⟩ | ⟨x', u, hx, hut, hu, hguards⟩
  · rw [hx]
    exact ⟨_, rfl, { h with
      waits := hstep
      guards := hguards
      finite := h.finite.update t _
      permits := hperm
      flight := fun _ _ => h.flight_update hfl
      landed := h.landed_update hfl
      writer := writer_update h.writer hwriter fun _ _ => ⟨rfl, rfl⟩
      drains := fun hne => drains_update (h.drains hne) hdrain }⟩
  · obtain ⟨buf', hp, hgr⟩ := WritePc.granted_of_locking hu
    have hpu : Function.update s.pc t (.start buf) u = s.pc u := Function.update_of_ne hut ..
    have hn' := numberOf_update (h.finite.update t (.start buf)) u (s.pc u).granted
    rw [hpu, hgr, hp] at hn'
    simp only [WritePc.holdsPermit, Bool.false_eq_true, if_false] at hn'
    have hwake : wake (Function.update s.pc t (.start buf)) (some u) =
        Function.update (Function.update s.pc t (.start buf)) u (s.pc u).granted := by
      rw [wake, hpu]
    rw [hx]
    refine ⟨_, rfl, { h with
      waits := hwake ▸ hstep.step (by rw [hpu, hp]; rfl) (WritePc.isWaiting_granted _)
      guards := hwake ▸ hguards
      finite := hwake ▸ (h.finite.update t _).update u _
      permits := by dsimp only; rw [hwake, hgr]; omega
      flight := fun v ch' hv =>
        h.flight_update hfl ((wake_same WritePc.inFlight_granted _ (some u) v).symm.trans hv)
      landed := fun hall => h.landed_update hfl fun v =>
        (wake_same WritePc.inFlight_granted _ (some u) v).symm.trans (hall v)
      writer := fun v => ?_
      drains := fun hne => ?_ }⟩
    · rw [wake_same (pending_granted s.oflags)]
      exact writer_update (x := .start buf) h.writer hwriter (fun _ _ => ⟨rfl, rfl⟩) v
    · obtain ⟨v, hv⟩ := drains_update (t := t) (x := .start buf) (h.drains hne) hdrain
      exact ⟨v, (wake_same WritePc.willDrain_granted _ (some u) v).trans hv⟩

end Steps

/-- Every event keeps the invariant. -/
theorem ttyOutInv_step (s : TtyOut τ) (e : TtyOutEvent τ) (s' : TtyOut τ) (h : TtyOutInv c₀ s)
    (hs : ttyOutStep s e = some s') : TtyOutInv c₀ s' := by
  have hkeep : (∃ s', ttyOutStep s e = some s' ∧ TtyOutInv c₀ s') → TtyOutInv c₀ s' := by
    rintro ⟨s'', hs'', h''⟩
    obtain rfl : s'' = s' := Option.some.inj (hs''.symm.trans hs)
    exact h''
  cases e with
  | call t buf =>
    cases hpc : s.pc t with
    | idle => exact hkeep ⟨_, by simp only [ttyOutStep, hpc], h.call hpc buf⟩
    | _ => simp [ttyOutStep, hpc] at hs
  | step t =>
    cases hpc : s.pc t with
    | idle => simp [ttyOutStep, hpc] at hs
    | start buf => exact hkeep (h.start hpc)
    | wait cr c buf => exact hkeep (h.wait hpc)
    | waiting cr c buf => simp [ttyOutStep, hpc] at hs
    | put cr c buf => exact hkeep (h.put hpc)
    | lock buf => exact hkeep (h.lock hpc)
    | locking buf => simp [ttyOutStep, hpc] at hs
    | get buf => exact hkeep (h.get hpc)
    | notify ch buf => exact hkeep (h.notify hpc)
    | process ch buf => exact hkeep (h.process hpc)
    | unlock buf => exact hkeep (h.unlock hpc)

/-! ## Complete output -/

/-- Nothing is lost. The buffer takes what is put (`put_ok`) and gives it back
in order, each character once (`order`); the console has processed what was
taken, up to the character in flight (`processed`, `console`). What it has
processed of a writer's characters is what the writer wrote, up to some point
(`writer`); a call that has returned has put everything (`returned`), and when
all have returned, all is processed (`quiet`). -/
structure OutputComplete (c₀ : Console) (s : TtyOut τ) : Prop where
  put_ok : ∀ t cr c buf, s.pc t = .put cr c buf → ∀ ch, (ttyFifoPut s.ofifo ch).isSome = true
  order : s.puts.map Prod.snd = s.gets ++ s.ofifo.contents
  processed : s.processed <+: s.gets ∧ s.gets.length ≤ s.processed.length + 1
  console : s.console = s.processed.foldl Console.write c₀
  writer : ∀ t, bytesOf t (s.puts.take s.processed.length) <+: crlf ttyOcrlf (s.written t)
  returned : ∀ t, s.pc t = .idle → bytesOf t s.puts = crlf ttyOcrlf (s.written t)
  quiet : (∀ t, s.pc t = .idle) → s.processed = s.puts.map Prod.snd

theorem TtyOutInv.outputComplete (h : TtyOutInv c₀ s) : OutputComplete c₀ s where
  put_ok := fun t cr c buf hpc ch => by
    obtain ⟨f, hf, -⟩ := ttyFifoPut_ok h.ok (h.room hpc) ch
    rw [hf]
    rfl
  order := h.order
  processed := by
    by_cases hall : ∀ t, (s.pc t).inFlight = none
    · rw [h.landed hall]
      exact ⟨List.prefix_rfl, Nat.le_succ _⟩
    · obtain ⟨t, ht⟩ := not_forall.mp hall
      obtain ⟨ch, hch⟩ := Option.ne_none_iff_exists'.mp ht
      rw [h.flight t ch hch]
      exact ⟨List.prefix_append _ _, by simp⟩
  console := h.console
  writer := fun t => by
    have hw := h.writer t
    rw [h.oflags] at hw
    have htake : bytesOf t (s.puts.take s.processed.length) <+: bytesOf t s.puts :=
      ((List.take_prefix _ _).filter _).map _
    exact htake.trans ⟨_, hw⟩
  returned := fun t hpc => by
    have hw := h.writer t
    rwa [hpc, h.oflags, WritePc.pending, List.append_nil] at hw
  quiet := fun hall => by
    have hempty : s.ofifo.contents = [] := by
      by_contra hne
      obtain ⟨t, ht⟩ := h.drains hne
      rw [hall t] at ht
      exact absurd ht (by simp [WritePc.willDrain])
    rw [h.order, hempty, List.append_nil]
    exact (h.landed fun t => by rw [hall t]; rfl).symm

/-- In every interleaving of any number of writers, terminal output is
complete. -/
theorem tty_output_complete (obuf : Nat → UInt8) (c₀ : Console) {es : List (TtyOutEvent τ)}
    {s : TtyOut τ} (hr : run ttyOutStep (ttyOutInit obuf c₀) es = some s) :
    OutputComplete c₀ s :=
  (run_invariant ttyOutInv_step (ttyOutInv_init obuf c₀) hr).outputComplete

end

/-- Two writers, one of which drains the character of the other. -/
theorem tty_output_complete_two_writers :
    ∃ s : TtyOut Nat, run ttyOutStep (ttyOutInit (fun _ => 0) (Console.zero.init 1 0))
        [.call 0 [10], .call 1 [65], .step 0, .step 0, .step 0, .step 1, .step 1, .step 1,
          .step 0, .step 0, .step 0, .step 0] = some s ∧
      s.gets = [13] ∧ s.puts = [(0, 13), (1, 65), (0, 10)] ∧
      OutputComplete (Console.zero.init 1 0) s := by
  have hrun : (run ttyOutStep (ttyOutInit (fun _ => 0) (Console.zero.init 1 0) : TtyOut Nat)
      [.call 0 [10], .call 1 [65], .step 0, .step 0, .step 0, .step 1, .step 1, .step 1,
        .step 0, .step 0, .step 0, .step 0]).any
      (fun s => s.gets = [13] ∧ s.puts = [(0, 13), (1, 65), (0, 10)]) = true := by
    decide +kernel
  obtain ⟨s, hr, hs⟩ := (Option.any_eq_true ..).mp hrun
  obtain ⟨hgets, hputs⟩ := of_decide_eq_true hs
  exact ⟨s, hr, hgets, hputs, tty_output_complete _ _ hr⟩

end Wjos
