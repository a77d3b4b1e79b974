/-
Wjos.Dev.TtyIn — permits and characters of terminal input.

A reader that was handed a permit and has not run yet holds a permit that
`isem.count` does not show. `tty_in` compares that count with the size of the
buffer, so it goes on while such a reader is late and the buffer is full: the
put fails, its answer is not looked at, and the notify gives out a permit for a
character that is not there. `InputOk` excludes this step;
`tty_input_matched_iff` says that it is the only one that goes wrong.
-/
import Wjos.Dev.Tty
import Wjos.Lib.Run

namespace Wjos

open Lib

namespace ReadPc

def isWaiting : ReadPc → Bool
  | .waiting _ _ => true
  | _ => false

/-- Has waited and not yet taken a character. -/
def holdsPermit : ReadPc → Bool
  | .get _ _ => true
  | _ => false

theorem isWaiting_granted (p : ReadPc) : p.granted.isWaiting = false := by
  cases p <;> rfl

/-- A reader that is handed a permit. -/
theorem granted_of_waiting {p : ReadPc} (hp : p.isWaiting = true) :
    p.holdsPermit = false ∧ p.granted.holdsPermit = true := by
  cases p with
  | waiting size kept => exact ⟨rfl, rfl⟩
  | _ => exact absurd hp (by simp [isWaiting])

end ReadPc

section

variable {τ : Type*} [DecidableEq τ]

/-- The buffer and the wait list are in order. -/
structure TtyInBase (s : TtyIn τ) : Prop where
  ok : s.ififo.Ok
  size : s.ififo.size = ttyIbufSize
  waits : s.isem.Waits ReadPc.isWaiting s.pc
  finite : FinitelyMany ReadPc.holdsPermit s.pc
  count_le : s.isem.count ≤ ttyIbufSize

/-- The unused permits are the characters in the buffer (`permits`), so a get
after a wait delivers one (`gets`); the characters that were accepted are those
delivered, each once and in order, and those in the buffer (`order`). -/
structure InputMatched (s : TtyIn τ) : Prop where
  permits : s.isem.count + numberOf ReadPc.holdsPermit s.pc = s.ififo.count
  gets : ∀ t, (s.pc t).holdsPermit = true → (ttyFifoGet s.ififo).isSome = true
  order : s.accepted = s.delivered ++ s.ififo.contents

/-- A key finds room in the buffer, or no room and all permits free. -/
def InputOk (s : TtyIn τ) : TtyInEvent τ → Prop
  | .ttyIn _ => s.isem.count < ttyIbufSize → s.ififo.count < s.ififo.size
  | _ => True

omit [DecidableEq τ] in
/-- With permits and characters matched, a get after a wait delivers. -/
theorem TtyInBase.gets {s : TtyIn τ} (h : TtyInBase s)
    (hp : s.isem.count + numberOf ReadPc.holdsPermit s.pc = s.ififo.count) {t : τ}
    (ht : (s.pc t).holdsPermit = true) : ∃ c q, s.ififo.contents = c :: q := by
  have hpos := numberOf_pos h.finite ht
  have hnonneg := h.waits.nonneg
  have hlen := s.ififo.length_contents
  cases hq : s.ififo.contents with
  | nil =>
    rw [hq, List.length_nil] at hlen
    omega
  | cons c q => exact ⟨c, q, rfl⟩

omit [DecidableEq τ] in
theorem TtyInBase.matched {s : TtyIn τ} (h : TtyInBase s)
    (hp : s.isem.count + numberOf ReadPc.holdsPermit s.pc = s.ififo.count)
    (ho : s.accepted = s.delivered ++ s.ififo.contents) : InputMatched s where
  permits := hp
  gets := fun t ht => by
    obtain ⟨c, q, hq⟩ := h.gets hp ht
    obtain ⟨f, hf, -⟩ := ttyFifoGet_ok h.ok hq
    rw [hf]
    rfl
  order := ho

omit [DecidableEq τ] in
theorem ttyInBase_init (ibuf : Nat → UInt8) :
    TtyInBase (ttyInInit ibuf : TtyIn τ) ∧ InputMatched (ttyInInit ibuf : TtyIn τ) := by
  obtain ⟨hok, hq⟩ := ttyFifoInit_ok ibuf (show 0 < ttyIbufSize by decide)
  have hp : numberOf ReadPc.holdsPermit (fun _ : τ => ReadPc.idle) = 0 :=
    numberOf_none fun _ => rfl
  have hbase : TtyInBase (ttyInInit ibuf : TtyIn τ) := by
    refine ⟨hok, rfl, ⟨Int.le_refl 0, by simp [ttyInInit], List.nodup_nil, ?_⟩,
      finitelyMany_none fun _ => rfl, by simp [ttyInInit]⟩
    simp [ttyInInit, ReadPc.isWaiting]
  refine ⟨hbase, hbase.matched ?_ ?_⟩
  · simp [ttyInInit, hp, ttyFifoInit]
  · simp only [ttyInInit, hq]
    rfl

variable {s : TtyIn τ} {t : τ}

/-! ## Keys -/

/-- The notify of `tty_in`: one more unused permit. -/
theorem TtyInBase.notify (h : TtyInBase s) (hlt : s.isem.count < ttyIbufSize) :
    (s.isem.notify).1.Waits ReadPc.isWaiting (wakeReader s.pc s.isem.notify.2) ∧
      FinitelyMany ReadPc.holdsPermit (wakeReader s.pc s.isem.notify.2) ∧
      (s.isem.notify).1.count ≤ ttyIbufSize ∧
      (s.isem.notify).1.count +
        numberOf ReadPc.holdsPermit (wakeReader s.pc s.isem.notify.2) =
      s.isem.count + numberOf ReadPc.holdsPermit s.pc + 1 := by
  have hmax : s.isem.count < intMax := by
    rw [intMax]
    simp only [ttyIbufSize] at hlt
    omega
  cases hl : s.isem.waitList with
  | nil =>
    obtain ⟨hx, hwaits⟩ := h.waits.raised hl hmax
    rw [hx]
    refine ⟨hwaits, h.finite, by dsimp only; omega, ?_⟩
    dsimp only [wakeReader]
    omega
  | cons u rest =>
    obtain ⟨hx, hu, hwaits⟩ := h.waits.woken hl (ReadPc.isWaiting_granted (s.pc u))
    obtain ⟨hold, hnew⟩ := ReadPc.granted_of_waiting hu
    have hn := numberOf_update h.finite u (s.pc u).granted
    rw [hold, hnew, if_neg (by simp), if_pos rfl] at hn
    rw [hx]
    refine ⟨hwaits, h.finite.update u _, h.count_le, ?_⟩
    dsimp only [wakeReader]
    omega

/-- A key keeps permits and characters matched exactly when it is accepted
into the buffer, or not accepted at all. -/
theorem ttyIn_matched_iff (h : TtyInBase s) (hm : InputMatched s) (ch : UInt8) :
    TtyInBase (ttyIn s ch) ∧
      (InputMatched (ttyIn s ch) ↔
        (s.isem.count < ttyIbufSize → s.ififo.count < s.ififo.size)) := by
  unfold ttyIn
  by_cases hfull : s.isem.count ≥ ttyIbufSize
  · rw [if_pos hfull]
    exact ⟨h, iff_of_true hm fun hlt => absurd hlt (by omega)⟩
  rw [if_neg hfull]
  have hlt : s.isem.count < ttyIbufSize := by omega
  obtain ⟨hwaits, hfinite, hle, hcount⟩ := h.notify hlt
  have hp := hm.permits
  by_cases hroom : s.ififo.count < s.ififo.size
  · obtain ⟨f, hf, hok, hq, hsize, hfc⟩ := ttyFifoPut_ok h.ok hroom ch
    simp only [hf, Option.getD_some]
    have hbase : TtyInBase { s with
        ififo := f
        isem := s.isem.notify.1
        pc := wakeReader s.pc s.isem.notify.2
        accepted := s.accepted ++ [ch] } :=
      ⟨hok, hsize.trans h.size, hwaits, hfinite, hle⟩
    refine ⟨hbase, iff_of_true (hbase.matched ?_ ?_) fun _ => hroom⟩
    · dsimp only
      omega
    · simp [hq, hm.order]
  · -- the put fails and the permit is given out all the same
    simp only [ttyFifoPut_full (Nat.le_of_not_lt hroom), Option.getD_none]
    refine ⟨⟨h.ok, h.size, hwaits, hfinite, hle⟩,
      iff_of_false (fun hbad => ?_) fun hc => hroom (hc hlt)⟩
    have hbadp := hbad.permits
    dsimp only at hbadp
    omega

/-! ## Readers -/

/-- A step that takes no permit and no character. -/
theorem TtyInBase.move (h : TtyInBase s) (hm : InputMatched s) {x : ReadPc}
    (hwait : (s.pc t).isWaiting = false) (hwait' : x.isWaiting = false)
    (hpermit : (s.pc t).holdsPermit = false) (hpermit' : x.holdsPermit = false) (inputLen : Int) :
    TtyInBase { s with pc := Function.update s.pc t x, inputLen := inputLen } ∧
      InputMatched { s with pc := Function.update s.pc t x, inputLen := inputLen } := by
  have hbase : TtyInBase { s with pc := Function.update s.pc t x, inputLen := inputLen } :=
    ⟨h.ok, h.size, h.waits.step hwait hwait', h.finite.update t x, h.count_le⟩
  refine ⟨hbase, hbase.matched ?_ hm.order⟩
  have hn := numberOf_update h.finite t x
  rw [hpermit, hpermit'] at hn
  have hp := hm.permits
  dsimp only
  omega

/-- The head of the loop of `tty_read`, with the wait. -/
theorem TtyInBase.start (h : TtyInBase s) (hm : InputMatched s) {size : Int} {kept : List UInt8}
    {junk : UInt8} (hpc : s.pc t = .start size kept) :
    ∃ s', ttyInStep s (.step t junk) = some s' ∧ TtyInBase s' ∧ InputMatched s' := by
  have hp := hm.permits
  have hw : (s.pc t).isWaiting = false := by rw [hpc]; rfl
  simp only [ttyInStep, hpc]
  by_cases hlen : (kept.length : Int) < size
  · rw [if_pos hlen]
    by_cases hpos : s.isem.count > 0
    · have hmax : s.isem.count ≤ intMax := by
        have hle := h.count_le
        rw [intMax]
        simp only [ttyIbufSize] at hle
        omega
      obtain ⟨hx, hwaits⟩ := h.waits.granted (a := .get size kept) hpos hmax hw rfl
      have hn := numberOf_update h.finite t (.get size kept)
      simp only [hpc, ReadPc.holdsPermit, Bool.false_eq_true, if_false, if_true] at hn
      rw [hx]
      dsimp only
      rw [if_pos rfl]
      have hbase : TtyInBase { s with
          isem := { s.isem with count := s.isem.count - 1 }
          pc := Function.update s.pc t (.get size kept) } := by
        refine ⟨h.ok, h.size, hwaits, h.finite.update t _, ?_⟩
        have hle := h.count_le
        dsimp only
        omega
      refine ⟨_, rfl, hbase, hbase.matched ?_ hm.order⟩
      dsimp only
      omega
    · obtain ⟨hx, hwaits⟩ := h.waits.blocked (a := .waiting size kept) hpos hw rfl
      have hn := numberOf_update h.finite t (.waiting size kept)
      simp only [hpc, ReadPc.holdsPermit, Bool.false_eq_true, if_false] at hn
      rw [hx]
      dsimp only
      rw [if_neg (by simp)]
      have hbase : TtyInBase { s with
          isem := { s.isem with waitList := s.isem.waitList ++ [t] }
          pc := Function.update s.pc t (.waiting size kept) } :=
        ⟨h.ok, h.size, hwaits, h.finite.update t _, h.count_le⟩
      refine ⟨_, rfl, hbase, hbase.matched ?_ hm.order⟩
      dsimp only
      omega
  · rw [if_neg hlen]
    exact ⟨_, rfl, h.move hm hw rfl (by rw [hpc]; rfl) rfl _⟩

/-- The get of a reader with a permit. -/
theorem TtyInBase.get (h : TtyInBase s) (hm : InputMatched s) {size : Int} {kept : List UInt8}
    {junk : UInt8} (hpc : s.pc t = .get size kept) :
    ∃ s', ttyInStep s (.step t junk) = some s' ∧ TtyInBase s' ∧ InputMatched s' := by
  have hp := hm.permits
  obtain ⟨c, q, hq⟩ := h.gets hp (t := t) (by rw [hpc]; rfl)
  obtain ⟨f, hf, hok, hfq, hsize, hcount⟩ := ttyFifoGet_ok h.ok hq
  have hn := numberOf_update h.finite t (.char c size kept)
  simp only [hpc, ReadPc.holdsPermit, Bool.false_eq_true, if_false, if_true] at hn
  simp only [ttyInStep, hpc, hf]
  have hbase : TtyInBase { s with
      ififo := f
      delivered := s.delivered ++ [c]
      pc := Function.update s.pc t (.char c size kept) } :=
    ⟨hok, hsize.trans h.size, h.waits.step (by rw [hpc]; rfl) rfl, h.finite.update t _, h.count_le⟩
  refine ⟨_, rfl, hbase, hbase.matched ?_ ?_⟩
  · dsimp only
    omega
  · simp [hm.order, hq, hfq]

theorem ttyInStep_matched_iff (s : TtyIn τ) (e : TtyInEvent τ) (s' : TtyIn τ) (h : TtyInBase s)
    (hm : InputMatched s) (hs : ttyInStep s e = some s') :
    TtyInBase s' ∧ (InputMatched s' ↔ InputOk s e) := by
  -- every step but a key keeps permits and characters matched
  have hkeep : InputOk s e →
      (∃ s', ttyInStep s e = some s' ∧ TtyInBase s' ∧ InputMatched s') →
      TtyInBase s' ∧ (InputMatched s' ↔ InputOk s e) := by
    rintro hok ⟨s'', hs'', hb, hm'⟩
    obtain rfl : s'' = s' := Option.some.inj (hs''.symm.trans hs)
    exact ⟨hb, iff_of_true hm' hok⟩
  cases e with
  | ttyIn ch =>
    obtain rfl := Option.some.inj hs
    exact ttyIn_matched_iff h hm ch
  | call t size =>
    refine hkeep trivial ?_
    cases hpc : s.pc t with
    | idle =>
      simp only [ttyInStep, hpc]
      by_cases hneg : size < 0
      · exact ⟨s, if_pos hneg, h, hm⟩
      · exact ⟨_, if_neg hneg, h.move hm (by rw [hpc]; rfl) rfl (by rw [hpc]; rfl) rfl _⟩
    | _ => simp [ttyInStep, hpc] at hs
  | step t junk =>
    refine hkeep trivial ?_
    cases hpc : s.pc t with
    | idle => simp [ttyInStep, hpc] at hs
    | start size kept => exact h.start hm hpc
    | waiting size kept => simp [ttyInStep, hpc] at hs
    | get size kept => exact h.get hm hpc
    | char ch size kept =>
      simp only [ttyInStep, hpc]
      refine ⟨_, rfl, h.move hm (by rw [hpc]; rfl) ?_ (by rw [hpc]; rfl) ?_ _⟩
      · split <;> rfl
      · split <;> rfl
    | echo ch size kept =>
      simp only [ttyInStep, hpc]
      refine ⟨_, rfl, h.move hm (by rw [hpc]; rfl) ?_ (by rw [hpc]; rfl) ?_ _⟩
      · split <;> rfl
      · split <;> rfl

/-- In every interleaving of keys and any number of readers, permits and
characters are matched in all states exactly when no key finds the buffer full
while `isem.count` is below its size. -/
theorem tty_input_matched_iff (ibuf : Nat → UInt8) (es : List (TtyInEvent τ)) :
    (∀ fs s, fs <+: es → run ttyInStep (ttyInInit ibuf : TtyIn τ) fs = some s → InputMatched s) ↔
      Along ttyInStep InputOk (ttyInInit ibuf : TtyIn τ) es := by
  obtain ⟨hbase, hm⟩ := ttyInBase_init (τ := τ) ibuf
  refine always_iff_along (fun s e hs => ?_) ttyInStep_matched_iff hbase hm
  cases e with
  | ttyIn ch => exact absurd hs (by simp [ttyInStep])
  | call t size => trivial
  | step t junk => trivial

end

/-- A reader waits; 513 keys arrive before it runs again. -/
def lateReaderRun : List (TtyInEvent Nat) :=
  [.call 0 1, .step 0 0] ++ List.replicate 513 (.ttyIn 97)

/-- After `lateReaderRun` the buffer holds 512 characters, but there are 512
free permits and one in the hand of the reader; the last key is lost. -/
theorem late_reader_overflows :
    ∃ s, run ttyInStep (ttyInInit fun _ => 0) lateReaderRun = some s ∧
      s.isem.count = 512 ∧ (s.pc 0).holdsPermit = true ∧ s.ififo.count = 512 ∧
      ¬InputMatched s := by
  have hrun : (run ttyInStep (ttyInInit fun _ => 0) lateReaderRun).any (fun s =>
      s.isem.count = 512 ∧ (s.pc 0).holdsPermit = true ∧ s.ififo.count = 512 ∧
        s.accepted.length = 513 ∧ s.delivered.length = 0) = true := by
    decide +kernel
  obtain ⟨s, hr, hs⟩ := (Option.any_eq_true ..).mp hrun
  obtain ⟨hcount, hpc, hfifo, haccepted, hdelivered⟩ := of_decide_eq_true hs
  refine ⟨s, hr, hcount, hpc, hfifo, fun hm => ?_⟩
  have hlen := congrArg List.length hm.order
  rw [List.length_append, s.ififo.length_contents] at hlen
  omega

end Wjos
