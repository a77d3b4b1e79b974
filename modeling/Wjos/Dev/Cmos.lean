/-
Wjos.Dev.Cmos — the date and time from the clock chip (kernel/dev/time.c,
`cmos_read` to `time_init`).

The chip keeps a date and time and goes on by a second whenever it likes;
`timeStep` interleaves that with the port accesses of `time_read_bcd`, which
reads eight registers one after the other and starts again when the second has
changed meanwhile. `TimeInv` says what the values mean that have been read: the
second is that of a moment `since` ticks ago, and when there was no tick since
then, all of them are of that moment.

`time_init_moment`: what `time_init` stores is the number of seconds of the
moment at which the last register was read, as long as no pass takes a minute.
`accesses_le`: a pass is made again only for a tick.

Translation notes. A register holds its number in the code that `bin_to_bcd`
makes. The chip does not show half an update. The log line is left out.
-/
import Wjos.Dev.TimeTheorems
import Wjos.Lib.Run

namespace Wjos.Dev

open Wjos.Lib
open Wjos.Lib.Calendar

/-! ## The chip -/

def CMOS_ADDR : Nat := 0x70
def CMOS_DATA : Nat := 0x71
def CMOS_NMI : UInt8 := 0x80

/-- The registers that `time_read_bcd` reads. -/
inductive CmosReg where
  | second | minute | hour | weekday | day | month | year | century
  deriving DecidableEq

/-- `CMOS_SECOND` to `CMOS_CENTURY`. -/
def cmosAddr : CmosReg → UInt8
  | .second => 0x00
  | .minute => 0x02
  | .hour => 0x04
  | .weekday => 0x06
  | .day => 0x07
  | .month => 0x08
  | .year => 0x09
  | .century => 0x32

/-- `time_read_bcd` reads them in this order. -/
def readOrder : List CmosReg :=
  [.second, .minute, .hour, .weekday, .day, .month, .year, .century]

/-- `bcd_to_bin`. -/
def bcdToBin (value : UInt8) : UInt8 := (value &&& (0xf : UInt8)) + (value >>> (4 : UInt8)) * 10

/-- `bin_to_bcd`. -/
def binToBcd (value : UInt8) : UInt8 := value / 10 * 0x10 + value % 10

/-- The number that a register shows. -/
def regOf (c : Civil) : CmosReg → Nat
  | .second => c.sec
  | .minute => c.min
  | .hour => c.hour
  | .weekday => c.weekday
  | .day => c.mday
  | .month => c.month + 1
  | .year => c.year % 100
  | .century => c.year / 100

/-- The chip: the address that is selected, and its date and time. -/
structure Cmos where
  index : UInt8
  now : Civil

/-- `outb(CMOS_ADDR, v)`: the top bit holds the NMI back. -/
def Cmos.outb (m : Cmos) (v : UInt8) : Cmos := { m with index := v &&& 0x7F }

/-- `inb(CMOS_DATA)`. -/
def Cmos.inb (m : Cmos) : UInt8 :=
  match readOrder.find? (cmosAddr · == m.index) with
  | some r => binToBcd (regOf m.now r).toUInt8
  | none => 0

/-! ## `time_read` and `time_init` -/

/-- The `tm_t` and the global `century`. -/
structure CmosTime where
  time : Tm
  century : Int

/-- The place that a register is read to. -/
def CmosTime.get (t : CmosTime) : CmosReg → Int
  | .second => t.time.tmSec
  | .minute => t.time.tmMin
  | .hour => t.time.tmHour
  | .weekday => t.time.tmWday
  | .day => t.time.tmMday
  | .month => t.time.tmMon
  | .year => t.time.tmYear
  | .century => t.century

def CmosTime.put (t : CmosTime) (v : Int) : CmosReg → CmosTime
  | .second => { t with time := { t.time with tmSec := v } }
  | .minute => { t with time := { t.time with tmMin := v } }
  | .hour => { t with time := { t.time with tmHour := v } }
  | .weekday => { t with time := { t.time with tmWday := v } }
  | .day => { t with time := { t.time with tmMday := v } }
  | .month => { t with time := { t.time with tmMon := v } }
  | .year => { t with time := { t.time with tmYear := v } }
  | .century => { t with century := v }

/-- Before the two port accesses of a `cmos_read`, or out of the loop. `todo`
are the registers that are left of the pass; behind them the second is read
again. -/
inductive TimePc where
  | addr (todo : List CmosReg)
  | data (todo : List CmosReg)
  | back
  deriving DecidableEq

/-- `since` counts the ticks since the second was read. -/
structure TimeRead where
  cmos : Cmos
  raw : CmosTime
  pc : TimePc
  since : Nat

/-- The register that is next. -/
def nextReg (todo : List CmosReg) : CmosReg := todo.headD .second

inductive TimeEvent where
  | access
  | tick
  deriving DecidableEq

/-- A port access of `time_read_bcd`, or a tick of the chip. -/
def timeStep (s : TimeRead) : TimeEvent → Option TimeRead
  | .access =>
    match s.pc with
    | .addr todo =>
      some { s with cmos := s.cmos.outb (CMOS_NMI ||| cmosAddr (nextReg todo)), pc := .data todo }
    | .data (r :: todo) =>
      some { s with
        raw := s.raw.put s.cmos.inb.toNat r
        pc := .addr todo
        since := if r = .second then 0 else s.since }
    | .data [] =>
      if s.raw.time.tmSec ≠ s.cmos.inb.toNat then some { s with pc := .addr readOrder, since := 0 }
      else some { s with pc := .back }
    | .back => none
  | .tick => some { s with cmos := { s.cmos with now := s.cmos.now.tick }, since := s.since + 1 }

/-- `time_read_bcd` is called. -/
def timeCall (cmos : Cmos) (raw : CmosTime) : TimeRead := ⟨cmos, raw, .addr readOrder, 0⟩

/-- `get_yday`. -/
def getYday (time : Tm) : Int :=
  let res := month time.tmMon.toNat + time.tmMday
  let year := mktimeYear time
  if (year + 2).tmod 4 ≠ 0 ∧ 2 < time.tmMon then res - 1 else res

/-- `bcd_to_bin` of a field. -/
def bcdField (v : Int) : Int := (bcdToBin (UInt8.ofInt v)).toNat

/-- `time_read` behind `time_read_bcd`. -/
def timeRead (raw : CmosTime) : CmosTime :=
  let time : Tm :=
    { raw.time with
      tmSec := bcdField raw.time.tmSec
      tmMin := bcdField raw.time.tmMin
      tmHour := bcdField raw.time.tmHour
      tmWday := bcdField raw.time.tmWday
      tmMday := bcdField raw.time.tmMday
      tmMon := bcdField raw.time.tmMon
      tmYear := bcdField raw.time.tmYear }
  ⟨{ time with tmYday := getYday time, tmIsdst := -1 }, bcdField raw.century⟩

/-- `startup_time`, when `time_init` has set it. -/
def timeInit (s : TimeRead) : Option Int :=
  if s.pc = .back then some (sysMktime (timeRead s.raw).time) else none

/-! ## The numbers -/

/-- `bcd_to_bin` takes back what `bin_to_bcd` makes of two digits. -/
theorem bcdToBin_binToBcd {n : Nat} (h : n < 100) : bcdToBin (binToBcd n.toUInt8) = n.toUInt8 := by
  have hall : ∀ n : Fin 100, bcdToBin (binToBcd n.val.toUInt8) = n.val.toUInt8 := by
    decide +kernel
  exact hall ⟨n, h⟩

/-- What a register shows is the number that `time_read` makes of it. -/
theorem bcdField_binToBcd {n : Nat} (h : n < 100) :
    bcdField ((binToBcd n.toUInt8).toNat : Nat) = n := by
  have hof : ∀ v : UInt8, UInt8.ofInt (v.toNat : Nat) = v := fun v => by
    have hv : ((v.toNat : Int) % 2 ^ 8).toNat = v.toNat := by
      have := v.toNat_lt
      omega
    rw [UInt8.ofInt, hv, UInt8.ofNat_toNat]
  have hn : n.toUInt8.toNat = n := Nat.mod_eq_of_lt (by omega)
  rw [bcdField, hof, bcdToBin_binToBcd h, hn]

/-- A register has two digits. -/
theorem regOf_lt {c : Civil} (hc : c.Valid) (hy : c.year < 10000) (r : CmosReg) :
    regOf c r < 100 := by
  have hday := hc.mday_le.trans (monthLength_le c.year hc.month)
  have := hc.month
  have := hc.hour
  have := hc.min
  have := hc.sec
  cases r <;> simp only [regOf, Civil.weekday] <;> omega

/-- The address that is written selects the register. -/
theorem outb_index (m : Cmos) (r : CmosReg) :
    (m.outb (CMOS_NMI ||| cmosAddr r)).index = cmosAddr r := by
  cases r <;> rfl

theorem inb_eq {m : Cmos} {r : CmosReg} (h : m.index = cmosAddr r) :
    m.inb = binToBcd (regOf m.now r).toUInt8 := by
  unfold Cmos.inb
  rw [h]
  cases r <;> rfl

@[simp] theorem CmosTime.get_put_self (t : CmosTime) (v : Int) (r : CmosReg) :
    (t.put v r).get r = v := by
  cases r <;> rfl

theorem CmosTime.get_put_of_ne (t : CmosTime) (v : Int) {r q : CmosReg} (h : q ≠ r) :
    (t.put v r).get q = t.get q := by
  cases r <;> cases q <;> first | rfl | exact absurd rfl h

/-! ## What has been read -/

/-- The code of what register `r` shows at `c`. -/
def codeOf (c : Civil) (r : CmosReg) : Int := (binToBcd (regOf c r).toUInt8).toNat

theorem codeOf_inj {c d : Civil} {r : CmosReg} (hc : regOf c r < 100) (hd : regOf d r < 100)
    (h : codeOf c r = codeOf d r) : regOf c r = regOf d r := by
  have hback := bcdField_binToBcd hc
  rw [codeOf, codeOf] at h
  rw [h, bcdField_binToBcd hd] at hback
  exact Int.ofNat_inj.mp hback.symm

/-- The chip comes to `c` from `c₀`. -/
def Reached (c₀ c : Civil) : Prop := ∃ k, Civil.tick^[k] c₀ = c

/-- The registers `done` have been read: the second at `m`, `since` ticks ago,
and without a tick since then the others show `m` as well. -/
structure ReadSince (c₀ m : Civil) (done : List CmosReg) (now : Civil) (raw : CmosTime)
    (since : Nat) : Prop where
  reached : Reached c₀ m
  now_eq : Civil.tick^[since] m = now
  second : raw.get .second = codeOf m .second
  calm : since = 0 → ∀ r ∈ done, raw.get r = codeOf m r

/-- What the values mean in the course of a pass. -/
def PassInv (c₀ : Civil) (todo : List CmosReg) (now : Civil) (raw : CmosTime) (since : Nat) :
    Prop :=
  ∃ done, done ++ todo = readOrder ∧ (done = [] ∨ ∃ m, ReadSince c₀ m done now raw since)

/-- The reader and the chip, which stood at `c₀` when `time_read_bcd` was
called. -/
def TimeInv (c₀ : Civil) (s : TimeRead) : Prop :=
  Reached c₀ s.cmos.now ∧
    match s.pc with
    | .addr todo => PassInv c₀ todo s.cmos.now s.raw s.since
    | .data todo =>
      s.cmos.index = cmosAddr (nextReg todo) ∧ PassInv c₀ todo s.cmos.now s.raw s.since
    | .back => True

section

variable {s s' : TimeRead} {c₀ m now : Civil} {raw : CmosTime} {since : Nat}
  {done todo : List CmosReg} {r : CmosReg}

theorem Reached.tick (h : Reached c₀ now) : Reached c₀ now.tick := by
  obtain ⟨k, rfl⟩ := h
  exact ⟨k + 1, Function.iterate_succ_apply' ..⟩

theorem Reached.valid (h : Reached c₀ now) (h₀ : c₀.Valid) : now.Valid := by
  obtain ⟨k, rfl⟩ := h
  exact (Civil.tick_iterate h₀ k).1

theorem Reached.year_le (h : Reached c₀ now) : c₀.year ≤ now.year := by
  obtain ⟨k, rfl⟩ := h
  exact Civil.year_le_iterate c₀ k

theorem ReadSince.tick (h : ReadSince c₀ m done now raw since) :
    ReadSince c₀ m done now.tick raw (since + 1) :=
  ⟨h.reached, by rw [Function.iterate_succ_apply', h.now_eq], h.second,
    fun hzero => absurd hzero (Nat.succ_ne_zero _)⟩

theorem PassInv.tick (h : PassInv c₀ todo now raw since) :
    PassInv c₀ todo now.tick raw (since + 1) := by
  obtain ⟨done, hdone, hread⟩ := h
  refine ⟨done, hdone, hread.imp_right fun hread => ?_⟩
  obtain ⟨m, hm⟩ := hread
  exact ⟨m, hm.tick⟩

theorem readOrder_nodup : readOrder.Nodup := by decide

/-- The second is read first. -/
theorem PassInv.second (hnow : Reached c₀ now) (h : PassInv c₀ (.second :: todo) now raw since) :
    PassInv c₀ todo now (raw.put (codeOf now .second) .second) 0 := by
  obtain ⟨done, hdone, -⟩ := h
  have hnil : done = [] := by
    cases done with
    | nil => rfl
    | cons r done =>
      have hnodup := hdone ▸ readOrder_nodup
      have hr : r = .second := (List.cons_eq_cons.mp hdone).1
      rw [hr] at hnodup
      simp at hnodup
  rw [hnil] at hdone
  refine ⟨[.second], hdone, .inr ⟨now, hnow, rfl, CmosTime.get_put_self .., fun _ r hr => ?_⟩⟩
  rw [List.mem_singleton.mp hr, CmosTime.get_put_self]

/-- Another register is read. -/
theorem PassInv.other (hr : r ≠ .second) (h : PassInv c₀ (r :: todo) now raw since) :
    PassInv c₀ todo now (raw.put (codeOf now r) r) since := by
  obtain ⟨done, hdone, hnil | ⟨m, hm⟩⟩ := h
  · rw [hnil] at hdone
    exact absurd (List.cons_eq_cons.mp hdone).1 hr
  · refine ⟨done ++ [r], by simpa using hdone,
      .inr ⟨m, hm.reached, hm.now_eq, ?_, fun hzero q hq => ?_⟩⟩
    · rw [CmosTime.get_put_of_ne _ _ (Ne.symm hr)]
      exact hm.second
    · by_cases hqr : q = r
      · have hnow : m = now := by
          have hnow := hm.now_eq
          rwa [hzero] at hnow
        rw [hqr, CmosTime.get_put_self, hnow]
      · rw [CmosTime.get_put_of_ne _ _ hqr]
        refine hm.calm hzero q ?_
        simpa [hqr] using hq

/-- At the end of a pass all registers are read. -/
theorem PassInv.all (h : PassInv c₀ [] now raw since) :
    ∃ m, ReadSince c₀ m readOrder now raw since := by
  obtain ⟨done, hdone, hread⟩ := h
  rw [List.append_nil] at hdone
  rw [hdone] at hread
  exact hread.resolve_left (by simp [readOrder])

/-- A step keeps it. -/
theorem timeInv_step (h : TimeInv c₀ s) {e : TimeEvent} (hs : timeStep s e = some s') :
    TimeInv c₀ s' := by
  obtain ⟨cmos, raw, pc, since⟩ := s
  obtain ⟨hnow, hpc⟩ := h
  dsimp only at hnow
  cases e with
  | tick =>
    obtain rfl := Option.some.inj hs
    refine ⟨hnow.tick, ?_⟩
    cases pc with
    | addr todo => exact PassInv.tick hpc
    | data todo => exact ⟨hpc.1, hpc.2.tick⟩
    | back => trivial
  | access =>
    cases pc with
    | addr todo =>
      obtain rfl := Option.some.inj hs
      exact ⟨hnow, outb_index _ _, hpc⟩
    | data todo =>
      obtain ⟨hindex, hpass⟩ := hpc
      cases todo with
      | cons r todo =>
        obtain rfl := Option.some.inj hs
        have hcode : ((cmos.inb.toNat : Nat) : Int) = codeOf cmos.now r := by
          rw [inb_eq hindex]
          rfl
        refine ⟨hnow, ?_⟩
        dsimp only
        rw [hcode]
        by_cases hr : r = .second
        · rw [if_pos hr, hr]
          exact (hr ▸ hpass).second hnow
        · rw [if_neg hr]
          exact hpass.other hr
      | nil =>
        simp only [timeStep] at hs
        split at hs
        next =>
          obtain rfl := Option.some.inj hs
          exact ⟨hnow, [], rfl, .inl rfl⟩
        next =>
          obtain rfl := Option.some.inj hs
          exact ⟨hnow, trivial⟩
    | back => simp [timeStep] at hs

theorem timeInv_call (cmos : Cmos) (raw : CmosTime) : TimeInv cmos.now (timeCall cmos raw) :=
  ⟨⟨0, rfl⟩, [], rfl, .inl rfl⟩

/-! ## The end of the loop -/

/-- Out of the loop: the values are those of one moment, and `since` counts the
ticks after it. -/
def Snapshot (c₀ : Civil) (s : TimeRead) : Prop :=
  ∃ m, Reached c₀ m ∧ Civil.tick^[s.since] m = s.cmos.now ∧
    ∀ r ∈ readOrder, s.raw.get r = codeOf m r

/-- In less than a minute the second tells two moments apart. -/
theorem since_eq_zero (hm : m.Valid) (hnow : Civil.tick^[since] m = now) (hlt : since < 60)
    (hsec : codeOf m .second = codeOf now .second) : since = 0 := by
  obtain ⟨hvalid, hstamp⟩ := Civil.tick_iterate hm since
  rw [hnow] at hvalid hstamp
  have h60 := hm.sec
  have h60' := hvalid.sec
  have hc : regOf m .second < 100 := Nat.lt_trans h60 (by decide)
  have hd : regOf now .second < 100 := Nat.lt_trans h60' (by decide)
  have heq : m.sec = now.sec := codeOf_inj hc hd hsec
  have h₁ := Civil.sec_eq hm
  have h₂ := Civil.sec_eq hvalid
  omega

/-- A pass that does not take a minute: `since` stays below 60 until the loop is
left. -/
def Brisk (s : TimeRead) (_ : TimeEvent) : Prop := s.pc ≠ .back → s.since < 60

/-- A step to the end of the loop, or behind it. -/
theorem snapshot_step (h₀ : c₀.Valid) (h : TimeInv c₀ s) (hend : s.pc = .back → Snapshot c₀ s)
    {e : TimeEvent} (hbrisk : Brisk s e) (hs : timeStep s e = some s') (hback : s'.pc = .back) :
    Snapshot c₀ s' := by
  obtain ⟨cmos, raw, pc, since⟩ := s
  obtain ⟨hnow, hpc⟩ := h
  cases e with
  | tick =>
    obtain rfl := Option.some.inj hs
    obtain ⟨m, hm, hsince, hraw⟩ := hend hback
    refine ⟨m, hm, ?_, hraw⟩
    rw [Function.iterate_succ_apply', hsince]
  | access =>
    cases pc with
    | addr todo =>
      obtain rfl := Option.some.inj hs
      simp at hback
    | data todo =>
      obtain ⟨hindex, hpass⟩ := hpc
      cases todo with
      | cons r todo =>
        obtain rfl := Option.some.inj hs
        simp at hback
      | nil =>
        simp only [timeStep] at hs
        split at hs
        next =>
          obtain rfl := Option.some.inj hs
          simp at hback
        next hsame =>
          obtain rfl := Option.some.inj hs
          obtain ⟨m, hm⟩ := hpass.all
          have hcode : raw.time.tmSec = codeOf cmos.now .second := by
            rw [not_not.mp hsame, inb_eq hindex]
            rfl
          have hzero := since_eq_zero (hm.reached.valid h₀) hm.now_eq (hbrisk (by simp))
            (hm.second.symm.trans hcode)
          exact ⟨m, hm.reached, hm.now_eq, hm.calm hzero⟩
    | back => simp [timeStep] at hs

theorem snapshot_run {cmos : Cmos} (h₀ : cmos.now.Valid) {es : List TimeEvent}
    (hbrisk : Along timeStep Brisk (timeCall cmos raw) es)
    (hrun : run timeStep (timeCall cmos raw) es = some s) (hback : s.pc = .back) :
    Snapshot cmos.now s := by
  have hstep : ∀ s e s', (TimeInv cmos.now s ∧ (s.pc = .back → Snapshot cmos.now s)) → Brisk s e →
      timeStep s e = some s' → TimeInv cmos.now s' ∧ (s'.pc = .back → Snapshot cmos.now s') :=
    fun _ _ _ h he hs => ⟨timeInv_step h.1 hs, snapshot_step h₀ h.1 h.2 he hs⟩
  have hcall : (timeCall cmos raw).pc = .back → Snapshot cmos.now (timeCall cmos raw) :=
    fun hb => by simp [timeCall] at hb
  exact (run_invariant_along hstep ⟨timeInv_call cmos raw, hcall⟩ hbrisk hrun).2 hback

/-- No pass takes a minute when all of it does not. -/
theorem brisk_of_count {es : List TimeEvent} :
    ∀ {s : TimeRead}, s.since + es.count .tick < 60 → Along timeStep Brisk s es := by
  induction es with
  | nil => exact fun _ => trivial
  | cons e es ih =>
    intro s hcount
    refine ⟨fun _ => by omega, fun s' hs => ih ?_⟩
    cases e with
    | tick =>
      obtain rfl := Option.some.inj hs
      rw [List.count_cons_self] at hcount
      dsimp only
      omega
    | access =>
      have hsince : s'.since ≤ s.since := by
        simp only [timeStep] at hs
        split at hs
        next => exact (Option.some.inj hs) ▸ Nat.le_refl _
        next =>
          rw [← Option.some.inj hs]
          dsimp only
          split <;> omega
        next =>
          split at hs
          next => exact (Option.some.inj hs) ▸ Nat.zero_le _
          next => exact (Option.some.inj hs) ▸ Nat.le_refl _
        next => simp at hs
      rw [List.count_cons_of_ne (by simp)] at hcount
      omega

/-! ## How long it takes -/

/-- The accesses that are left of a pass. -/
def TimePc.left : TimePc → Nat
  | .addr todo => 2 * todo.length + 2
  | .data todo => 2 * todo.length + 1
  | .back => 0

/-- The accesses that are left, with those of the next pass after a tick. -/
def accessesLeft (s : TimeRead) : Nat := s.pc.left + if s.since = 0 then 0 else 18

theorem count_access : [TimeEvent.access].count .access = 1 ∧ [TimeEvent.access].count .tick = 0 :=
  ⟨rfl, rfl⟩

theorem count_tick : [TimeEvent.tick].count .access = 0 ∧ [TimeEvent.tick].count .tick = 1 :=
  ⟨rfl, rfl⟩

/-- An access takes one off, a tick adds a pass at most. -/
theorem accessesLeft_step (h : TimeInv c₀ s) {e : TimeEvent} (hs : timeStep s e = some s') :
    accessesLeft s' + [e].count .access ≤ accessesLeft s + 18 * [e].count .tick := by
  obtain ⟨cmos, raw, pc, since⟩ := s
  obtain ⟨hnow, hpc⟩ := h
  cases e with
  | tick =>
    obtain rfl := Option.some.inj hs
    rw [count_tick.1, count_tick.2, accessesLeft, if_neg (Nat.succ_ne_zero since), accessesLeft]
    exact Nat.add_le_add_right (Nat.le_add_right _ _) 18
  | access =>
    rw [count_access.1, count_access.2]
    cases pc with
    | addr todo =>
      obtain rfl := Option.some.inj hs
      simp only [accessesLeft, TimePc.left]
      omega
    | data todo =>
      obtain ⟨hindex, hpass⟩ := hpc
      cases todo with
      | cons r todo =>
        obtain rfl := Option.some.inj hs
        simp only [accessesLeft, TimePc.left, List.length_cons]
        by_cases hr : r = .second
        · rw [if_pos hr, if_pos rfl]
          omega
        · rw [if_neg hr]
          omega
      | nil =>
        simp only [timeStep] at hs
        split at hs
        next hdiffer =>
          obtain rfl := Option.some.inj hs
          have hsince : since ≠ 0 := fun hzero => by
            obtain ⟨m, hm⟩ := hpass.all
            have hnow : m = cmos.now := by
              have hnow := hm.now_eq
              rwa [hzero] at hnow
            refine hdiffer (hm.second.trans ?_)
            rw [inb_eq hindex, hnow]
            rfl
          have hnext : accessesLeft ⟨cmos, raw, .addr readOrder, 0⟩ = 18 := rfl
          have hlast : accessesLeft ⟨cmos, raw, .data [], since⟩ = 1 + 18 :=
            congrArg (1 + ·) (if_neg hsince)
          omega
        next =>
          obtain rfl := Option.some.inj hs
          simp only [accessesLeft, TimePc.left, List.length_nil]
          omega
    | back => simp [timeStep] at hs

/-- A pass is made again only for a tick. -/
theorem accesses_le {es : List TimeEvent} : ∀ {s s' : TimeRead}, TimeInv c₀ s →
    run timeStep s es = some s' →
      accessesLeft s' + es.count .access ≤ accessesLeft s + 18 * es.count .tick := by
  induction es with
  | nil =>
    intro s s' _ hrun
    obtain rfl := Option.some.inj hrun
    simp
  | cons e es ih =>
    intro s s' h hrun
    obtain ⟨t, ht, hrest⟩ := run_cons_eq_some.mp hrun
    have hstep := accessesLeft_step h ht
    have hle := ih (timeInv_step h ht) hrest
    have hsplit : ∀ a : TimeEvent, (e :: es).count a = [e].count a + es.count a := fun a =>
      @List.count_append _ _ a [e] es
    rw [hsplit, hsplit]
    omega

end

/-! ## The date and time -/

/-- `get_yday` counts from 1. -/
theorem getYday_eq {time : Tm} {c : Civil} (h : ReadFromCmos time c) :
    getYday time = c.yday + 1 := by
  have h₁ := h.from1970
  have h₂ := h.to2069
  have hm : time.tmMon.toNat = c.month + 1 := by
    have := h.mon
    omega
  have htable := month_eq c.year h.valid.month
  have hpos := h.valid.mday_pos
  have htest : ((mktimeYear time + 2).tmod 4 ≠ 0 ∧ 2 < time.tmMon) ↔
      (1 < c.month ∧ isLeap c.year = false) := by
    rw [isLeap_eq_false_iff h₁ h₂, mktimeYear_eq h, h.mon, Int.tmod_eq_emod_of_nonneg (by omega)]
    omega
  simp only [getYday, htest, hm, h.mday, Civil.yday]
  split at htable
  next hl =>
    rw [if_pos hl]
    omega
  next hl =>
    rw [if_neg hl]
    omega

/-- The `tm_t` of `time_read` and the century for the moment `m`. -/
structure ReadMoment (t : CmosTime) (m : Civil) : Prop where
  read : ReadFromCmos t.time m
  wday : t.time.tmWday = m.weekday
  yday : t.time.tmYday = m.yday + 1
  century : t.century = (m.year / 100 : Nat)

theorem readMoment_of {raw : CmosTime} {m : Civil} (hm : m.Valid) (h₁ : 1970 ≤ m.year)
    (h₂ : m.year ≤ 2069) (hraw : ∀ r ∈ readOrder, raw.get r = codeOf m r) :
    ReadMoment (timeRead raw) m := by
  have hfield : ∀ r, bcdField (raw.get r) = (regOf m r : Nat) := fun r => by
    rw [hraw r (by cases r <;> decide)]
    exact bcdField_binToBcd (regOf_lt hm (by omega) r)
  have hread : ReadFromCmos (timeRead raw).time m :=
    ⟨hm, h₁, h₂, hfield .year, (hfield .month).trans (by simp [regOf]), hfield .day, hfield .hour,
      hfield .minute, hfield .second⟩
  exact ⟨hread, hfield .weekday, getYday_eq ⟨hm, h₁, h₂, hread.year, hread.mon, hread.mday,
    hread.hour, hread.min, hread.sec⟩, hfield .century⟩

/-- `time_init` has the moment of its last register. In every interleaving with
the ticks of the chip, as long as no pass takes a minute: when the loop is left,
`since` ticks ago the chip stood at a moment `m` such that `time_read` gives the
date and time of `m`, and `startup_time` is its number of seconds, less `2^32`
from 2039 on. And there are at most 18 accesses to the ports for each tick, and
18 more. -/
theorem time_init_moment {cmos : Cmos} {raw : CmosTime} (hvalid : cmos.now.Valid)
    (h₁ : 1970 ≤ cmos.now.year) {es : List TimeEvent} {s : TimeRead}
    (hbrisk : Along timeStep Brisk (timeCall cmos raw) es)
    (hrun : run timeStep (timeCall cmos raw) es = some s) (h₂ : s.cmos.now.year ≤ 2069) :
    (∀ startup, timeInit s = some startup → ∃ m : Civil,
      Reached cmos.now m ∧ Civil.tick^[s.since] m = s.cmos.now ∧ ReadMoment (timeRead s.raw) m ∧
        startup = m.stamp - if m.year ≤ 2038 then 0 else 4294967296) ∧
      es.count .access ≤ 18 * (es.count .tick + 1) := by
  refine ⟨fun startup hstartup => ?_, ?_⟩
  · unfold timeInit at hstartup
    split at hstartup
    next hback =>
      obtain ⟨m, hm, hsince, hraw⟩ := snapshot_run hvalid hbrisk hrun hback
      have hyear := Civil.year_le_iterate m s.since
      rw [hsince] at hyear
      have hread := readMoment_of (hm.valid hvalid) (h₁.trans hm.year_le) (hyear.trans h₂) hraw
      refine ⟨m, hm, hsince, hread, ?_⟩
      rw [← Option.some.inj hstartup]
      exact sysMktime_cases hread.read
    next => simp at hstartup
  · have hle := accesses_le (timeInv_call cmos raw) hrun
    have hcall : accessesLeft (timeCall cmos raw) = 18 := rfl
    omega

/-- A second before 1 March 2024. -/
def leapDay : Cmos := ⟨0, 2024, 1, 29, 23, 59, 59⟩

/-- The day ends while the minute is read, so everything is read again. -/
theorem time_init_moment_leapDay : ∃ es s,
    run timeStep (timeCall leapDay ⟨⟨0, 0, 0, 0, 0, 0, 0, 0, 0⟩, 0⟩) es = some s ∧
      timeInit s = some 1709251200 := by
  let es : List TimeEvent := List.replicate 3 .access ++ [.tick] ++ List.replicate 33 .access
  have hvalid : leapDay.now.Valid := by constructor <;> decide
  have hend : (run timeStep (timeCall leapDay ⟨⟨0, 0, 0, 0, 0, 0, 0, 0, 0⟩, 0⟩) es).map
      (fun s => (s.pc, s.since, s.cmos.now)) = some (.back, 0, ⟨2024, 2, 1, 0, 0, 0⟩) := by
    decide +kernel
  obtain ⟨s, hrun, hs⟩ := Option.map_eq_some_iff.mp hend
  simp only [Prod.mk.injEq] at hs
  obtain ⟨hback, hsince, hnow⟩ := hs
  obtain ⟨hmoment, -⟩ := time_init_moment hvalid (by decide) (brisk_of_count (by decide)) hrun
    (by rw [hnow]; decide)
  have hinit : timeInit s = some (sysMktime (timeRead s.raw).time) := if_pos hback
  obtain ⟨m, -, hm, -, hstartup⟩ := hmoment _ hinit
  rw [hsince, hnow] at hm
  have hm : m = ⟨2024, 2, 1, 0, 0, 0⟩ := hm
  refine ⟨es, s, hrun, hinit.trans ?_⟩
  rw [hstartup, hm]
  decide

end Wjos.Dev
