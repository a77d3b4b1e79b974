/-
Wjos.Lib.Calendar — the proleptic Gregorian calendar in UTC.

A year is a block of days and a month a block of days of its year; each
block starts where the one before it ends (`Consecutive`). The civil
formula adds the start of the year, the start of the month and the day,
and scales to seconds since 1970-01-01 00:00:00. `Civil.stamp_lt` says
that a later date and time has the larger number of seconds.
-/
import Mathlib.Tactic.Common
import Mathlib.Tactic.IntervalCases

namespace Wjos.Lib

/-! ## Consecutive blocks -/

/-- Block `i` starts at `start i` and is `len i` long; the next one
follows without a gap. -/
def Consecutive (start len : Nat → Nat) : Prop := ∀ i, start (i + 1) = start i + len i

namespace Consecutive

variable {start len : Nat → Nat} {i j r s : Nat}

theorem le (h : Consecutive start len) (hij : i ≤ j) : start i ≤ start j := by
  induction hij with
  | refl => exact Nat.le_refl _
  | step _ ih => rw [h]; omega

/-- A place inside a block lies before every later block. -/
theorem lt (h : Consecutive start len) (hij : i < j) (hr : r < len i) :
    start i + r < start j := by
  have hle : start (i + 1) ≤ start j := h.le hij
  rw [h] at hle
  omega

end Consecutive

namespace Calendar

/-! ## Years and months -/

/-- Every fourth year, except the centuries that 400 does not divide. -/
def isLeap (y : Nat) : Bool := y % 4 == 0 && y % 100 != 0 || y % 400 == 0

def yearLength (y : Nat) : Nat := if isLeap y then 366 else 365

/-- The length of month `m` (0 is January) of year `y`. -/
def monthLength (y m : Nat) : Nat :=
  if m = 1 ∧ isLeap y then 29 else [31, 28, 31, 30, 31, 30, 31, 31, 30, 31, 30, 31].getD m 0

theorem monthLength_le (y : Nat) {m : Nat} (h : m < 12) : monthLength y m ≤ 31 := by
  unfold monthLength
  split
  · decide
  · interval_cases m <;> decide

/-- Days from the first day of year 0 to the first day of year `y`. -/
def yearStart (y : Nat) : Nat := 365 * y + (y + 3) / 4 - (y + 99) / 100 + (y + 399) / 400

/-- Days from the first day of year `y` to the first day of its month `m`. -/
def monthStart (y : Nat) : Nat → Nat
  | 0 => 0
  | m + 1 => monthStart y m + monthLength y m

/-- Multiples of `n` below `y + 1`: those below `y`, and `y` if it is one. -/
theorem multiples_succ (y n : Nat) :
    (y + 1 + n) / (n + 1) = (y + n) / (n + 1) + if y % (n + 1) = 0 then 1 else 0 := by
  have hs : y + 1 + n = y + n + 1 := by omega
  have hd : (n + 1) ∣ (y + n + 1) ↔ y % (n + 1) = 0 := by
    rw [Nat.add_assoc, Nat.dvd_iff_mod_eq_zero, Nat.add_mod_right]
  rw [hs, Nat.succ_div]
  simp only [hd]

theorem yearStart_consecutive : Consecutive yearStart yearLength := by
  intro y
  have h4 := multiples_succ y 3
  have h100 := multiples_succ y 99
  have h400 := multiples_succ y 399
  have hle : (y + 99) / 100 ≤ 365 * y := by omega
  have h1 : y % 100 = 0 → y % 4 = 0 := by omega
  have h2 : y % 400 = 0 → y % 100 = 0 := by omega
  simp only [yearStart, yearLength, isLeap, h4, h100, h400, Bool.or_eq_true, Bool.and_eq_true,
    beq_iff_eq, bne_iff_ne, Nat.reduceAdd]
  generalize (y + 3) / 4 = a at *
  generalize (y + 99) / 100 = b at *
  generalize (y + 399) / 400 = c at *
  split <;> split <;> split <;> split <;> omega

theorem monthStart_consecutive (y : Nat) : Consecutive (monthStart y) (monthLength y) :=
  fun _ => rfl

/-- Twelve months are the year. -/
theorem monthStart_twelve (y : Nat) : monthStart y 12 = yearLength y := by
  unfold yearLength
  split <;> rename_i h <;> simp [monthStart, monthLength, h]

/-! ## Dates and times -/

/-- A date and a time of day; `month` counts from 0, `mday` from 1. -/
structure Civil where
  year : Nat
  month : Nat
  mday : Nat
  hour : Nat
  min : Nat
  sec : Nat
deriving DecidableEq, Repr

namespace Civil

/-- The date is in the calendar and the time on the clock. -/
structure Valid (c : Civil) : Prop where
  month : c.month < 12
  mday_pos : 1 ≤ c.mday
  mday_le : c.mday ≤ monthLength c.year c.month
  hour : c.hour < 24
  min : c.min < 60
  sec : c.sec < 60

/-- The zero-based day of the year. -/
def yday (c : Civil) : Nat := monthStart c.year c.month + (c.mday - 1)

/-- Seconds of the day that have passed. -/
def clock (c : Civil) : Nat := 3600 * c.hour + 60 * c.min + c.sec

/-- Seconds since 1970-01-01 00:00:00 UTC. -/
def stamp (c : Civil) : Int :=
  86400 * ((yearStart c.year + c.yday : Int) - yearStart 1970) + c.clock

/-- Earlier: the first field that differs is the smaller one. -/
def Before (a b : Civil) : Prop :=
  a.year < b.year ∨ a.year = b.year ∧
    (a.month < b.month ∨ a.month = b.month ∧
      (a.mday < b.mday ∨ a.mday = b.mday ∧
        (a.hour < b.hour ∨ a.hour = b.hour ∧
          (a.min < b.min ∨ a.min = b.min ∧ a.sec < b.sec))))

/-- The day of the week, from Sunday = 1. -/
def weekday (c : Civil) : Nat := (yearStart c.year + c.yday + 6) % 7 + 1

/-- One second later. -/
def tick (c : Civil) : Civil :=
  if c.sec + 1 < 60 then { c with sec := c.sec + 1 }
  else if c.min + 1 < 60 then { c with min := c.min + 1, sec := 0 }
  else if c.hour + 1 < 24 then { c with hour := c.hour + 1, min := 0, sec := 0 }
  else if c.mday + 1 ≤ monthLength c.year c.month then
    { c with mday := c.mday + 1, hour := 0, min := 0, sec := 0 }
  else if c.month + 1 < 12 then ⟨c.year, c.month + 1, 1, 0, 0, 0⟩
  else ⟨c.year + 1, 0, 1, 0, 0, 0⟩

variable {a b c : Civil}

theorem Valid.clock_lt (h : c.Valid) : c.clock < 86400 := by
  have := h.hour
  have := h.min
  have := h.sec
  unfold clock
  omega

theorem Valid.yday_lt (h : c.Valid) : c.yday < yearLength c.year := by
  have hm := h.mday_pos
  have hl := h.mday_le
  rw [← monthStart_twelve]
  exact (monthStart_consecutive c.year).lt h.month (by omega)

/-- A later time of day is more seconds into the day. -/
theorem clock_lt_of (ha : a.Valid) (h : a.hour < b.hour ∨ a.hour = b.hour ∧
    (a.min < b.min ∨ a.min = b.min ∧ a.sec < b.sec)) : a.clock < b.clock := by
  have := ha.min
  have := ha.sec
  unfold clock
  omega

/-- A later date and time is more seconds away from the epoch. -/
theorem stamp_lt (ha : a.Valid) (h : a.Before b) : a.stamp < b.stamp := by
  have hca := ha.clock_lt
  rcases h with hy | ⟨hy, hm | ⟨hm, hd | ⟨hd, hc⟩⟩⟩
  · have hday : yearStart a.year + a.yday < yearStart b.year :=
      yearStart_consecutive.lt hy ha.yday_lt
    unfold stamp
    omega
  · have hday : a.yday < b.yday := by
      have hlt := (monthStart_consecutive a.year).lt hm (r := a.mday - 1) (by
        have := ha.mday_pos
        have := ha.mday_le
        omega)
      unfold yday
      rw [← hy]
      omega
    unfold stamp
    rw [hy]
    omega
  · have hday : a.yday < b.yday := by
      have := ha.mday_pos
      unfold yday
      rw [hy, hm]
      omega
    unfold stamp
    rw [hy]
    omega
  · have hlt := clock_lt_of ha hc
    unfold stamp yday
    rw [hy, hm, hd]
    omega

theorem monthLength_pos (y m : Nat) (h : m < 12) : 0 < monthLength y m := by
  unfold monthLength
  interval_cases m <;> split <;> decide

/-- The seconds of the minute are the same a whole number of minutes later. -/
theorem sec_eq (h : c.Valid) : (c.sec : Int) = c.stamp % 60 := by
  have := h.sec
  unfold stamp clock
  omega

/-- The days that have passed, with those of the years before. -/
theorem stamp_eq (c : Civil) :
    c.stamp = 86400 * ((yearStart c.year + c.yday : Nat) - yearStart 1970) + c.clock := by
  simp [stamp]

/-- Midnight a day later: the clock has gone round. -/
theorem stamp_midnight {d : Civil}
    (hday : yearStart d.year + d.yday = yearStart c.year + c.yday + 1) (hd : d.clock = 0)
    (hc : c.clock + 1 = 86400) : d.stamp = c.stamp + 1 := by
  rw [stamp_eq, stamp_eq, hday, hd]
  omega

theorem Valid.tick (h : c.Valid) : c.tick.Valid := by
  obtain ⟨hmonth, hpos, hle, hhour, hmin, hsec⟩ := h
  have hzero : ∀ n, 0 < n + 1 := Nat.zero_lt_succ
  unfold Civil.tick
  split
  next => exact ⟨hmonth, hpos, hle, hhour, hmin, by assumption⟩
  split
  next => exact ⟨hmonth, hpos, hle, hhour, by assumption, hzero 59⟩
  split
  next => exact ⟨hmonth, hpos, hle, by assumption, hzero 59, hzero 59⟩
  split
  next hday => exact ⟨hmonth, Nat.succ_pos _, hday, hzero 23, hzero 59, hzero 59⟩
  split
  next hnext =>
    have hlen := monthLength_pos c.year (c.month + 1) hnext
    exact ⟨hnext, Nat.le_refl _, hlen, hzero 23, hzero 59, hzero 59⟩
  next =>
    have hlen := monthLength_pos (c.year + 1) 0 (hzero 11)
    exact ⟨hzero 11, Nat.le_refl _, hlen, hzero 23, hzero 59, hzero 59⟩

/-- A tick is a second. -/
theorem tick_stamp (h : c.Valid) : c.tick.stamp = c.stamp + 1 := by
  obtain ⟨hmonth, hpos, hle, hhour, hmin, hsec⟩ := h
  unfold Civil.tick
  split
  next =>
    simp only [stamp, yday, clock]
    omega
  split
  next =>
    simp only [stamp, yday, clock]
    omega
  split
  next =>
    simp only [stamp, yday, clock]
    omega
  have hclock : c.clock + 1 = 86400 := by
    unfold clock
    omega
  split
  next =>
    refine stamp_midnight ?_ rfl hclock
    simp only [yday]
    omega
  have hlast : c.mday = monthLength c.year c.month := by omega
  split
  next =>
    refine stamp_midnight ?_ rfl hclock
    simp only [yday, monthStart_consecutive c.year c.month]
    omega
  next =>
    have hdec : c.month = 11 := by omega
    have hyear := monthStart_twelve c.year
    rw [monthStart_consecutive c.year 11, ← hdec, ← hlast] at hyear
    refine stamp_midnight ?_ rfl hclock
    simp only [yday, yearStart_consecutive c.year, monthStart]
    omega

/-- So many ticks are so many seconds. -/
theorem tick_iterate (h : c.Valid) (n : Nat) :
    (Civil.tick^[n] c).Valid ∧ (Civil.tick^[n] c).stamp = c.stamp + n := by
  induction n with
  | zero => exact ⟨h, (Int.add_zero _).symm⟩
  | succ n ih =>
    rw [Function.iterate_succ_apply']
    refine ⟨ih.1.tick, ?_⟩
    rw [tick_stamp ih.1, ih.2]
    omega

theorem year_le_tick (c : Civil) : c.year ≤ c.tick.year := by
  unfold Civil.tick
  repeat' split
  all_goals simp

theorem year_le_iterate (c : Civil) (n : Nat) : c.year ≤ (Civil.tick^[n] c).year := by
  induction n with
  | zero => exact Nat.le_refl _
  | succ n ih =>
    rw [Function.iterate_succ_apply']
    exact ih.trans (year_le_tick _)

end Civil

end Calendar

end Wjos.Lib
