/-
Wjos.Dev.Time — calendar arithmetic of the kernel clock (kernel/dev/time.c).

`sysMktime` turns the date and time read from the CMOS into seconds since
1970, `fmlStampToTime` turns such a number back into a date. Both are
compared with the civil calendar of `Lib.Calendar`:

* `fml_stamp_to_time` is right outside the year 2000 and in the first 29
  days of it. Its test for a long month reads
  `month == 1 && (…) || (year % 400 == 0)`, and in a year that 400 divides
  the last operand holds for every month.
* `sys_mktime` is right through 2038. `YEAR * year` is a product of two
  `int`s, and from 69 years on it is larger than an `int` holds; the wider
  `time_t` receives the product after it has wrapped.

`time_t` is 64 bits wide on the target, where `long` has 32.
-/
import Wjos.Lib.CInt
import Wjos.Lib.Calendar

namespace Wjos.Dev

open Wjos.Lib
open Wjos.Lib.Calendar

/-- `tm_t` and `struct tm`, which have the same fields. -/
structure Tm where
  tmSec : Int
  tmMin : Int
  tmHour : Int
  tmMday : Int
  tmMon : Int
  tmYear : Int
  tmWday : Int
  tmYday : Int
  tmIsdst : Int
deriving DecidableEq, Repr

/-! ## sys_mktime -/

def MINUTE : Int := 60
def HOUR : Int := 60 * MINUTE
def DAY : Int := 24 * HOUR
def YEAR : Int := 365 * DAY

/-- `month[]`: the days before each month of a leap year; there is no month 0. -/
def month (i : Nat) : Int :=
  [0, 0, 31, 31 + 29, 31 + 29 + 31, 31 + 29 + 31 + 30, 31 + 29 + 31 + 30 + 31,
    31 + 29 + 31 + 30 + 31 + 30, 31 + 29 + 31 + 30 + 31 + 30 + 31,
    31 + 29 + 31 + 30 + 31 + 30 + 31 + 31, 31 + 29 + 31 + 30 + 31 + 30 + 31 + 31 + 30,
    31 + 29 + 31 + 30 + 31 + 30 + 31 + 31 + 30 + 31,
    31 + 29 + 31 + 30 + 31 + 30 + 31 + 31 + 30 + 31 + 30].getD i 0

/-- The local `year`: years since 1970, from the two digits. -/
def mktimeYear (time : Tm) : Int :=
  if 70 ≤ time.tmYear then time.tmYear - 70 else time.tmYear - 70 + 100

/-- `sys_mktime`. Each product is an `int`; `res` is a `time_t`. -/
def sysMktime (time : Tm) : Int :=
  let year := mktimeYear time
  let res := cInt (YEAR * year)
  let res := res + cInt (DAY * (year + 1).tdiv 4)
  let res := res + cInt (month time.tmMon.toNat * DAY)
  let res := if 2 < time.tmMon ∧ (year + 2).tmod 4 ≠ 0 then res - DAY else res
  let res := res + cInt (DAY * (time.tmMday - 1))
  let res := res + cInt (HOUR * time.tmHour)
  let res := res + cInt (MINUTE * time.tmMin)
  res + time.tmSec

/-- The products of `sys_mktime` as whole numbers. -/
def mktimeProducts (time : Tm) : List Int :=
  let year := mktimeYear time
  [YEAR * year, DAY * (year + 1).tdiv 4, month time.tmMon.toNat * DAY,
    DAY * (time.tmMday - 1), HOUR * time.tmHour, MINUTE * time.tmMin]

/-- Every product of `sys_mktime` fits an `int`. -/
def MktimeFits (time : Tm) : Prop :=
  ∀ p ∈ mktimeProducts time, -2147483648 ≤ p ∧ p ≤ intMax

instance (time : Tm) : Decidable (MktimeFits time) := by
  unfold MktimeFits
  exact inferInstance

/-! ## fml_stamp_to_time -/

/-- `for (year = 1970; ; ++year)`: `year` is a `uint16_t`, and every pass
takes at least 365 off `days`. -/
def yearLoop (year days : Nat) : Nat × Nat :=
  let leap := year % 4 == 0 && year % 100 != 0 || year % 400 == 0
  let ydays := if leap then 366 else 365
  if days < ydays then (year, days) else yearLoop ((year + 1) % 65536) (days - ydays)
termination_by days
decreasing_by
  have h365 : 365 ≤ ydays := by
    unfold ydays
    split <;> omega
  change days - ydays < days
  omega

/-- `days_in_month[]`. -/
def daysInMonth (month : Nat) : Nat :=
  [31, 28, 31, 30, 31, 30, 31, 31, 30, 31, 30, 31].getD month 0

/-- `for (month = 0; month < 12; month++)`. In C `&&` binds tighter than
`||`, so the test on the month does not reach the last operand. -/
def monthLoop (year month days : Nat) : Nat × Nat :=
  if month < 12 then
    let mdays :=
      if month == 1 && (year % 4 == 0 && year % 100 != 0) || year % 400 == 0 then 29
      else daysInMonth month
    if days < mdays then (month, days) else monthLoop year (month + 1) (days - mdays)
  else (month, days)
termination_by 12 - month

/-- `fml_stamp_to_time`; `timep` is a `long`, and `/` and `%` round
towards zero before the results are stored in `uint32_t`s. -/
def fmlStampToTime (timep : Int) : Tm :=
  let days := u32 (timep.tdiv 86400)
  let rem := u32 (timep.tmod 86400)
  let y := yearLoop 1970 days
  let m := monthLoop y.1 0 y.2
  { tmYear := (y.1 : Int) - 1900
    tmYday := y.2
    tmWday := y.2 % 7 + 1
    tmMon := m.1
    tmMday := m.2 + 1
    tmHour := (rem / 3600 : Nat)
    tmMin := (rem % 3600 / 60 : Nat)
    tmSec := (rem % 3600 % 60 : Nat)
    tmIsdst := 0 }

/-! ## What the fields should say -/

/-- `struct tm` shows the date and time `c`: years count from 1900. -/
structure Shows (date : Tm) (c : Civil) : Prop where
  year : date.tmYear = c.year - 1900
  mon : date.tmMon = c.month
  mday : date.tmMday = c.mday
  hour : date.tmHour = c.hour
  min : date.tmMin = c.min
  sec : date.tmSec = c.sec
  yday : date.tmYday = c.yday

/-- `date` is the UTC date and time of the timestamp `timep`. -/
def IsUtc (date : Tm) (timep : Int) : Prop :=
  ∃ c : Civil, c.Valid ∧ Shows date c ∧ c.stamp = timep

/-- `tm_t` as the CMOS gives it for `c`: a two-digit year of 1970..2069,
months from 1. -/
structure ReadFromCmos (time : Tm) (c : Civil) : Prop where
  valid : c.Valid
  from1970 : 1970 ≤ c.year
  to2069 : c.year ≤ 2069
  year : time.tmYear = (c.year % 100 : Nat)
  mon : time.tmMon = c.month + 1
  mday : time.tmMday = c.mday
  hour : time.tmHour = c.hour
  min : time.tmMin = c.min
  sec : time.tmSec = c.sec

end Wjos.Dev
