/-
Wjos.Dev.Clock — the time of day from the tick counter (`sys_time` and
`sys_gettimeofday` of kernel/dev/time.c).

`sys_tick` is a `uint32_t` that the timer interrupt counts up every
`OS_TICKS_MS`, and both products with it are 32 bits wide. The seconds are
right until the product `sys_tick * OS_TICKS_MS` wraps, after 49 days. The
microseconds are not: `sys_tick * (1000 / OS_TICKS_MS)` modulo 1000 counts the
last tenth of a second in hundreds, so it stays below 1000, and only the first
two ticks of a second read a time that is less than a tick off. Among those
the pair goes back in one case still: where 2^32 has been taken off the second
product seven times, the remainder of the first tick is 928 and of the next 28.

A tick between the two reads of the counter in one call is not modelled.
-/
import Mathlib.Data.UInt
import Mathlib.Tactic.IntervalCases

namespace Wjos.Dev

def OS_TICKS_MS : UInt32 := 10

/-- `struct timeval`. -/
structure Timeval where
  tvSec : Int64
  tvUsec : Int
deriving DecidableEq, Repr

/-- `sys_time`; `time_t` is 64 bits wide. -/
def sysTime (startupTime : Int64) (sysTick : UInt32) : Int64 :=
  startupTime + Int64.ofNat (sysTick * OS_TICKS_MS / 1000).toNat

/-- `sys_gettimeofday`. -/
def sysGettimeofday (startupTime : Int64) (sysTick : UInt32) : Timeval where
  tvSec := sysTime startupTime sysTick
  tvUsec := (sysTick * (1000 / OS_TICKS_MS) % 1000).toNat

/-- The lexicographic order. -/
def Timeval.le (a b : Timeval) : Prop :=
  a.tvSec.toInt < b.tvSec.toInt ∨ a.tvSec.toInt = b.tvSec.toInt ∧ a.tvUsec ≤ b.tvUsec

/-- The time read at a tick is less than a tick off. -/
def Near (startupTime : Int64) (t : UInt32) : Prop :=
  let tv := sysGettimeofday startupTime t
  |tv.tvSec.toInt * 1000000 + tv.tvUsec - (startupTime.toInt * 1000000 + t.toNat * 10 * 1000)|
    < 10 * 1000

/-- What a clock shows at the ticks `t₁ ≤ t₂`. -/
structure ClockRight (startupTime : Int64) (t₁ t₂ : UInt32) : Prop where
  sec_le : (sysTime startupTime t₁).toInt ≤ (sysTime startupTime t₂).toInt
  le : (sysGettimeofday startupTime t₁).le (sysGettimeofday startupTime t₂)
  usec : ∀ t, t = t₁ ∨ t = t₂ →
    0 ≤ (sysGettimeofday startupTime t).tvUsec ∧ (sysGettimeofday startupTime t).tvUsec < 1000000
  near : ∀ t, t = t₁ ∨ t = t₂ → Near startupTime t

/-- One of the first two ticks of a second, before the product of the seconds
wraps and the sum leaves `time_t`. -/
structure EarlyTick (startupTime : Int64) (t : UInt32) : Prop where
  noWrap : t.toNat * 10 < 4294967296
  early : t.toNat % 100 ≤ 1
  fits : startupTime.toInt + (t.toNat / 100 : Nat) < 9223372036854775808

/-- The two ticks of a second for which the product of the microseconds has
wrapped seven times. -/
def WrapsBack (t₁ t₂ : UInt32) : Prop :=
  t₁.toNat % 100 = 0 ∧ t₂.toNat = t₁.toNat + 1 ∧ t₁.toNat * 100 / 4294967296 = 7

section Clock

variable {startupTime : Int64} {t t₁ t₂ : UInt32}

/-- The seconds that are added. -/
theorem tickSec_eq (t : UInt32) :
    (t * OS_TICKS_MS / 1000).toNat = t.toNat * 10 % 4294967296 / 1000 := by
  rw [UInt32.toNat_div, UInt32.toNat_mul]
  rfl

theorem tvUsec_eq (startupTime : Int64) (t : UInt32) :
    (sysGettimeofday startupTime t).tvUsec = (t.toNat * 100 % 4294967296 % 1000 : Nat) := by
  change ((t * (1000 / OS_TICKS_MS) % 1000).toNat : Int) = _
  rw [UInt32.toNat_mod, UInt32.toNat_mul]
  rfl

/-- The sum of the seconds, or 2^64 less. -/
theorem sysTime_eq (startupTime : Int64) (t : UInt32) :
    (sysTime startupTime t).toInt =
      if startupTime.toInt + (t.toNat * 10 % 4294967296 / 1000 : Nat) < 9223372036854775808 then
        startupTime.toInt + (t.toNat * 10 % 4294967296 / 1000 : Nat)
      else startupTime.toInt + (t.toNat * 10 % 4294967296 / 1000 : Nat) - 18446744073709551616 := by
  have hlow := startupTime.le_toInt
  have hhigh := startupTime.toInt_lt
  have hsec : (t * OS_TICKS_MS / 1000).toNat < 2 ^ 63 := by
    rw [tickSec_eq]
    omega
  rw [sysTime, Int64.toInt_add, Int64.toInt_ofNat_of_lt hsec, tickSec_eq, Int.bmod_def]
  norm_num at hlow hhigh ⊢
  split <;> split <;> omega

/-- In the early ticks the second product leaves no remainder of 0 but for the
first of them. -/
theorem usec_ne_zero (hlt : t.toNat * 10 < 4294967296) (h1 : t.toNat % 100 = 1) :
    t.toNat * 100 % 4294967296 % 1000 ≠ 0 := by
  obtain ⟨a, ha⟩ : ∃ a, a = t.toNat * 100 / 4294967296 := ⟨_, rfl⟩
  have hbound : a < 10 := by omega
  intro h0
  interval_cases a <;> omega

/-- The time read is less than a tick off in the early ticks only. -/
theorem near_iff (startupTime : Int64) (t : UInt32) :
    Near startupTime t ↔ EarlyTick startupTime t := by
  have hsec := sysTime_eq startupTime t
  have husec := tvUsec_eq startupTime t
  have hlow := startupTime.le_toInt
  have hhigh := startupTime.toInt_lt
  norm_num at hlow hhigh
  change |(sysTime startupTime t).toInt * 1000000 + (sysGettimeofday startupTime t).tvUsec -
    (startupTime.toInt * 1000000 + t.toNat * 10 * 1000)| < 10 * 1000 ↔ _
  rw [abs_lt, husec, hsec]
  constructor
  · rintro ⟨hgt, hlt⟩
    -- otherwise 2^32 milliseconds or 2^64 seconds are missing
    have hno : t.toNat * 10 < 4294967296 := by
      split at hgt <;> omega
    rw [Nat.mod_eq_of_lt hno] at hgt hlt
    have hfits : startupTime.toInt + (t.toNat / 100 : Nat) < 9223372036854775808 := by
      split at hgt <;> omega
    have hdiv : t.toNat * 10 / 1000 = t.toNat / 100 := by omega
    have hsmall : t.toNat * 100 % 4294967296 % 1000 < 1000 := Nat.mod_lt _ (by decide)
    rw [hdiv, if_pos hfits] at hgt hlt
    generalize t.toNat * 100 % 4294967296 % 1000 = usec at hgt hlt hsmall
    exact ⟨hno, by omega, hfits⟩
  · rintro ⟨hno, hearly, hfits⟩
    rw [Nat.mod_eq_of_lt hno, if_pos (by omega)]
    rcases Nat.le_one_iff_eq_zero_or_eq_one.mp hearly with h0 | h1
    · omega
    · have hne := usec_ne_zero hno h1
      omega

/-- The seconds of an early tick. -/
theorem EarlyTick.sec (h : EarlyTick startupTime t) :
    (sysTime startupTime t).toInt = startupTime.toInt + (t.toNat / 100 : Nat) := by
  have hno := h.noWrap
  have hfits := h.fits
  rw [sysTime_eq, Nat.mod_eq_of_lt hno, if_pos (by omega)]
  omega

/-- From the first tick of a second to the next the remainder grows, but where
the product has wrapped seven times. -/
theorem usec_le_iff (hno : t₁.toNat * 10 < 4294967296) (h0 : t₁.toNat % 100 = 0)
    (hnext : t₂.toNat = t₁.toNat + 1) :
    t₁.toNat * 100 % 4294967296 % 1000 ≤ t₂.toNat * 100 % 4294967296 % 1000 ↔
      t₁.toNat * 100 / 4294967296 ≠ 7 := by
  obtain ⟨k, hk⟩ : ∃ k, t₁.toNat = 100 * k := ⟨t₁.toNat / 100, by omega⟩
  obtain ⟨a, ha⟩ : ∃ a, a = 10000 * k / 4294967296 := ⟨_, rfl⟩
  have hbound : a < 10 := by omega
  -- no multiple of 2^32 lies between the two products
  have hsame : (10000 * k + 100) / 4294967296 = a := by
    interval_cases a <;> omega
  have hprod₁ : t₁.toNat * 100 = 10000 * k := by omega
  have hprod₂ : t₂.toNat * 100 = 10000 * k + 100 := by omega
  rw [hprod₁, hprod₂, ← ha]
  interval_cases a <;> omega

/-- Of two early ticks the pair of the first is no later than that of the
second. -/
theorem le_iff (h₁ : EarlyTick startupTime t₁) (h₂ : EarlyTick startupTime t₂)
    (hle : t₁.toNat ≤ t₂.toNat) :
    (sysGettimeofday startupTime t₁).le (sysGettimeofday startupTime t₂) ↔ ¬WrapsBack t₁ t₂ := by
  have he₁ := h₁.early
  have he₂ := h₂.early
  change ((sysTime startupTime t₁).toInt < (sysTime startupTime t₂).toInt ∨
    (sysTime startupTime t₁).toInt = (sysTime startupTime t₂).toInt ∧ _ ≤ _) ↔ _
  rw [h₁.sec, h₂.sec, tvUsec_eq, tvUsec_eq, Int.ofNat_le]
  by_cases hnext : t₁.toNat % 100 = 0 ∧ t₂.toNat = t₁.toNat + 1
  · have husec := usec_le_iff h₁.noWrap hnext.1 hnext.2
    have hsame : t₁.toNat / 100 = t₂.toNat / 100 := by omega
    rw [husec, hsame, WrapsBack]
    simp [hnext.1, hnext.2]
  · have hwraps : ¬WrapsBack t₁ t₂ := fun h => hnext ⟨h.1, h.2.1⟩
    refine iff_of_true ?_ hwraps
    rcases Nat.eq_or_lt_of_le hle with heq | hlt
    · rw [heq]
      exact .inr ⟨rfl, Nat.le_refl _⟩
    · left
      omega

end Clock

/-- At two ticks the clock is right exactly if both are early ticks, and not
the pair that wraps. -/
theorem clock_right_iff (startupTime : Int64) (t₁ t₂ : UInt32) (h : t₁ ≤ t₂) :
    ClockRight startupTime t₁ t₂ ↔
      EarlyTick startupTime t₁ ∧ EarlyTick startupTime t₂ ∧ ¬WrapsBack t₁ t₂ := by
  have hle : t₁.toNat ≤ t₂.toNat := UInt32.le_iff_toNat_le.mp h
  constructor
  · intro hr
    have h₁ := (near_iff startupTime t₁).mp (hr.near t₁ (.inl rfl))
    have h₂ := (near_iff startupTime t₂).mp (hr.near t₂ (.inr rfl))
    exact ⟨h₁, h₂, (le_iff h₁ h₂ hle).mp hr.le⟩
  · rintro ⟨h₁, h₂, hwraps⟩
    refine ⟨?_, (le_iff h₁ h₂ hle).mpr hwraps, fun t _ => ?_, ?_⟩
    · rw [h₁.sec, h₂.sec]
      omega
    · rw [tvUsec_eq]
      omega
    · rintro t (rfl | rfl)
      · exact (near_iff startupTime _).mpr h₁
      · exact (near_iff startupTime _).mpr h₂

/-- One second and one tick after the start. -/
theorem clock_right_iff_second :
    ClockRight 0 100 101 ↔ EarlyTick 0 100 ∧ EarlyTick 0 101 ∧ ¬WrapsBack 100 101 :=
  clock_right_iff 0 100 101 (by decide)

/-- Half a second after the start the microseconds are 0. -/
theorem clock_right_iff_half : ¬ClockRight 0 50 50 := by
  intro h
  have hearly := ((near_iff 0 50).mp (h.near 50 (.inl rfl))).early
  exact absurd hearly (by decide)

end Wjos.Dev
