/-
Wjos.Dev.TimeTheorems — the clock's conversions against the civil calendar.

The year loop keeps `yearStart year + days`, the month loop keeps
`monthStart year month + days` wherever its table gives the month's true
length, which is in every year that 400 does not divide. In a year that
400 divides the loop sees twelve months of 29 days, so it is right exactly
while the first of them lasts.

For `sys_mktime` the sum is compared with the civil formula term by term;
only the first product can leave the range of `int`.
-/
import Wjos.Dev.Time

namespace Wjos.Dev

open Wjos.Lib
open Wjos.Lib.Calendar

/-! ## The two loops of fml_stamp_to_time -/

/-- The year loop only moves whole years from `days` to `year`. -/
theorem yearLoop_spec (year days : Nat) (h : year + days / 365 < 65536) :
    yearStart (yearLoop year days).1 + (yearLoop year days).2 = yearStart year + days ∧
      (yearLoop year days).2 < yearLength (yearLoop year days).1 := by
  fun_induction yearLoop year days with
  | case1 year days leap ydays hlt => exact ⟨rfl, hlt⟩
  | case2 year days leap ydays hge ih =>
    have hlen : ydays = yearLength year := rfl
    have h365 : 365 ≤ ydays := by
      unfold ydays
      split <;> omega
    have hnext := yearStart_consecutive year
    rw [Nat.mod_eq_of_lt (by omega)] at ih ⊢
    obtain ⟨hsum, hlast⟩ := ih (by omega)
    refine ⟨?_, hlast⟩
    rw [hsum, hnext]
    omega

/-- The table gives the month its true length. -/
theorem daysInMonth_eq {year : Nat} (h : year % 400 ≠ 0) (m : Nat) :
    (if m == 1 && (year % 4 == 0 && year % 100 != 0) || year % 400 == 0 then 29
      else daysInMonth m) = monthLength year m := by
  have h400 : (year % 400 == 0) = false := by simp [h]
  have hleap : isLeap year = (year % 4 == 0 && year % 100 != 0) := by simp [isLeap, h400]
  rw [h400, ← hleap, Bool.or_false]
  simp [monthLength, daysInMonth]

/-- The month loop only moves whole months from `days` to `month`. -/
theorem monthLoop_spec {year : Nat} (h : year % 400 ≠ 0) (m days : Nat) (hm : m ≤ 12)
    (hd : monthStart year m + days < yearLength year) :
    (monthLoop year m days).1 < 12 ∧
      (monthLoop year m days).2 < monthLength year (monthLoop year m days).1 ∧
      monthStart year (monthLoop year m days).1 + (monthLoop year m days).2
        = monthStart year m + days := by
  fun_induction monthLoop year m days with
  | case1 m days hlt mdays hin =>
    have hlen : mdays = monthLength year m := daysInMonth_eq h m
    exact ⟨hlt, hlen ▸ hin, rfl⟩
  | case2 m days hlt mdays hout ih =>
    have hlen : mdays = monthLength year m := daysInMonth_eq h m
    have hnext := monthStart_consecutive year m
    have hsum : monthStart year (m + 1) + (days - mdays) = monthStart year m + days := by
      omega
    obtain ⟨h12, hlast, hkeep⟩ := ih (by omega) (by omega)
    exact ⟨h12, hlast, hkeep.trans hsum⟩
  | case3 m days hend =>
    have h12 : m = 12 := by omega
    rw [h12, monthStart_twelve] at hd
    omega

/-- In a year that 400 divides every month is taken to have 29 days. -/
theorem monthLoop_400 (year : Nat) (h : year % 400 = 0) (m days : Nat) (hm : m ≤ 12) :
    29 * (monthLoop year m days).1 + (monthLoop year m days).2 = 29 * m + days ∧
      ((monthLoop year m days).2 < 29 ∨ (monthLoop year m days).1 = 12) := by
  fun_induction monthLoop year m days with
  | case1 m days hlt mdays hin =>
    have hlen : mdays = 29 := by simp [mdays, h]
    exact ⟨rfl, .inl (by omega)⟩
  | case2 m days hlt mdays hout ih =>
    have hlen : mdays = 29 := by simp [mdays, h]
    obtain ⟨hkeep, hlast⟩ := ih (by omega)
    exact ⟨by omega, hlast⟩
  | case3 m days hend => exact ⟨rfl, .inr (by omega)⟩

/-! ## fml_stamp_to_time -/

/-- `days` for a timestamp that a `long` holds and that is not negative. -/
theorem u32_tdiv {timep : Int} (h0 : 0 ≤ timep) (h31 : timep < 2147483648) :
    u32 (timep.tdiv 86400) = timep.toNat / 86400 ∧
      u32 (timep.tmod 86400) = timep.toNat % 86400 := by
  obtain ⟨n, rfl⟩ := Int.eq_ofNat_of_zero_le h0
  rw [Int.tdiv_eq_ediv_of_nonneg h0, Int.tmod_eq_emod_of_nonneg h0]
  unfold u32
  omega

/-- The year that the year loop ends in: the days are a day of it, and only
the year 2000 among the reachable ones is divided by 400. -/
structure YearFound (days : Nat) (y : Nat × Nat) : Prop where
  from1970 : 1970 ≤ y.1
  to2038 : y.1 ≤ 2038
  sum : yearStart y.1 + y.2 = 719528 + days
  last : y.2 < yearLength y.1

theorem yearLoop_found (days : Nat) (h : days ≤ 24855) : YearFound days (yearLoop 1970 days) := by
  obtain ⟨hsum, hlast⟩ := yearLoop_spec 1970 days (by omega)
  have h1970 : yearStart 1970 = 719528 := rfl
  rw [h1970] at hsum
  refine ⟨?_, ?_, hsum, hlast⟩
  · by_contra hlt
    have := yearStart_consecutive.lt (Nat.lt_of_not_le hlt) hlast
    omega
  · by_contra hgt
    have hle : yearStart 2039 ≤ yearStart (yearLoop 1970 days).1 :=
      yearStart_consecutive.le (Nat.lt_of_not_le hgt)
    have h2039 : yearStart 2039 = 744730 := rfl
    omega

/-- Where both loops end on the right block, the fields are the date. -/
theorem isUtc_of_month {timep : Int} (h0 : 0 ≤ timep) (h31 : timep < 2147483648)
    {y m : Nat × Nat} (hy : yearLoop 1970 (timep.toNat / 86400) = y)
    (hfound : YearFound (timep.toNat / 86400) y) (hm : monthLoop y.1 0 y.2 = m)
    (h12 : m.1 < 12) (hlen : m.2 < monthLength y.1 m.1)
    (hsum : monthStart y.1 m.1 + m.2 = y.2) : IsUtc (fmlStampToTime timep) timep := by
  obtain ⟨hdays, hrem⟩ := u32_tdiv h0 h31
  have hstart : yearStart 1970 = 719528 := rfl
  have hyear := hfound.sum
  let r := timep.toNat % 86400
  refine ⟨⟨y.1, m.1, m.2 + 1, r / 3600, r % 3600 / 60, r % 3600 % 60⟩, ?_, ?_, ?_⟩
  · constructor <;> simp only <;> omega
  · constructor <;> simp [fmlStampToTime, hdays, hrem, hy, hm, r, Civil.yday, hsum]
  · simp only [Civil.stamp, Civil.yday, Civil.clock, Nat.add_sub_cancel, hsum, hstart, r]
    omega

/-- Outside the years that 400 divides the date is right. -/
theorem isUtc_of_not_400 {timep : Int} (h0 : 0 ≤ timep) (h31 : timep < 2147483648)
    (h400 : (yearLoop 1970 (timep.toNat / 86400)).1 % 400 ≠ 0) :
    IsUtc (fmlStampToTime timep) timep := by
  have hfound := yearLoop_found (timep.toNat / 86400) (by omega)
  obtain ⟨h12, hlen, hsum⟩ := monthLoop_spec h400 0 _ (Nat.zero_le 12)
    (by simpa [monthStart] using hfound.last)
  exact isUtc_of_month h0 h31 rfl hfound rfl h12 hlen (by simpa [monthStart] using hsum)

/-- No later month of the year 2000 starts where the month loop says. -/
theorem monthStart_2000 {m : Nat} (h0 : 0 < m) (h12 : m < 12) : monthStart 2000 m ≠ 29 * m := by
  interval_cases m <;> decide

/-- In the year 2000 the date is right exactly on the first 29 days. -/
theorem isUtc_2000 {timep : Int} (h0 : 0 ≤ timep) (h31 : timep < 2147483648)
    (hy : (yearLoop 1970 (timep.toNat / 86400)).1 = 2000) :
    IsUtc (fmlStampToTime timep) timep ↔ (yearLoop 1970 (timep.toNat / 86400)).2 < 29 := by
  have hfound := yearLoop_found (timep.toNat / 86400) (by omega)
  generalize hyl : yearLoop 1970 (timep.toNat / 86400) = y at hy hfound ⊢
  obtain ⟨hsum, hlast⟩ := monthLoop_400 y.1 (by rw [hy]) 0 y.2 (Nat.zero_le 12)
  generalize hml : monthLoop y.1 0 y.2 = m at hsum hlast
  constructor
  · rintro ⟨c, hvalid, hshows, -⟩
    obtain ⟨hdays, -⟩ := u32_tdiv h0 h31
    have hcy := hshows.year
    have hcm := hshows.mon
    have hcd := hshows.mday
    have hcyd := hshows.yday
    simp only [fmlStampToTime, hdays, hyl, hml] at hcy hcm hcd hcyd
    have hyear : c.year = 2000 := by omega
    have hmon : c.month = m.1 := by omega
    have h12 := hvalid.month
    have hblock : monthStart 2000 m.1 = 29 * m.1 := by
      rw [Civil.yday, hyear, hmon] at hcyd
      omega
    by_contra hge
    exact monthStart_2000 (by omega) (by omega) hblock
  · intro hlt
    have hm : m = (0, y.2) := Prod.ext (by simp only; omega) (by simp only; omega)
    refine isUtc_of_month h0 h31 hyl hfound (hml.trans hm) (by simp) ?_ (by simp [monthStart])
    have h31days : monthLength y.1 0 = 31 := by rw [hy]; rfl
    simp only [h31days]
    omega

/-- The conversion is right before 30 January 2000 and after that year. -/
theorem fmlStampToTime_right_iff (timep : Int) (h0 : 0 ≤ timep) (h31 : timep < 2147483648) :
    IsUtc (fmlStampToTime timep) timep ↔ timep < 949190400 ∨ 978307200 ≤ timep := by
  have hfound := yearLoop_found (timep.toNat / 86400) (by omega)
  have hlo := hfound.from1970
  have hhi := hfound.to2038
  have hsum := hfound.sum
  have hlast := hfound.last
  have h2000 : yearStart 2000 = 730485 := rfl
  have h2001 : yearStart 2001 = 730851 := rfl
  rcases Nat.lt_trichotomy (yearLoop 1970 (timep.toNat / 86400)).1 2000 with hlt | heq | hgt
  · have hbefore := yearStart_consecutive.lt hlt hlast
    exact iff_of_true (isUtc_of_not_400 h0 h31 (by omega)) (.inl (by omega))
  · rw [isUtc_2000 h0 h31 heq]
    rw [heq] at hsum hlast
    have hlen : yearLength 2000 = 366 := rfl
    omega
  · have hafter : yearStart 2001 ≤ yearStart (yearLoop 1970 (timep.toNat / 86400)).1 :=
      yearStart_consecutive.le hgt
    exact iff_of_true (isUtc_of_not_400 h0 h31 (by omega)) (.inr (by omega))

theorem fmlStampToTime_right_iff_march : IsUtc (fmlStampToTime 951868800) 951868800 ↔
    (951868800 : Int) < 949190400 ∨ (978307200 : Int) ≤ 951868800 :=
  fmlStampToTime_right_iff 951868800 (by decide) (by decide)

/-- 1 March 2000 comes out as 3 March. -/
theorem fmlStampToTime_march_2000 :
    ¬ ∀ timep : Int, 0 ≤ timep → timep < 2147483648 → IsUtc (fmlStampToTime timep) timep := by
  intro h
  have hmarch := h 951868800 (by decide) (by decide)
  rw [isUtc_2000 (by decide) (by decide) (by simp [yearLoop])] at hmarch
  simp [yearLoop] at hmarch

/-! ## sys_mktime -/

/-- `year` for the two digits of a calendar year. -/
theorem mktimeYear_eq {time : Tm} {c : Civil} (h : ReadFromCmos time c) :
    mktimeYear time = c.year - 1970 := by
  have hy := h.year
  have := h.from1970
  have := h.to2069
  unfold mktimeYear
  split <;> omega

/-- The table of a leap year, less the day after February in other years. -/
theorem month_eq (y : Nat) {m : Nat} (h : m < 12) :
    month (m + 1) - (if 1 < m ∧ isLeap y = false then 1 else 0) = monthStart y m := by
  cases hl : isLeap y <;> interval_cases m <;> simp [month, monthStart, monthLength, hl]

theorem month_le {m : Nat} (h : m < 12) : 0 ≤ month (m + 1) ∧ month (m + 1) ≤ 335 := by
  interval_cases m <;> decide

/-- From 1970 to 2069 every fourth year is a leap year. -/
theorem isLeap_eq_false_iff {c : Civil} (h₁ : 1970 ≤ c.year) (h₂ : c.year ≤ 2069) :
    isLeap c.year = false ↔ c.year % 4 ≠ 0 := by
  simp only [isLeap, Bool.or_eq_false_iff, Bool.and_eq_false_iff, beq_eq_false_iff_ne,
    bne_eq_false_iff_eq]
  omega

/-- The leap days since 1970 are one for each fourth year passed. -/
theorem yearStart_sub {y : Nat} (h₁ : 1970 ≤ y) (h₂ : y ≤ 2069) :
    (yearStart y : Int) - yearStart 1970 = 365 * ((y : Int) - 1970) + ((y : Int) - 1969) / 4 := by
  have h1970 : yearStart 1970 = 719528 := rfl
  rw [h1970]
  unfold yearStart
  omega

/-- Every product after the first fits an `int`. -/
theorem products_fit {time : Tm} {c : Civil} (h : ReadFromCmos time c) :
    ∀ p ∈ (mktimeProducts time).tail, 0 ≤ p ∧ p ≤ intMax := by
  have hyear := mktimeYear_eq h
  have hmon : time.tmMon.toNat = c.month + 1 := by
    have := h.mon
    omega
  have hmonth := month_le h.valid.month
  have hday := (h.valid.mday_le).trans (monthLength_le c.year h.valid.month)
  have := h.from1970
  have := h.to2069
  have := h.valid.mday_pos
  have := h.valid.hour
  have := h.valid.min
  simp only [mktimeProducts, List.tail_cons, List.forall_mem_cons, List.not_mem_nil,
    false_implies, implies_true, and_true, hyear, hmon, h.mday, h.hour, h.min, DAY, HOUR, MINUTE,
    intMax]
  rw [Int.tdiv_eq_ediv_of_nonneg (by omega)]
  omega

/-- The result is the civil formula, but for what the first product lost. -/
theorem sysMktime_eq {time : Tm} {c : Civil} (h : ReadFromCmos time c) :
    sysMktime time =
      cInt (YEAR * mktimeYear time) - YEAR * mktimeYear time + c.stamp := by
  have hfit : ∀ p ∈ (mktimeProducts time).tail, cInt p = p := fun p hp =>
    cInt_eq (Int.le_trans (by decide) (products_fit h p hp).1) (products_fit h p hp).2
  simp only [mktimeProducts, List.tail_cons, List.forall_mem_cons] at hfit
  obtain ⟨hleap, hmon, hday, hhour, hmin, -⟩ := hfit
  have hyear := mktimeYear_eq h
  have h₁ := h.from1970
  have h₂ := h.to2069
  have hm : time.tmMon.toNat = c.month + 1 := by
    have := h.mon
    omega
  have htable := month_eq c.year h.valid.month
  have hstart := yearStart_sub h₁ h₂
  have hpos := h.valid.mday_pos
  -- the leap year test on `year + 2` is the test on the calendar year
  have htest : (2 < time.tmMon ∧ (mktimeYear time + 2).tmod 4 ≠ 0) ↔
      (1 < c.month ∧ isLeap c.year = false) := by
    rw [isLeap_eq_false_iff h₁ h₂, hyear, h.mon, Int.tmod_eq_emod_of_nonneg (by omega)]
    omega
  have hdiv : (mktimeYear time + 1).tdiv 4 = ((c.year : Int) - 1969) / 4 := by
    rw [hyear, Int.tdiv_eq_ediv_of_nonneg (by omega)]
    congr 1
    omega
  simp only [sysMktime]
  rw [hleap, hmon, hday, hhour, hmin]
  simp only [htest, hdiv, hm, h.mday, h.hour, h.min, h.sec, Civil.stamp, Civil.yday, Civil.clock,
    DAY, HOUR, MINUTE, YEAR]
  rw [hyear]
  split at htable <;> rename_i hl
  · rw [if_pos hl]
    omega
  · rw [if_neg hl]
    omega

theorem mktimeFits_iff {time : Tm} {c : Civil} (h : ReadFromCmos time c) :
    MktimeFits time ↔ c.year ≤ 2038 := by
  have hrest := products_fit h
  have hyear := mktimeYear_eq h
  have := h.from1970
  have hfirst : YEAR * mktimeYear time = 31536000 * ((c.year : Int) - 1970) := by
    rw [hyear]
    rfl
  constructor
  · intro hfit
    have := hfit (YEAR * mktimeYear time) (by simp [mktimeProducts])
    rw [hfirst, intMax] at this
    omega
  · intro hle p hp
    rcases List.mem_cons.mp hp with rfl | hp
    · rw [hfirst, intMax]
      omega
    · exact ⟨Int.le_trans (by decide) (hrest p hp).1, (hrest p hp).2⟩

/-- Through 2038 the result is the civil formula; from 2039 on it is short
of it by the `2^32` that the first product lost. -/
theorem sysMktime_cases {time : Tm} {c : Civil} (h : ReadFromCmos time c) :
    sysMktime time = c.stamp - if c.year ≤ 2038 then 0 else 4294967296 := by
  have heq := sysMktime_eq h
  have hyear := mktimeYear_eq h
  have := h.from1970
  have := h.to2069
  have hfirst : YEAR * mktimeYear time = 31536000 * ((c.year : Int) - 1970) := by
    rw [hyear]
    rfl
  rw [hfirst] at heq
  split
  · rw [cInt_eq (by omega) (by rw [intMax]; omega)] at heq
    omega
  · have hwrap : cInt (31536000 * ((c.year : Int) - 1970)) =
        31536000 * ((c.year : Int) - 1970) - 4294967296 := by
      unfold cInt
      rw [Int.bmod_def]
      omega
    omega

/-- The results lie less than `2^32` seconds apart. -/
theorem stamp_range {time : Tm} {c : Civil} (h : ReadFromCmos time c) :
    0 ≤ c.stamp ∧ c.stamp < 4294967296 := by
  have hsub := yearStart_sub h.from1970 h.to2069
  have hlen : yearLength c.year ≤ 366 := by
    unfold yearLength
    split <;> omega
  have := h.valid.yday_lt
  have := h.valid.clock_lt
  have := h.from1970
  have := h.to2069
  unfold Civil.stamp
  omega

/-- The conversion is exact, and none of its products leaves the range of
`int`, exactly through 2038; a later date gives a larger number unless the
two dates lie on different sides of the end of that year. -/
theorem sysMktime_right_iff {time time' : Tm} {c c' : Civil} (h : ReadFromCmos time c)
    (h' : ReadFromCmos time' c') :
    (sysMktime time = c.stamp ∧ MktimeFits time ↔ c.year ≤ 2038) ∧
    (c.Before c' → (sysMktime time < sysMktime time' ↔ c'.year ≤ 2038 ∨ 2039 ≤ c.year)) := by
  constructor
  · rw [mktimeFits_iff h, sysMktime_cases h]
    split <;> omega
  · intro hb
    have hlt := Civil.stamp_lt h.valid hb
    have hrange := stamp_range h
    have hrange' := stamp_range h'
    have hyears : c.year ≤ c'.year := by
      unfold Civil.Before at hb
      omega
    rw [sysMktime_cases h, sysMktime_cases h']
    split <;> split <;> omega

/-- Midnight of 1 January 2039. -/
def newYear2039 : Civil := ⟨2039, 0, 1, 0, 0, 0⟩

/-- The same as the CMOS gives it. -/
def cmos2039 : Tm := ⟨0, 0, 0, 1, 1, 39, 0, 0, 0⟩

theorem cmos2039_read : ReadFromCmos cmos2039 newYear2039 := by
  constructor <;> first | decide | (constructor <;> decide)

theorem sysMktime_right_iff_2039 : sysMktime cmos2039 = newYear2039.stamp ∧ MktimeFits cmos2039 ↔
    newYear2039.year ≤ 2038 :=
  (sysMktime_right_iff cmos2039_read cmos2039_read).1

/-- The first second of 2039 comes out negative. -/
theorem sysMktime_2039 : ¬ ∀ time c, ReadFromCmos time c →
    sysMktime time = c.stamp ∧ MktimeFits time := by
  intro h
  have hneg := (h cmos2039 newYear2039 cmos2039_read).1
  revert hneg
  decide

end Wjos.Dev
