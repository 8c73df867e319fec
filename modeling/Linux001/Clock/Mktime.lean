import Linux001.Lib.Calendar
import Linux001.Lib.Sizes
import Mathlib.Tactic.NormNum
import Mathlib.Tactic.Ring

/-!
# `kernel_mktime`

The model of `kernel/mktime.c`. An `int` and a `long` are signed numbers of 32 bits; a sum, a
difference or a product that is none, and an entry of `month` that does not exist, have no value.

The number of leap years is a quotient, and the table `month` is the one of a leap year; a day is
taken off in the others after February.

## Main definitions

* `Tm`, `kernelMktime`: `struct tm` and the function.
* `Tm.ofMoment`: the fields of a date and time.

## Main results

* `kernelMktime_ofMoment`: the value up to the last second of 31 bits.
* `kernelMktime_gregorian`: it is the number of seconds since the epoch.
-/

namespace Linux001.Clock

open Calendar

/-- The fields of `struct tm` that are read. -/
structure Tm where
  sec : ℤ
  min : ℤ
  hour : ℤ
  mday : ℤ
  mon : ℤ
  year : ℤ
  deriving DecidableEq

/-- The value of a sum, a difference or a product, unless it overflows. -/
def checked (x : ℤ) : Option ℤ := if -2 ^ 31 ≤ x ∧ x < 2 ^ 31 then some x else none

def MINUTE : ℤ := 60
def HOUR : ℤ := 60 * MINUTE
def DAY : ℤ := 24 * HOUR
def YEAR : ℤ := 365 * DAY

/-- The table `month`, in which the year is a leap year. -/
def month : List ℤ := [
  0,
  DAY * 31,
  DAY * (31 + 29),
  DAY * (31 + 29 + 31),
  DAY * (31 + 29 + 31 + 30),
  DAY * (31 + 29 + 31 + 30 + 31),
  DAY * (31 + 29 + 31 + 30 + 31 + 30),
  DAY * (31 + 29 + 31 + 30 + 31 + 30 + 31),
  DAY * (31 + 29 + 31 + 30 + 31 + 30 + 31 + 31),
  DAY * (31 + 29 + 31 + 30 + 31 + 30 + 31 + 31 + 30),
  DAY * (31 + 29 + 31 + 30 + 31 + 30 + 31 + 31 + 30 + 31),
  DAY * (31 + 29 + 31 + 30 + 31 + 30 + 31 + 31 + 30 + 31 + 30)]

/-- `month[i]`. -/
def monthAt (i : ℤ) : Option ℤ := if 0 ≤ i then month[i.toNat]? else none

/-- `if (tm->tm_mon>1 && ((year+2)%4)) res -= DAY;` -/
def adjust (mon year res : ℤ) : Option ℤ :=
  if 1 < mon then do
    let y ← checked (year + 2)
    if y.tmod 4 ≠ 0 then checked (res - DAY) else some res
  else some res

/-- `kernel_mktime(tm)`. -/
def kernelMktime (tm : Tm) : Option ℤ := do
  let year ← checked (tm.year - 70)
  let years ← checked (YEAR * year)
  let y ← checked (year + 1)
  let leaps ← checked (DAY * y.tdiv 4)
  let res ← checked (years + leaps)
  let m ← monthAt tm.mon
  let res ← checked (res + m)
  let res ← adjust tm.mon year res
  let day ← checked (tm.mday - 1)
  let days ← checked (DAY * day)
  let res ← checked (res + days)
  let hours ← checked (HOUR * tm.hour)
  let res ← checked (res + hours)
  let minutes ← checked (MINUTE * tm.min)
  let res ← checked (res + minutes)
  checked (res + tm.sec)

/-- The fields for a date and time. -/
def Tm.ofMoment (t : Moment) : Tm :=
  ⟨t.second, t.minute, t.hour, t.date.day, t.date.month, t.date.year - 1900⟩

theorem sixty_pos : 0 < 60 := by decide

/-- 1970-01-01 00:00:00. -/
def epoch : Moment where
  date := ⟨1970, 0, 1, by omega, by omega, daysIn_pos ..⟩
  hour := 0
  minute := 0
  second := 0
  hour_lt := by omega
  minute_lt := sixty_pos
  second_lt := sixty_pos

/-- 2038-01-19 03:14:07. -/
def lastSecond : Moment where
  date := ⟨2038, 0, 19, by omega, by omega, by decide⟩
  hour := 3
  minute := 14
  second := 7
  hour_lt := by omega
  minute_lt := by omega
  second_lt := by omega

variable {t u : Moment}

/-! ### The parts of the sum -/

theorem checked_eq {x : ℤ} (h : -2 ^ 31 ≤ x) (h' : x < 2 ^ 31) : checked x = some x :=
  if_pos ⟨h, h'⟩

theorem year_eq : YEAR = 31536000 := rfl

theorem day_eq : DAY = 86400 := rfl

theorem hour_eq : HOUR = 3600 := rfl

theorem minute_eq : MINUTE = 60 := rfl

/-- The table is the one of a leap year. -/
theorem monthAt_eq (y : ℕ) {m : ℕ} (hm : m < 12) :
    monthAt m = some (DAY * (monthsBefore y m + if 1 < m ∧ ¬IsLeap y then 1 else 0 : ℕ)) := by
  by_cases hleap : IsLeap y
  · interval_cases m <;> simp [monthAt, month, monthsBefore, daysIn, hleap, day_eq]
  · interval_cases m <;> simp [monthAt, month, monthsBefore, daysIn, hleap, day_eq]

/-- The leap years of the range are those that 4 divides. -/
theorem isLeap_iff {y : ℕ} (h : 1970 ≤ y) (h' : y ≤ 2038) : IsLeap y ↔ y % 4 = 0 := by
  unfold IsLeap
  omega

theorem adjust_eq {y m : ℕ} {res : ℤ} (h : 1970 ≤ y) (h' : y ≤ 2038) (hres : 0 ≤ res)
    (hlt : res < 2 ^ 31) :
    adjust m (y - 1970) res = some (res - DAY * (if 1 < m ∧ ¬IsLeap y then 1 else 0 : ℕ)) := by
  have htmod : ((y : ℤ) - 1970 + 2).tmod 4 = (y % 4 : ℕ) := by
    rw [Int.tmod_eq_emod_of_nonneg (by omega)]
    omega
  have hleap := isLeap_iff h h'
  unfold adjust
  rw [checked_eq (x := (y : ℤ) - 1970 + 2) (by omega) (by omega), day_eq]
  by_cases hm : 1 < m
  · rw [if_pos (by omega)]
    change (if ((y : ℤ) - 1970 + 2).tmod 4 ≠ 0 then checked (res - 86400) else some res) = _
    rw [htmod]
    by_cases hy : IsLeap y
    · have hzero := hleap.mp hy
      rw [hzero, Nat.cast_zero, if_neg (not_not.mpr rfl), if_neg fun hc => hc.2 hy, Nat.cast_zero,
        mul_zero, sub_zero]
    · have hne : ((y % 4 : ℕ) : ℤ) ≠ 0 := fun h0 => hy (hleap.mpr (Int.ofNat_eq_zero.mp h0))
      rw [if_pos hne, if_pos ⟨hm, hy⟩, checked_eq (by omega) (by omega)]
      rfl
  · rw [if_neg (by omega), if_neg fun hc => hm hc.1, Nat.cast_zero, mul_zero, sub_zero]

theorem monthsBefore_le {y m : ℕ} (hm : m < 12) : monthsBefore y m ≤ 335 := by
  have hmono := monthsBefore_mono y (Nat.le_of_lt_succ hm)
  refine hmono.trans ?_
  simp only [monthsBefore, daysIn]
  split_ifs <;> omega

theorem le_monthsBefore {y m : ℕ} (hm : 1 < m) : 59 ≤ monthsBefore y m := by
  have hmono := monthsBefore_mono y (Nat.succ_le_of_lt hm)
  refine le_trans ?_ hmono
  simp only [monthsBefore, daysIn]
  split_ifs <;> omega

/-- The sum of all parts does not overflow before its end. -/
theorem kernelMktime_eq {y m d h i s : ℕ} (hy : 1970 ≤ y) (hy' : y ≤ 2038) (hm : m < 12)
    (hd : 0 < d)
    (hmax : 31536000 * (y - 1970) + 86400 * ((y - 1969) / 4) + 86400 * monthsBefore y m +
      86400 * (d - 1) + 3600 * h + 60 * i + s < 2 ^ 31) :
    kernelMktime ⟨s, i, h, d, m, y - 1900⟩ = some ((31536000 * (y - 1970) +
      86400 * ((y - 1969) / 4) + 86400 * monthsBefore y m + 86400 * (d - 1) + 3600 * h +
        60 * i + s :
        ℕ) : ℤ) := by
  have hmonths := monthsBefore_le (y := y) hm
  have hyear : (y : ℤ) - 1900 - 70 = y - 1970 := by ring
  have hleaps : ((y : ℤ) - 1970 + 1).tdiv 4 = ((y - 1969) / 4 : ℕ) := by
    rw [Int.tdiv_eq_ediv_of_nonneg (by omega)]
    omega
  set k : ℕ := if 1 < m ∧ ¬IsLeap y then 1 else 0 with hk
  -- The table has a day too much in the years that are not leap years.
  have hday : k = 0 ∨ k = 1 ∧ 59 ≤ monthsBefore y m := by
    by_cases hc : 1 < m ∧ ¬IsLeap y
    · exact .inr ⟨if_pos hc, le_monthsBefore hc.1⟩
    · exact .inl (if_neg hc)
  rw [kernelMktime]
  simp only [hyear, year_eq, day_eq, hour_eq, minute_eq, Option.bind_eq_bind]
  rw [checked_eq (by omega) (by omega), Option.bind_some, checked_eq (by omega) (by omega),
    Option.bind_some, checked_eq (by omega) (by omega), Option.bind_some, hleaps,
    checked_eq (by omega) (by omega), Option.bind_some, checked_eq (by omega) (by omega),
    Option.bind_some, monthAt_eq y hm, Option.bind_some, ← hk, day_eq,
    checked_eq (by omega) (by omega), Option.bind_some, adjust_eq hy hy' (by omega) (by omega),
    Option.bind_some, ← hk, day_eq]
  rw [checked_eq (by omega) (by omega), Option.bind_some, checked_eq (by omega) (by omega),
    Option.bind_some, checked_eq (by omega) (by omega), Option.bind_some,
    checked_eq (by omega) (by omega), Option.bind_some, checked_eq (by omega) (by omega),
    Option.bind_some, checked_eq (by omega) (by omega), Option.bind_some,
    checked_eq (by omega) (by omega), Option.bind_some, checked_eq (by omega) (by omega)]
  congr 1
  omega

/-! ### The sum -/

theorem number_january {y : ℕ} (hy : t.date.year = y) (hm : t.date.month = 0) : t.number =
    86400 * (daysBefore y + (t.date.day - 1)) + 3600 * t.hour + 60 * t.minute + t.second := by
  rw [Moment.number, Date.number, hy, hm, monthsBefore, Nat.add_zero]

theorem epoch_number : epoch.number = 62167219200 := by
  have hdays := daysBefore_eq 1970
  have hday : epoch.date.day = 1 := rfl
  have hhour : epoch.hour = 0 := rfl
  have hminute : epoch.minute = 0 := rfl
  have hsecond : epoch.second = 0 := rfl
  rw [number_january (y := 1970) rfl rfl, hday, hhour, hminute, hsecond]
  omega

theorem lastSecond_number : lastSecond.number = 64314702847 := by
  have hdays := daysBefore_eq 2038
  have hday : lastSecond.date.day = 19 := rfl
  have hhour : lastSecond.hour = 3 := rfl
  have hminute : lastSecond.minute = 14 := rfl
  have hsecond : lastSecond.second = 7 := rfl
  rw [number_january (y := 2038) rfl rfl, hday, hhour, hminute, hsecond]
  generalize daysBefore 2038 = n at hdays ⊢
  omega


/-- The seconds since the epoch, from the parts of the sum. -/
theorem number_sub_epoch (h : epoch ≤ t) (h' : t ≤ lastSecond) : 1970 ≤ t.date.year ∧
    t.date.year ≤ 2038 ∧ t.number - epoch.number < 2 ^ 31 ∧ t.number - epoch.number =
      31536000 * (t.date.year - 1970) + 86400 * ((t.date.year - 1969) / 4) +
        86400 * monthsBefore t.date.year t.date.month + 86400 * (t.date.day - 1) + 3600 * t.hour +
          60 * t.minute + t.second := by
  have hfirst := Moment.number_strictMono.monotone h
  have hlast := Moment.number_strictMono.monotone h'
  have hyear : 1970 ≤ t.date.year := Date.year_mono (Moment.date_mono h)
  have hyear' : t.date.year ≤ 2038 := Date.year_mono (Moment.date_mono h')
  have hdays : daysBefore t.date.year =
      719528 + 365 * (t.date.year - 1970) + (t.date.year - 1969) / 4 := by
    have hclosed := daysBefore_eq t.date.year
    omega
  have hpos := t.date.day_pos
  have hnumber : t.number = 86400 * (daysBefore t.date.year + monthsBefore t.date.year
      t.date.month +
      (t.date.day - 1)) + 3600 * t.hour + 60 * t.minute + t.second := rfl
  rw [lastSecond_number] at hlast
  rw [epoch_number] at hfirst ⊢
  refine ⟨hyear, hyear', by omega, ?_⟩
  rw [hnumber, hdays]
  omega

/-- `kernel_mktime` counts the seconds since the epoch, up to the last number of 31 bits. -/
theorem kernelMktime_ofMoment (h : epoch ≤ t) (h' : t ≤ lastSecond) :
    kernelMktime (.ofMoment t) = some ((t.number - epoch.number : ℕ) : ℤ) := by
  obtain ⟨hyear, hyear', hlt, heq⟩ := number_sub_epoch h h'
  rw [heq] at hlt ⊢
  exact kernelMktime_eq hyear hyear' t.date.month_lt t.date.day_pos hlt

/-! ### Main theorem -/

/-- **The value of `kernel_mktime` is the number of seconds from the epoch to the date and time, and
it is greater for later ones.** Nothing overflows. -/
theorem kernelMktime_gregorian (h : epoch ≤ t) (h' : t ≤ lastSecond) :
    (∃ n : ℕ, Moment.tick^[n] epoch = t ∧ kernelMktime (.ofMoment t) = some (n : ℤ)) ∧
      ∀ u, t < u → u ≤ lastSecond → ∃ m n : ℤ, kernelMktime (.ofMoment t) = some m ∧
        kernelMktime (.ofMoment u) = some n ∧ m < n := by
  refine ⟨⟨_, Moment.exists_tick h, kernelMktime_ofMoment h h'⟩, fun u hu hlast => ?_⟩
  refine ⟨_, _, kernelMktime_ofMoment h h', kernelMktime_ofMoment (h.trans hu.le) hlast, ?_⟩
  have hfirst := Moment.number_strictMono.monotone h
  have hlater := Moment.number_strictMono hu
  omega

/-- The last second. -/
theorem kernelMktime_gregorian_lastSecond : epoch ≤ lastSecond ∧
    ∃ n : ℕ, Moment.tick^[n] epoch = lastSecond ∧ kernelMktime (.ofMoment lastSecond) =
      some (n : ℤ) := by
  have hle : epoch ≤ lastSecond := by decide
  exact ⟨hle, (kernelMktime_gregorian hle le_rfl).1⟩

end Linux001.Clock
