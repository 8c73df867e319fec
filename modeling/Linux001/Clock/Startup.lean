import Linux001.Clock.Mktime

/-!
# The time at startup

The model of `time_init` of `init/main.c`. The clock answers one read after the other; its registers
have two decimal digits in a byte. `time_init` takes 1 off the month before it decodes it, so that
10 becomes 15, and `kernel_mktime` reads behind the end of its table.

## Main definitions

* `timeInit`: the function, for a clock and a number of rounds of its loop.
* `registers`: the clock holds a date and time.
* `Correct`: the value is the number of seconds since the epoch.

## Main results

* `timeInit_registers`: the fields that `kernel_mktime` gets.
* `timeInit_iff`: the value is correct if and only if the month is not October.
-/

namespace Linux001.Clock

open Calendar

/-- `BCD_TO_BIN(val)`. The remainder and the quotient are `val & 15` and `val >> 4`. -/
def bcdToBin (val : ℤ) : ℤ := val % 16 + val / 16 * 10

/-- The `do` loop of `time_init` from the access `k` on. `cmos k r` is what `CMOS_READ(r)` returns
as the access `k`. -/
def readClock (cmos : ℕ → ℕ → ℕ) : ℕ → ℕ → Option Tm
  | 0, _ => none
  | rounds + 1, k =>
    let time : Tm := {
      sec := cmos k 0
      min := cmos (k + 1) 2
      hour := cmos (k + 2) 4
      mday := cmos (k + 3) 7
      mon := cmos (k + 4) 8 - 1
      year := cmos (k + 5) 9 }
    if time.sec ≠ cmos (k + 6) 0 then readClock cmos rounds (k + 7) else some time

/-- `time_init()`: the value of `startup_time`. -/
def timeInit (cmos : ℕ → ℕ → ℕ) (rounds : ℕ) : Option ℤ := do
  let time ← readClock cmos rounds 0
  kernelMktime {
    sec := bcdToBin time.sec
    min := bcdToBin time.min
    hour := bcdToBin time.hour
    mday := bcdToBin time.mday
    mon := bcdToBin time.mon
    year := bcdToBin time.year }

/-- A byte with two decimal digits. -/
def bcd (n : ℕ) : ℕ := 16 * (n / 10) + n % 10

/-- The registers of a clock that holds a date and time. -/
def registers (t : Moment) : ℕ → ℕ
  | 0 => bcd t.second
  | 2 => bcd t.minute
  | 4 => bcd t.hour
  | 7 => bcd t.date.day
  | 8 => bcd (t.date.month + 1)
  | 9 => bcd (t.date.year % 100)
  | _ => 0

/-- The value is the number of seconds from the epoch to the date and time. -/
def Correct (t : Moment) (startupTime : Option ℤ) : Prop :=
  ∃ n : ℕ, Moment.tick^[n] epoch = t ∧ startupTime = some (n : ℤ)

variable {t : Moment} {cmos : ℕ → ℕ → ℕ}

theorem bcdToBin_bcd (n : ℕ) : bcdToBin (bcd n) = n := by
  unfold bcdToBin bcd
  omega

/-- The month, except for October. -/
theorem bcdToBin_month {m : ℕ} (hm : m < 12) :
    bcdToBin ((bcd (m + 1) : ℕ) - 1) = if m = 9 then 15 else (m : ℤ) := by
  unfold bcdToBin bcd
  split_ifs <;> omega

/-- The loop ends after its first round if the clock stands. -/
theorem readClock_registers (t : Moment) (rounds k : ℕ) :
    readClock (fun _ => registers t) (rounds + 1) k = some {
      sec := bcd t.second
      min := bcd t.minute
      hour := bcd t.hour
      mday := bcd t.date.day
      mon := (bcd (t.date.month + 1) : ℕ) - 1
      year := bcd (t.date.year % 100) } :=
  if_neg (not_not.mpr rfl)

theorem timeInit_registers (hy : 1970 ≤ t.date.year) (hy' : t.date.year ≤ 1999) (rounds : ℕ) :
    timeInit (fun _ => registers t) (rounds + 1) = kernelMktime { Tm.ofMoment t with
      mon := if t.date.month = 9 then 15 else (t.date.month : ℤ) } := by
  have hyear : ((t.date.year % 100 : ℕ) : ℤ) = t.date.year - 1900 := by omega
  rw [timeInit, readClock_registers, Option.bind_eq_bind, Option.bind_some,
    bcdToBin_month t.date.month_lt,
    bcdToBin_bcd, bcdToBin_bcd, bcdToBin_bcd, bcdToBin_bcd, bcdToBin_bcd, hyear]
  rfl

/-- The table of `kernel_mktime` ends before the month 15. -/
theorem kernelMktime_of_month {tm : Tm} (h : tm.mon = 15) : kernelMktime tm = none := by
  have hmonth : monthAt tm.mon = none := by rw [h]; rfl
  rw [kernelMktime, hmonth]
  simp only [Option.bind_eq_bind, Option.bind_none, Option.bind_fun_none]

theorem range_of_year (hy : 1970 ≤ t.date.year) (hy' : t.date.year ≤ 1999) :
    epoch ≤ t ∧ t ≤ lastSecond := by
  constructor
  · have hdays := daysBefore_mono hy
    have hfirst := daysBefore_eq 1970
    refine Moment.number_strictMono.le_iff_le.mp ?_
    rw [epoch_number, Moment.number, Date.number]
    generalize daysBefore 1970 = n at hdays hfirst
    omega
  · by_contra hlt
    have hyear : 2038 ≤ t.date.year := Date.year_mono (Moment.date_mono (not_le.mp hlt).le)
    omega

/-- **`time_init` computes the number of seconds from the epoch to the date and time of the clock,
if and only if the month is not October.** -/
theorem timeInit_iff (hy : 1970 ≤ t.date.year) (hy' : t.date.year ≤ 1999) (rounds : ℕ) :
    Correct t (timeInit (fun _ => registers t) (rounds + 1)) ↔ t.date.month ≠ 9 := by
  rw [timeInit_registers hy hy']
  constructor
  · rintro ⟨n, -, hvalue⟩ hoctober
    rw [kernelMktime_of_month (if_pos hoctober)] at hvalue
    cases hvalue
  · intro hmonth
    obtain ⟨hfirst, hlast⟩ := range_of_year hy hy'
    rw [if_neg hmonth]
    exact ⟨_, Moment.exists_tick hfirst, kernelMktime_ofMoment hfirst hlast⟩

/-- 1991-09-17 12:00:00. -/
def september : Moment := ⟨⟨1991, 8, 17, by omega, by omega, by decide⟩, 12, 0, 0, by omega,
    sixty_pos, sixty_pos⟩

theorem timeInit_iff_september : 1970 ≤ september.date.year ∧ september.date.year ≤ 1999 ∧
    Correct september (timeInit (fun _ => registers september) 1) := by
  have hy : 1970 ≤ september.date.year := by decide
  have hy' : september.date.year ≤ 1999 := by decide
  exact ⟨hy, hy', (timeInit_iff hy hy' 0).mpr (by decide)⟩

/-- 1991-10-05 12:00:00. -/
def october : Moment := ⟨⟨1991, 9, 5, by omega, by omega, by decide⟩, 12, 0, 0, by omega,
    sixty_pos, sixty_pos⟩

theorem not_correct_october : ¬Correct october (timeInit (fun _ => registers october) 1) := by
  rintro ⟨n, -, hvalue⟩
  have hnone : timeInit (fun _ => registers october) 1 = none := by decide
  rw [hnone] at hvalue
  cases hvalue

end Linux001.Clock
