import Mathlib.Data.Prod.Lex
import Mathlib.Logic.Function.Iterate
import Mathlib.Order.Monotone.Basic
import Mathlib.Tactic.IntervalCases

/-!
# The Gregorian calendar

Dates follow each other day by day, and the moments of a day second by second. A date and a moment
have a number, which goes up by one with every step; so the number of steps between two of them is
the difference of their numbers. Months are counted from 0 and days from 1.

## Main definitions

* `Date`, `Date.next`: the dates, and the day after one.
* `Moment`, `Moment.tick`: dates with a time, and the next second.
* `Date.number`, `Moment.number`: the number of days and of seconds before them.

## Main results

* `Date.number_next`, `Moment.number_tick`: the next number.
* `Moment.number_strictMono`: later moments have greater numbers.
* `Moment.exists_tick`: every later moment is reached by ticks.
-/

namespace Linux001.Calendar

/-- The leap years. -/
def IsLeap (y : ℕ) : Prop := 4 ∣ y ∧ (100 ∣ y → 400 ∣ y)

instance (y : ℕ) : Decidable (IsLeap y) := inferInstanceAs (Decidable (_ ∧ _))

/-- The number of days of a month. -/
def daysIn (y : ℕ) : ℕ → ℕ
  | 1 => if IsLeap y then 29 else 28
  | 3 | 5 | 8 | 10 => 30
  | _ => 31

/-- A date. -/
structure Date where
  year : ℕ
  month : ℕ
  day : ℕ
  month_lt : month < 12
  day_pos : 0 < day
  day_le : day ≤ daysIn year month

/-- A date with a time of day. -/
structure Moment where
  date : Date
  hour : ℕ
  minute : ℕ
  second : ℕ
  hour_lt : hour < 24
  minute_lt : minute < 60
  second_lt : second < 60

/-! ### Steps -/

theorem daysIn_pos (y m : ℕ) : 0 < daysIn y m := by
  unfold daysIn
  split <;> try split
  all_goals omega

/-- The day after. -/
def Date.next (d : Date) : Date :=
  if h : d.day < daysIn d.year d.month then
    { d with day := d.day + 1, day_pos := Nat.succ_pos _, day_le := h }
  else if h : d.month < 11 then
    { year := d.year, month := d.month + 1, day := 1, month_lt := Nat.succ_lt_succ h,
      day_pos := Nat.one_pos, day_le := daysIn_pos .. }
  else
    { year := d.year + 1, month := 0, day := 1, month_lt := Nat.succ_pos _,
      day_pos := Nat.one_pos, day_le := daysIn_pos .. }

/-- A second later. -/
def Moment.tick (t : Moment) : Moment :=
  if h : t.second < 59 then { t with second := t.second + 1, second_lt := Nat.succ_lt_succ h }
  else if h : t.minute < 59 then
    { t with
      minute := t.minute + 1, minute_lt := Nat.succ_lt_succ h
      second := 0, second_lt := Nat.succ_pos _ }
  else if h : t.hour < 23 then
    { t with
      hour := t.hour + 1, hour_lt := Nat.succ_lt_succ h
      minute := 0, minute_lt := Nat.succ_pos _
      second := 0, second_lt := Nat.succ_pos _ }
  else
    { date := t.date.next
      hour := 0, hour_lt := Nat.succ_pos _
      minute := 0, minute_lt := Nat.succ_pos _
      second := 0, second_lt := Nat.succ_pos _ }

/-! ### Numbers of days -/

/-- The number of days in the years before `y`. -/
def daysBefore : ℕ → ℕ
  | 0 => 0
  | y + 1 => daysBefore y + if IsLeap y then 366 else 365

/-- The number of days in the months of a year before the month `m`. -/
def monthsBefore (y : ℕ) : ℕ → ℕ
  | 0 => 0
  | m + 1 => monthsBefore y m + daysIn y m

/-- The number of days before a date. -/
def Date.number (d : Date) : ℕ := daysBefore d.year + monthsBefore d.year d.month + (d.day - 1)

/-- The number of seconds before a moment. -/
def Moment.number (t : Moment) : ℕ :=
  86400 * t.date.number + 3600 * t.hour + 60 * t.minute + t.second

theorem monthsBefore_year (y : ℕ) : monthsBefore y 12 = if IsLeap y then 366 else 365 := by
  simp only [monthsBefore, daysIn]
  split_ifs <;> rfl

theorem Date.number_next (d : Date) : d.next.number = d.number + 1 := by
  have hpos := d.day_pos
  have hle := d.day_le
  unfold Date.next
  split_ifs with hday hmonth
  · simp only [number]
    omega
  · simp only [number, monthsBefore]
    omega
  · -- December has 31 days, and the next year begins.
    have hlast : d.month = 11 := by
      have := d.month_lt
      omega
    have hyear := monthsBefore_year d.year
    simp only [number, daysBefore, hlast] at hday ⊢
    rw [hlast] at hle
    rw [monthsBefore] at hyear
    rw [← hyear]
    simp only [monthsBefore]
    omega

theorem Moment.number_tick (t : Moment) : t.tick.number = t.number + 1 := by
  have hhour := t.hour_lt
  have hminute := t.minute_lt
  have hsecond := t.second_lt
  unfold Moment.tick
  split_ifs with h h h
  · simp only [number]
    omega
  · simp only [number]
    omega
  · simp only [number]
    omega
  · simp only [number, Date.number_next]
    omega

/-! ### The order of dates -/

/-- Dates are ordered by year, month and day. -/
def Date.key (d : Date) : ℕ ×ₗ ℕ ×ₗ ℕ := toLex (d.year, toLex (d.month, d.day))

theorem Date.key_injective : Function.Injective Date.key := by
  rintro ⟨y, m, d, _, _, _⟩ ⟨y', m', d', _, _, _⟩ h
  obtain ⟨rfl, h⟩ := Prod.mk.inj h
  obtain ⟨rfl, rfl⟩ := Prod.mk.inj h
  rfl

instance : LinearOrder Date := LinearOrder.lift' Date.key Date.key_injective

/-- Moments are ordered by date and time. -/
def Moment.key (t : Moment) : Date ×ₗ ℕ ×ₗ ℕ ×ₗ ℕ :=
  toLex (t.date, toLex (t.hour, toLex (t.minute, t.second)))

theorem Moment.key_injective : Function.Injective Moment.key := by
  rintro ⟨d, h, m, s, _, _, _⟩ ⟨d', h', m', s', _, _, _⟩ heq
  obtain ⟨rfl, heq⟩ := Prod.mk.inj heq
  obtain ⟨rfl, heq⟩ := Prod.mk.inj heq
  obtain ⟨rfl, rfl⟩ := Prod.mk.inj heq
  rfl

instance : LinearOrder Moment := LinearOrder.lift' Moment.key Moment.key_injective

theorem Date.year_mono : Monotone Date.year := fun a b hab => by
  by_contra hlt
  exact hab.not_gt (Prod.Lex.lt_iff.mpr (.inl (not_le.mp hlt)))

theorem Moment.date_mono : Monotone Moment.date := fun a b hab => by
  by_contra hlt
  exact hab.not_gt (Prod.Lex.lt_iff.mpr (.inl (not_le.mp hlt)))

theorem monthsBefore_mono (y : ℕ) : Monotone (monthsBefore y) :=
  monotone_nat_of_le_succ fun _ => Nat.le_add_right ..

theorem daysBefore_mono : Monotone daysBefore := monotone_nat_of_le_succ fun _ =>
    Nat.le_add_right ..

theorem Date.monthsBefore_lt (d : Date) :
    monthsBefore d.year d.month + (d.day - 1) < monthsBefore d.year (d.month + 1) := by
  have := d.day_pos
  have := d.day_le
  rw [monthsBefore]
  omega

/-- A date is before the end of its year. -/
theorem Date.number_lt (d : Date) : d.number < daysBefore (d.year + 1) := by
  have hmonth := d.monthsBefore_lt
  have hyear := monthsBefore_mono d.year (Nat.succ_le_of_lt d.month_lt)
  rw [monthsBefore_year] at hyear
  rw [number, daysBefore]
  simp only [Nat.succ_eq_add_one] at hyear
  omega

theorem Date.number_strictMono : StrictMono Date.number := by
  intro a b hab
  have hlt : a.key < b.key := hab
  rw [Prod.Lex.lt_iff] at hlt
  rcases hlt with hyear | ⟨hyear, hrest⟩
  · -- The years differ.
    have hle := daysBefore_mono (Nat.succ_le_of_lt hyear)
    have hend := a.number_lt
    exact hend.trans_le (hle.trans ((Nat.le_add_right _ _).trans (Nat.le_add_right _ _)))
  · change a.year = b.year at hyear
    rw [Prod.Lex.lt_iff] at hrest
    rcases hrest with hmonth | ⟨hmonth, hday⟩
    · have hle := monthsBefore_mono b.year (Nat.succ_le_of_lt hmonth)
      have hend := a.monthsBefore_lt
      rw [hyear] at hend
      change monthsBefore b.year (a.month + 1) ≤ monthsBefore b.year b.month at hle
      rw [number, number, hyear]
      omega
    · change a.month = b.month at hmonth
      change a.day < b.day at hday
      have := a.day_pos
      rw [number, number, hyear, hmonth]
      omega

/-- Later moments have greater numbers. -/
theorem Moment.number_strictMono : StrictMono Moment.number := by
  intro a b hab
  have hhour := a.hour_lt
  have hminute := a.minute_lt
  have hsecond := a.second_lt
  have hlt : a.key < b.key := hab
  rw [number, number]
  rw [Prod.Lex.lt_iff] at hlt
  rcases hlt with hdate | ⟨hdate, hrest⟩
  · have hnumber := Date.number_strictMono hdate
    change a.date.number < b.date.number at hnumber
    omega
  · change a.date = b.date at hdate
    rw [hdate]
    rw [Prod.Lex.lt_iff] at hrest
    rcases hrest with h | ⟨h, hrest⟩
    · change a.hour < b.hour at h
      omega
    · change a.hour = b.hour at h
      rw [Prod.Lex.lt_iff] at hrest
      rcases hrest with h' | ⟨h', h''⟩
      · change a.minute < b.minute at h'
        omega
      · change a.minute = b.minute at h'
        change a.second < b.second at h''
        omega

/-! ### Counting steps -/

/-- With numbers that go up by one, every greater number is reached. -/
theorem iterate_of_number {α : Type*} {f : α → α} {num : α → ℕ} (hinj : Function.Injective num)
    (hf : ∀ a, num (f a) = num a + 1) {a b : α} (h : num a ≤ num b) : f^[num b - num a] a = b := by
  have hnum : ∀ n, num (f^[n] a) = num a + n := fun n => by
    induction n with
    | zero => rfl
    | succ n ih => rw [Function.iterate_succ_apply', hf, ih, Nat.add_assoc]
  refine hinj ?_
  rw [hnum]
  omega

/-- Every later moment is reached by as many ticks as its number tells. -/
theorem Moment.exists_tick {a b : Moment} (h : a ≤ b) : Moment.tick^[b.number - a.number] a = b :=
  iterate_of_number number_strictMono.injective number_tick (number_strictMono.monotone h)

/-- The number of leap years tells the number of days in the years before. -/
theorem daysBefore_eq (y : ℕ) :
    daysBefore y + (y + 99) / 100 = 365 * y + (y + 3) / 4 + (y + 399) / 400 := by
  induction y with
  | zero => rfl
  | succ y ih =>
    rw [daysBefore]
    by_cases hleap : IsLeap y
    · rw [if_pos hleap]
      unfold IsLeap at hleap
      omega
    · rw [if_neg hleap]
      unfold IsLeap at hleap
      omega

end Linux001.Calendar
