import Mathlib.Algebra.BigOperators.Group.Finset.Basic
import Mathlib.Algebra.Order.BigOperators.Group.Finset

/-!
# Calendar time

Days are counted by the lengths of the years and months before them in the
Gregorian calendar, and seconds by the days. A time of the calendar written as
the number `YYYYMMDDhhmmss` is later than another exactly if it is more seconds
away from the start of year 0 (`Civil.stamp_le_iff`).
-/

namespace ND

open Finset (range)

/-! ## Positions -/

/-- A place in part `i` comes before every part after it. -/
theorem sum_range_add_lt {f : Nat → Nat} {i j r : Nat} (hij : i < j) (hr : r < f i) :
    ∑ k ∈ range i, f k + r < ∑ k ∈ range j, f k := by
  calc ∑ k ∈ range i, f k + r < ∑ k ∈ range i, f k + f i := Nat.add_lt_add_left hr _
    _ = ∑ k ∈ range (i + 1), f k := (Finset.sum_range_succ f i).symm
    _ ≤ ∑ k ∈ range j, f k := Finset.sum_le_sum_of_subset (Finset.range_subset_range.mpr hij)

/-! ## Dates -/

def isLeap (year : Nat) : Bool := year % 4 == 0 && (year % 100 != 0 || year % 400 == 0)

/-- The days of a month, counted from 0. -/
def monthLength (year month : Nat) : Nat :=
  if month = 1 then if isLeap year then 29 else 28
  else if month = 3 ∨ month = 5 ∨ month = 8 ∨ month = 10 then 30
  else 31

def yearLength (year : Nat) : Nat := ∑ m ∈ range 12, monthLength year m

theorem monthLength_le (year month : Nat) : monthLength year month ≤ 31 := by
  rw [monthLength]
  split
  · split <;> decide
  · split <;> decide

/-- A time of the calendar. Months and days are counted from 1. -/
structure Civil where
  year : Nat
  month : Nat
  day : Nat
  hour : Nat
  minute : Nat
  second : Nat
  month_mem : 1 ≤ month ∧ month ≤ 12
  day_mem : 1 ≤ day ∧ day ≤ monthLength year (month - 1)
  hour_lt : hour < 24
  minute_lt : minute < 60
  second_lt : second < 60

namespace Civil

/-- The days of the year before this one. -/
def dayOfYear (c : Civil) : Nat := ∑ m ∈ range (c.month - 1), monthLength c.year m + (c.day - 1)

/-- The days since the start of year 0. -/
def days (c : Civil) : Nat := ∑ y ∈ range c.year, yearLength y + c.dayOfYear

def secondOfDay (c : Civil) : Nat := (c.hour * 60 + c.minute) * 60 + c.second

/-- The seconds since the start of year 0. -/
def seconds (c : Civil) : Nat := c.days * 86400 + c.secondOfDay

/-- `YYYYMMDD`. -/
def date (c : Civil) : Nat := c.year * 10000 + c.month * 100 + c.day

/-- `hhmmss`. -/
def clock (c : Civil) : Nat := c.hour * 10000 + c.minute * 100 + c.second

/-- `YYYYMMDDhhmmss`. -/
def stamp (c : Civil) : Nat := c.date * 1000000 + c.clock

theorem day_lt (c : Civil) : c.day - 1 < monthLength c.year (c.month - 1) := by
  have := c.day_mem
  omega

theorem day_le (c : Civil) : c.day ≤ 31 := c.day_mem.2.trans (monthLength_le _ _)

theorem dayOfYear_lt (c : Civil) : c.dayOfYear < yearLength c.year := by
  have := c.month_mem
  exact sum_range_add_lt (by omega) c.day_lt

theorem secondOfDay_lt (c : Civil) : c.secondOfDay < 86400 := by
  have := c.hour_lt
  have := c.minute_lt
  have := c.second_lt
  rw [secondOfDay]
  omega

variable {a b : Civil}

theorem seconds_lt_of_days_lt (h : a.days < b.days) : a.seconds < b.seconds := by
  have := a.secondOfDay_lt
  rw [seconds, seconds]
  omega

theorem days_lt_of_year_lt (h : a.year < b.year) : a.days < b.days := by
  rw [days, days]
  exact Nat.lt_add_right _ (sum_range_add_lt h a.dayOfYear_lt)

theorem days_lt_of_dayOfYear_lt (hyear : a.year = b.year) (h : a.dayOfYear < b.dayOfYear) : a.days < b.days := by
  rw [days, days, hyear]
  exact Nat.add_lt_add_left h _

theorem dayOfYear_lt_of_month_lt (hyear : a.year = b.year) (h : a.month < b.month) : a.dayOfYear < b.dayOfYear := by
  have := a.month_mem
  have hday := a.day_lt
  rw [hyear] at hday
  rw [dayOfYear, dayOfYear, hyear]
  exact Nat.lt_add_right _ (sum_range_add_lt (by omega) hday)

theorem clock_lt (c : Civil) : c.clock < 1000000 := by
  have := c.hour_lt
  have := c.minute_lt
  have := c.second_lt
  rw [clock]
  omega

theorem secondOfDay_lt_of_clock_lt (h : a.clock < b.clock) : a.secondOfDay < b.secondOfDay := by
  have := a.minute_lt
  have := b.minute_lt
  have := a.second_lt
  have := b.second_lt
  rw [clock, clock] at h
  rw [secondOfDay, secondOfDay]
  omega

theorem secondOfDay_eq_of_clock_eq (h : a.clock = b.clock) : a.secondOfDay = b.secondOfDay := by
  have := a.minute_lt
  have := b.minute_lt
  have := a.second_lt
  have := b.second_lt
  rw [clock, clock] at h
  rw [secondOfDay, secondOfDay]
  omega

theorem days_lt_of_date_lt (h : a.date < b.date) : a.days < b.days := by
  have := a.month_mem
  have := b.month_mem
  have := a.day_le
  have := b.day_le
  have := a.day_mem.1
  rw [date, date] at h
  rcases Nat.lt_trichotomy a.year b.year with hyear | hyear | hyear
  · exact days_lt_of_year_lt hyear
  · refine days_lt_of_dayOfYear_lt hyear ?_
    rcases Nat.lt_trichotomy a.month b.month with hmonth | hmonth | hmonth
    · exact dayOfYear_lt_of_month_lt hyear hmonth
    · rw [dayOfYear, dayOfYear, hyear, hmonth]
      omega
    · omega
  · omega

theorem days_eq_of_date_eq (h : a.date = b.date) : a.days = b.days := by
  have := a.month_mem
  have := b.month_mem
  have := a.day_le
  have := b.day_le
  rw [date, date] at h
  rw [days, days, dayOfYear, dayOfYear, show a.year = b.year by omega, show a.month = b.month by omega,
    show a.day = b.day by omega]

/-- The later stamp is the later time. -/
theorem seconds_lt_of_stamp_lt (h : a.stamp < b.stamp) : a.seconds < b.seconds := by
  have ha := a.clock_lt
  have hb := b.clock_lt
  rw [stamp, stamp] at h
  rcases Nat.lt_trichotomy a.date b.date with hdate | hdate | hdate
  · exact seconds_lt_of_days_lt (days_lt_of_date_lt hdate)
  · rw [seconds, seconds, days_eq_of_date_eq hdate]
    exact Nat.add_lt_add_left (secondOfDay_lt_of_clock_lt (by omega)) _
  · omega

theorem seconds_eq_of_stamp_eq (h : a.stamp = b.stamp) : a.seconds = b.seconds := by
  have ha := a.clock_lt
  have hb := b.clock_lt
  rw [stamp, stamp] at h
  have hdate : a.date = b.date := by omega
  have hclock : a.clock = b.clock := by omega
  rw [seconds, seconds, days_eq_of_date_eq hdate, secondOfDay_eq_of_clock_eq hclock]

theorem stamp_le_iff (a b : Civil) : a.stamp ≤ b.stamp ↔ a.seconds ≤ b.seconds := by
  constructor
  · intro h
    rcases Nat.lt_or_eq_of_le h with h | h
    · exact (seconds_lt_of_stamp_lt h).le
    · exact (seconds_eq_of_stamp_eq h).le
  · intro h
    by_contra hlt
    have := seconds_lt_of_stamp_lt (Nat.lt_of_not_le hlt)
    omega

end Civil

end ND
