/-
The Gregorian calendar, proleptic: leap years, the lengths of the
months, and the day of the week.

Months count from 0 (January) to 11, days from 1, weekdays from 0
(Sunday) to 6. Years are the calendar's own, not offsets from an epoch.
-/
import Mathlib.Algebra.GroupWithZero.Nat
import Mathlib.Data.Int.Order.Basic

namespace Gregorian

def isLeap (year : Int) : Bool :=
  year % 4 == 0 && (year % 100 != 0 || year % 400 == 0)

/-- The length of a month. -/
def daysIn (year : Int) (month : Nat) : Nat :=
  match month with
  | 1 => if isLeap year then 29 else 28
  | 3 | 5 | 8 | 10 => 30
  | _ => 31

theorem daysIn_le (year : Int) (month : Nat) : daysIn year month ≤ 31 := by
  unfold daysIn
  split
  · split
    · decide
    · decide
  · decide
  · decide
  · decide
  · decide
  · exact Nat.le_refl 31

/-- The days of the years 1 to `year - 1`. -/
def daysBeforeYear (year : Int) : Int :=
  365 * (year - 1) + (year - 1) / 4 - (year - 1) / 100 + (year - 1) / 400

/-- The days of the year before a month. -/
def daysBeforeMonth (year : Int) (month : Nat) : Nat :=
  ((List.range month).map (daysIn year)).sum

/-- The number of a date, the first of January of the year 1 being day
1. -/
def dayNumber (year : Int) (month day : Nat) : Int :=
  daysBeforeYear year + daysBeforeMonth year month + day

/-- The day of the week; the first of January of the year 1 was a
Monday. -/
def weekday (year : Int) (month day : Nat) : Nat :=
  ((daysBeforeYear year + daysBeforeMonth year month + day) % 7).toNat

/-- A leap day, and the epoch of Unix. -/
example : weekday 2024 1 29 = 4 ∧ weekday 1970 0 1 = 4 := by decide

end Gregorian
