/-
When a job is due, by the manual.

The rules of crontab(5) for the times at which a command runs, stated on
an entry's sets and flags and independently of how `printTime` searches:
minute, hour and month are in their sets, and of the two day fields both
must match if one of them starts with a star, else at least one. A
result is right if it is a time of the calendar, due, and not in the
past.
-/
import Tinjac.Lib.Gregorian
import Tinjac.Model.PrintTime

namespace Tinjac

open Gregorian

namespace Tm

/-- The year of the calendar. -/
def calendarYear (t : Tm) : Int := t.year + 1900

/-- The length of its month. -/
def monthLength (t : Tm) : Nat := daysIn t.calendarYear t.mon

/-- Its day of the week. -/
def wday (t : Tm) : Nat := weekday t.calendarYear t.mon t.mday

/-- A date and time of the calendar. -/
structure Valid (t : Tm) : Prop where
  sec : t.sec ≤ 60
  min : t.min ≤ 59
  hour : t.hour ≤ 23
  mon : t.mon ≤ 11
  mday_pos : 1 ≤ t.mday
  mday_le : t.mday ≤ t.monthLength

/-- `t` is not before `now`, to the minute: seconds do not count. -/
def NotBefore (now t : Tm) : Prop :=
  now.year < t.year ∨ now.year = t.year
    ∧ (now.mon < t.mon ∨ now.mon = t.mon
      ∧ (now.mday < t.mday ∨ now.mday = t.mday
        ∧ (now.hour < t.hour ∨ now.hour = t.hour ∧ now.min ≤ t.min)))

end Tm

/-- The rule for the two day fields: either may match, or both must if one
of them starts with a star. -/
def Entry.DayMatches (e : Entry) (t : Tm) : Prop :=
  let dom := bitTest e.bits domField.name (t.mday - 1) = true
  let dow := bitTest e.bits dowField.name t.wday = true
  if hasFlag e.flags domStar ∨ hasFlag e.flags dowStar then dom ∧ dow
  else dom ∨ dow

/-- A right answer: a time at which the job is due, from `now` on. -/
structure Due (e : Entry) (now t : Tm) : Prop where
  valid : t.Valid
  notBefore : now.NotBefore t
  minute : bitTest e.bits minuteField.name t.min = true
  hour : bitTest e.bits hourField.name t.hour = true
  month : bitTest e.bits monthField.name t.mon = true
  day : e.DayMatches t

end Tinjac
