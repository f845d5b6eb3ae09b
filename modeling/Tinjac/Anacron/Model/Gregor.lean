/-
The calendar of anacron: `cronie-1.4.6/anacron/gregor.c`.

Days have numbers; the first of January of the year 1 is day 1. The
`int`s of `day_num` are integers here: it turns away the years that
might overflow.

`days_last_month` and its kin look at the clock. Here they take what
`localtime_r` makes of it.
-/
import Tinjac.Model.PrintTime

namespace Tinjac.Anacron

/-- `days_in_month`. -/
def daysInMonth : List Int :=
  [31, 28, 31, 30, 31, 30, 31, 31, 30, 31, 30, 31]

/-- `days_in_month[i]`. -/
def monthDays (i : Int) : Int := daysInMonth.getD i.toNat 0

def intMax : Int := 2147483647

/-- Is this a leap year? -/
def leap (year : Int) : Bool :=
  year.tmod 4 == 0 && (year.tmod 100 != 0 || year.tmod 400 == 0)

/-- `for (i = month - 1; i > 0; --i) dn += days_in_month[i - 1];` -/
def addMonths : Nat → Int → Int
  | 0, dn => dn
  | i + 1, dn => addMonths i (dn + monthDays i)

/-- The day number of a date, or -1 if there is no such date. -/
def dayNum (year month day : Int) : Int :=
  if year < 1 then -1
  else if year > intMax.tdiv 366 then -1
  else if month > 12 ∨ month < 1 then -1
  else if day < 1 then -1
  else
    let isleap := leap year
    if month ≠ 2 ∧ day > monthDays (month - 1) then -1
    else if month = 2 ∧ (isleap ∧ day > 29 ∨ ¬ isleap ∧ day > 28) then -1
    else
      -- the day number of December 31 last year
      let i := year - 1
      let dn := i * 365 + (i.tdiv 4 - i.tdiv 100 + i.tdiv 400)
      -- of the last day of the previous month
      let dn := addMonths (month - 1).toNat dn
      let dn := if month > 2 ∧ isleap then dn + 1 else dn
      dn + day

def daysLastMonth (t : Tm) : Int :=
  match t.mon with
  | 0 => monthDays 11
  | 2 => monthDays 1 + if leap (t.year + 1900) then 1 else 0
  | mon => monthDays (mon - 1)

def daysThisMonth (t : Tm) : Int :=
  match t.mon with
  | 1 => monthDays 1 + if leap (t.year + 1900) then 1 else 0
  | mon => monthDays mon

def daysLastYear (t : Tm) : Int :=
  if leap (t.year - 1 + 1900) then 366 else 365

def daysThisYear (t : Tm) : Int :=
  if leap (t.year + 1900) then 366 else 365

end Tinjac.Anacron
