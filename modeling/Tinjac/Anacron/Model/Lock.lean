/-
The time stamps of anacron: `cronie-1.4.6/anacron/lock.c`.

A job has a file in the spool directory whose name is the identifier of
the job, with the date at which an anacron started that ran the job to
its end. `consider_job` reads its first eight bytes and decides by them
whether it is too early. What becomes of the lock is in `Main`.

Of `sscanf` the conversion `%Nd` is modelled: white space, a sign, and
digits, which with the sign are no more than N.
-/
import Tinjac.Anacron.Model.Gregor
import Tinjac.Crond.Model.LoadEnv
import Mathlib.Data.Nat.Digits.Defs

namespace Tinjac.Anacron

open Tinjac.Crond (isSpace)

-- ======================================================== the time stamp

/-- `year`, `month` and `day_of_month`. -/
structure Date where
  year : Nat
  month : Nat
  day : Nat
deriving DecidableEq

def Date.dayNum (d : Date) : Int := Anacron.dayNum d.year d.month d.day

/-- `%0Nd`. -/
def padded (width n : Nat) : List UInt8 :=
  let ds := (Nat.digits 10 n).reverse.map fun d => (48 + d).toUInt8
  List.replicate (width - ds.length) 48 ++ ds

/-- `snprintf(stamp, 10, "%04d%02d%02d\n", year, month, day_of_month)`. -/
def stamp (d : Date) : List UInt8 :=
  (padded 4 d.year ++ padded 2 d.month ++ padded 2 d.day ++ [newline]).take 9

/-- The digits of a number. -/
def scanDigits (width : Nat) (l : List UInt8) : Option (Nat × List UInt8) :=
  let ds := (l.take width).takeWhile isDigit
  if ds = [] then none else some (digitsValue ds, l.drop ds.length)

/-- `%Nd`. -/
def scanInt (width : Nat) (l : List UInt8) : Option (Int × List UInt8) :=
  match l.dropWhile isSpace with
  | [] => none
  | c :: l =>
      if c = dash then
        (scanDigits (width - 1) l).map fun r => (-(r.1 : Int), r.2)
      else if c = 43 then
        (scanDigits (width - 1) l).map fun r => ((r.1 : Int), r.2)
      else (scanDigits width (c :: l)).map fun r => ((r.1 : Int), r.2)

/-- The day number of a time stamp, 0 if it is none. -/
def stampDay (timestamp : List UInt8) : Int :=
  let l := timestamp.takeWhile (· != nul)
  let r := (scanInt 4 l).bind fun y =>
    (scanInt 2 y.2).bind fun m =>
      (scanInt 2 m.2).map fun d => (y.1, m.1, d.1)
  match r with
  | some (tsYear, tsMonth, tsDay) => dayNum tsYear tsMonth tsDay
  | none => 0

-- ======================================================== is it too early

/-- `named_period`, but for 0. -/
inductive NamedPeriod
  | monthly
  | yearly
  | daily
  | weekly
deriving DecidableEq

/-- A `job_rec`. Nothing sets `dropJob` before it is looked at. -/
structure JobRec where
  period : Int
  namedPeriod : Option NamedPeriod
  delay : Int
  ident : CString
  tabLine : Int
  argNum : Int
  dropJob : Bool

/-- `period` and `bypass`. -/
def NamedPeriod.days (t : Tm) : NamedPeriod → Int × Int
  | .monthly => (daysLastMonth t, daysThisMonth t)
  | .yearly => (daysLastYear t, daysThisYear t)
  | .daily => (1, 1)
  | .weekly => (7, 7)

/-- Whether `consider_job` finds it too early for a job. The functions
that count the days of the last period and of this one each call `time`;
here both are told `t`, so it is another month, or year, for neither or
for both. -/
def tooEarly (force : Bool) (dayNow : Int) (t : Tm) (jr : JobRec)
    (timestamp : List UInt8) : Bool :=
  if force = false ∧ timestamp.length = 8 then
    let dayDelta := dayNow - stampDay timestamp
    if 0 ≤ dayDelta ∧ dayDelta < jr.period then true
    else
      match jr.namedPeriod with
      | none => false
      | some p =>
          decide (dayDelta < (p.days t).1) && decide (dayDelta ≠ (p.days t).2)
  else false

end Tinjac.Anacron
