/-
The crontab database of the vendored crond, its job queue, and
`find_jobs`: `cronie-1.4.6/src/structs.h`, `job.c`, `cron.c`.

# Pointers

An entry and a user are told apart by their addresses: that is what
`job_add` compares. The `next` links of both are the order of a list.
The entries of a database are blocks of their own, so no two of them
have the same address (`Db.distinct`).

An `entry` is the one of `include/crontabs.hpp`, which was taken over
from here with one flag more.

# The clock

`find_jobs` looks at `StartTime` through `localtime`, whose result
depends on the variable `TZ`; the setting is an argument of it here,
`none` if `TZ` is unset. The weekday of a `struct tm` is the calendar's.
-/
import Tinjac.Model.LoadEntry
import Tinjac.Text.Due

namespace Tinjac.Crond

open CHeap

-- ======================================================== the database

/-- An `entry *`: the address, and what is there. -/
structure EntryAt where
  addr : Nat
  entry : Entry

/-- A `user *`. -/
structure User where
  addr : Nat
  name : CString
  tabname : CString
  mtime : Int
  crontab : List EntryAt

/-- The entries of a list of users, in the order of the links. -/
def entriesOf (users : List User) : List EntryAt :=
  users.flatMap User.crontab

/-- `cron_db`, with the heap its environments are in. -/
structure Db where
  users : List User
  heap : CHeap
  distinct : ((entriesOf users).map EntryAt.addr).Nodup

/-- A `struct tm` as `localtime` returns it. -/
structure LocalTime where
  tm : Tm
  isdst : Int
  gmtoff : Int

-- ======================================================== the job queue

/-- `job`. -/
structure Job where
  e : EntryAt
  u : User

/-- From `jhead` to `jtail`, and the fate of the `malloc` calls. -/
structure JobQueue where
  jobs : List Job
  granted : Nat → Bool
  asked : Nat

/-- `j->e == e && j->u == u`. -/
def Job.is (j : Job) (e : EntryAt) (u : User) : Bool :=
  j.e.addr == e.addr && j.u.addr == u.addr

/-- `job_add`. -/
def jobAdd (q : JobQueue) (e : EntryAt) (u : User) : JobQueue :=
  -- if already on queue, keep going
  if q.jobs.any fun j => j.is e u then q
  else
    let ok := q.granted q.asked
    let q := { q with asked := q.asked + 1 }
    if ok then { q with jobs := q.jobs ++ [{ e := e, u := u }] } else q

-- ============================================================ find_jobs

/-- What `find_jobs` asks its surroundings: `localtime` under a setting
of `TZ`, the setting crond was started with, and the password
database. -/
structure Site where
  localtime : Option (List UInt8) → Int → LocalTime
  tz : Option (List UInt8)
  getpwnam : CString → Option Passwd

/-- The setting of `TZ` that `maketime(tz1, tz2)` makes. -/
def maketimeTz (tz1 tz2 : Option (List UInt8)) : Option (List UInt8) :=
  match tz1 with
  | some t => if t ≠ [] then some t else tz2
  | none => tz2

/-- The values of `maketime`, 0-based. -/
structure Ticks where
  minute : Nat
  hour : Nat
  dom : Nat
  month : Nat
  dow : Nat
deriving DecidableEq, Repr

/-- `maketime`. -/
def maketime (site : Site) (startTime : Int)
    (tz1 tz2 : Option (List UInt8)) : Ticks :=
  let tm := (site.localtime (maketimeTz tz1 tz2) startTime).tm
  { minute := tm.min - bitIndex firstMinute
    hour := tm.hour - bitIndex firstHour
    dom := tm.mday - bitIndex firstDom
    month := tm.mon + 1 - bitIndex firstMonth
    dow := tm.wday - bitIndex firstDow }

/-- Whether the time is NOW. -/
def isNow (e : Entry) (t : Ticks) : Bool :=
  bitTest e.bits minuteField.name t.minute
    && bitTest e.bits hourField.name t.hour
    && bitTest e.bits monthField.name t.month
    && if hasFlag e.flags domStar || hasFlag e.flags dowStar then
        bitTest e.bits dowField.name t.dow
          && bitTest e.bits domField.name t.dom
      else
        bitTest e.bits dowField.name t.dow
          || bitTest e.bits domField.name t.dom

/-- Minute or hour start with a star. -/
def isWild (e : Entry) : Bool := hasFlag e.flags (minStar ||| hrStar)

/-- The condition under which `find_jobs` adds an entry. -/
def wanted (site : Site) (db : Db) (startTime : Int)
    (doWild doNonWild : Bool) (e : Entry) : Bool :=
  match site.getpwnam e.pwd.pwName with
  | none => false
  | some _ =>
      let jobTz := envGet db.heap (bytes "CRON_TZ") e.envp
      isNow e (maketime site startTime jobTz site.tz)
        && (doNonWild && !isWild e || doWild && isWild e)

/-- `find_jobs`. The broken-down time of `vtime` is overwritten before
anything reads it: what counts is `StartTime`. -/
def findJobs (site : Site) (db : Db) (startTime : Int) (_vtime : Int)
    (doWild doNonWild : Bool) (q : JobQueue) : JobQueue :=
  db.users.foldl
    (fun q u => u.crontab.foldl
      (fun q e =>
        if wanted site db startTime doWild doNonWild e.entry then
          jobAdd q e u
        else q)
      q)
    q

end Tinjac.Crond
