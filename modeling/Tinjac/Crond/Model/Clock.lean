/-
The main loop of the vendored crond: `cronie-1.4.6/src/cron.c`.

# The clocks

All three count minutes. `clockTime` is what the clock of the machine
said when it was last read, `timeRunning` what it said when crond last
woke up, and `virtualTime` what it would say if nobody ever changed it
and crond were never late: at the top of the loop the jobs of all
minutes up to it were looked for.

# One turn

`turn` is one pass through the body of `while (TRUE)`. The clock decides
when the wait for the next minute ends, so the wait takes fuel; the
loops that catch up count `virtualTime` up to `timeRunning`.

The `int` clocks are integers here: minutes since 1970 fit an `int` for
four thousand years. Of the surroundings, `Machine` says what each
reading of the clock and each look at the crontab files finds. Sleeping,
signals and the log are left out. `calls` and `ran` are history
variables: the calls of `find_jobs` and of `do_command` in order.
-/
import Tinjac.Crond.Model.Jobs

namespace Tinjac.Crond

/-- What crond finds, each time it looks: the seconds of the clock, the
crontab database; and whether the lock of the `@reboot` jobs is
there. -/
structure Machine where
  site : Site
  time : Nat → Int
  database : Nat → Db
  rebootLock : Bool

/-- A call of `find_jobs`, with what it was given and what it looked
at. -/
structure Call where
  db : Db
  startTime : Int
  gmtOff : Int
  vtime : Int
  doWild : Bool
  doNonWild : Bool

/-- The minute it looked at: that of `StartTime`, as `set_time` counts. -/
def Call.minute (c : Call) : Int := (c.startTime + c.gmtOff).tdiv 60

/-- The variables of `cron.c`. -/
structure Daemon where
  virtualTime : Int
  timeRunning : Int
  clockTime : Int
  startTime : Int
  isdst : Int
  gmtOff : Int
  db : Db
  queue : JobQueue
  reads : Nat
  loads : Nat
  calls : List Call
  ran : List Job

-- =========================================================== the pieces

/-- `set_time`. -/
def setTime (m : Machine) (init : Bool) (d : Daemon) : Daemon :=
  let startTime := m.time d.reads
  let lt := m.site.localtime m.site.tz startTime
  let d := { d with reads := d.reads + 1, startTime := startTime }
  let d :=
    if init ∨ lt.isdst ≠ d.isdst then
      { d with isdst := lt.isdst, gmtOff := lt.gmtoff }
    else d
  { d with clockTime := (d.startTime + d.gmtOff).tdiv 60 }

/-- `load_database`, by what it leaves. -/
def loadDatabase (m : Machine) (d : Daemon) : Daemon :=
  { d with db := m.database d.loads, loads := d.loads + 1 }

/-- A call of `find_jobs` from the main loop. -/
def Daemon.findJobs (m : Machine) (vtime : Int) (doWild doNonWild : Bool)
    (d : Daemon) : Daemon :=
  { d with
    queue := Crond.findJobs m.site d.db d.startTime vtime doWild doNonWild
      d.queue
    calls := d.calls ++ [{ db := d.db, startTime := d.startTime
                           gmtOff := d.gmtOff, vtime := vtime
                           doWild := doWild, doNonWild := doNonWild }] }

/-- `job_runqueue`. -/
def jobRunqueue (d : Daemon) : Daemon :=
  { d with
    queue := { d.queue with jobs := [] }
    ran := d.ran ++ d.queue.jobs }

/-- `run_reboot_jobs`. -/
def runRebootJobs (m : Machine) (d : Daemon) : Daemon :=
  if m.rebootLock then d
  else
    jobRunqueue
      { d with
        queue := d.db.users.foldl
          (fun q u => u.crontab.foldl
            (fun q e =>
              if hasFlag e.entry.flags whenReboot then jobAdd q e u else q)
            q)
          d.queue }

/-- `while (clockTime == timeRunning)`, with a reading each time. -/
def awaitMinute (m : Machine) : (fuel : Nat) → Daemon → Option Daemon
  | 0, _ => none
  | fuel + 1, d =>
      let d := setTime m false d
      if d.clockTime = d.timeRunning then awaitMinute m fuel d else some d

-- ========================================================= catching up

/-- `enum timejump`. -/
inductive Timejump
  | negative
  | small
  | medium
  | large
deriving DecidableEq, Repr

/-- `wakeupKind`. -/
def wakeupKind (timeDiff : Int) : Timejump :=
  if 3 * minuteCount < timeDiff ∨ timeDiff < -(3 * minuteCount) then .large
  else if 5 < timeDiff then .medium
  else if 0 < timeDiff then .small
  else .negative

/-- The body of the loop of case `small`. -/
def lateMinute (m : Machine) (d : Daemon) : Daemon :=
  let d := jobRunqueue d
  let d := { d with virtualTime := d.virtualTime + 1 }
  d.findJobs m d.virtualTime true true

/-- The body of the loop of case `medium`. -/
def missedMinute (m : Machine) (d : Daemon) : Daemon :=
  let d := jobRunqueue d
  let d := { d with virtualTime := d.virtualTime + 1 }
  setTime m false (d.findJobs m d.virtualTime false true)

@[simp] theorem setTime_virtualTime (m : Machine) (b : Bool) (d : Daemon) :
    (setTime m b d).virtualTime = d.virtualTime := by
  unfold setTime
  dsimp only
  split
  · rfl
  · rfl

@[simp] theorem setTime_timeRunning (m : Machine) (b : Bool) (d : Daemon) :
    (setTime m b d).timeRunning = d.timeRunning := by
  unfold setTime
  dsimp only
  split
  · rfl
  · rfl

@[simp] theorem lateMinute_virtualTime (m : Machine) (d : Daemon) :
    (lateMinute m d).virtualTime = d.virtualTime + 1 := rfl

@[simp] theorem lateMinute_timeRunning (m : Machine) (d : Daemon) :
    (lateMinute m d).timeRunning = d.timeRunning := rfl

@[simp] theorem missedMinute_virtualTime (m : Machine) (d : Daemon) :
    (missedMinute m d).virtualTime = d.virtualTime + 1 := by
  unfold missedMinute
  rw [setTime_virtualTime]
  rfl

@[simp] theorem missedMinute_timeRunning (m : Machine) (d : Daemon) :
    (missedMinute m d).timeRunning = d.timeRunning := by
  unfold missedMinute
  rw [setTime_timeRunning]
  rfl

/-- The loop of case `small`: `do ... while (virtualTime <
timeRunning)`. -/
def lateMinutes (m : Machine) (d : Daemon) : Daemon :=
  if (lateMinute m d).virtualTime < (lateMinute m d).timeRunning then
    lateMinutes m (lateMinute m d)
  else lateMinute m d
termination_by (d.timeRunning - d.virtualTime).toNat
decreasing_by
  simp only [lateMinute_virtualTime, lateMinute_timeRunning] at *
  omega

/-- The loop of case `medium`, which also ends when the minute is
over. -/
def missedMinutes (m : Machine) (d : Daemon) : Daemon :=
  if (missedMinute m d).virtualTime < (missedMinute m d).timeRunning
      ∧ (missedMinute m d).clockTime = (missedMinute m d).timeRunning then
    missedMinutes m (missedMinute m d)
  else missedMinute m d
termination_by (d.timeRunning - d.virtualTime).toNat
decreasing_by
  simp only [missedMinute_virtualTime, missedMinute_timeRunning] at *
  omega

-- ============================================================= the loop

/-- What is done about the time that has passed. -/
def catchUp (m : Machine) (d : Daemon) : Daemon :=
  let timeDiff := d.timeRunning - d.virtualTime
  -- shortcut for the most common case
  if timeDiff = 1 then
    let d := { d with virtualTime := d.timeRunning }
    d.findJobs m d.virtualTime true true
  else
    match wakeupKind timeDiff with
    | .small => lateMinutes m d
    | .medium => missedMinutes m (d.findJobs m d.timeRunning true false)
    | .negative => d.findJobs m d.timeRunning true false
    | .large =>
        let d := { d with virtualTime := d.timeRunning }
        d.findJobs m d.timeRunning true true

/-- One turn of the main loop. -/
def turn (m : Machine) (fuel : Nat) (d : Daemon) : Option Daemon :=
  match awaitMinute m fuel d with
  | none => none
  | some d =>
      let d := { d with timeRunning := d.clockTime }
      let d := loadDatabase m d
      some (jobRunqueue (catchUp m d))

/-- The variables before anything was done. -/
def Daemon.blank (m : Machine) (granted : Nat → Bool) : Daemon :=
  { virtualTime := 0, timeRunning := 0, clockTime := 0, startTime := 0
    isdst := 0, gmtOff := 0, db := m.database 0
    queue := { jobs := [], granted := granted, asked := 0 }
    reads := 0, loads := 0, calls := [], ran := [] }

/-- `main` up to its loop. -/
def start (m : Machine) (granted : Nat → Bool) : Daemon :=
  let d := loadDatabase m (.blank m granted)
  let d := setTime m true d
  let d := runRebootJobs m d
  { d with timeRunning := d.clockTime, virtualTime := d.clockTime }

end Tinjac.Crond
