/-
The processes of anacron: `cronie-1.4.6/anacron/main.c`, `readtab.c`,
`lock.c` and `runjob.c`.

Any number of anacrons may run at a time, each started when it likes and
with options of its own. They share the files of the spool directory.

# One process

It goes through its table in order: it reads the time stamp of a job,
and if it is not too early tries to lock the file (`consider_job`). The
jobs it has locked it sorts and launches one after the other, waiting as
long as the delays and `-s` want it to. When a job has ended it writes
the date of its own start into the file and closes it. With `-u` it
does nothing but write the dates, and locks nothing.

Reading and locking are two steps, and what other processes do may come
between any two steps of one.

# Locks

A lock of `fcntl` belongs to a process, which can take one it has again,
and has lost it once it closes any descriptor of the file.

# What is left out

The table's text, the environment, the output of jobs, the mail, the
order in which `-u` writes, and `-T`, which does nothing to the files.
How long a process waits is left open; the hour at which a job's delay
is over is a function of the delay. System calls are taken to succeed,
but a process may be killed at any time, and its jobs then go on without
it.

`launches`, `orphans` and the writes to a file are history variables.
-/
import Tinjac.Anacron.Model.Lock
import Tinjac.Lib.Interleave

namespace Tinjac.Anacron

open Interleave

-- ============================================================ the files

abbrev Pid : Type := Nat

/-- A date that was written, and whether by `-u`. -/
structure Write where
  date : Date
  faked : Bool

/-- A time stamp file: what was in it at first, who has it locked, what
was written to it since. -/
structure TsFile where
  first : List UInt8
  owner : Option Pid
  writes : List Write

/-- What is in the file after that many writes. -/
def TsFile.bytesAt (f : TsFile) (n : Nat) : List UInt8 :=
  match (f.writes.take n).getLast? with
  | some w => stamp w.date
  | none => f.first

/-- What is in the file. -/
def TsFile.bytes (f : TsFile) : List UInt8 := f.bytesAt f.writes.length

/-- What `consider_job` reads of it. -/
def TsFile.timestamp (f : TsFile) : List UInt8 := f.bytes.take 8

abbrev Files : Type := CString → TsFile

/-- `close`: the lock is gone, if it was this process's. -/
def Files.close (files : Files) (p : Pid) (i : CString) : Files :=
  Function.update files i
    { files i with
      owner := if (files i).owner = some p then none else (files i).owner }

def Files.lock (files : Files) (p : Pid) (i : CString) : Files :=
  Function.update files i { files i with owner := some p }

/-- `update_timestamp`. -/
def Files.write (files : Files) (i : CString) (w : Write) : Files :=
  Function.update files i
    { files i with writes := (files i).writes ++ [w] }

/-- What the end of a process leaves. -/
def Files.release (files : Files) (p : Pid) : Files := fun i =>
  { files i with
    owner := if (files i).owner = some p then none else (files i).owner }

-- ========================================================== the process

/-- The options, and `START_HOURS_RANGE`. -/
structure Options where
  force : Bool
  now : Bool
  serialize : Bool
  rangeStart : Int
  rangeStop : Int

/-- A job that was not too early: what was read, when, and how many
writes there had been when it was read and when it was locked. -/
structure Taken where
  job : JobRec
  seen : List UInt8
  clock : Tm
  atRead : Nat
  atLock : Nat

/-- Where a process is. -/
inductive Phase
  | arranging (todo : List JobRec) (taken : List Taken)
  | locking (t : Taken) (todo : List JobRec) (taken : List Taken)
  | running (todo jobs : List Taken)
  | faking (todo : List JobRec)

structure Proc where
  opts : Options
  date : Date
  hour : Int → Int
  phase : Phase

/-- The jobs that the arguments ask for. -/
def selected (tab : List JobRec) : List JobRec :=
  tab.filter fun j => decide (j.argNum ≠ -1)

/-- `execution_order`. -/
def executionOrder (now : Bool) (job1 job2 : JobRec) : Int :=
  let d := job1.argNum - job2.argNum
  if d ≠ 0 ∧ now = true then d
  else
    let d := job1.delay - job2.delay
    if d ≠ 0 then d else job1.tabLine - job2.tabLine

/-- The `qsort` of `arrange_jobs`. -/
def arrange (now : Bool) (taken : List Taken) : List Taken :=
  taken.mergeSort fun a b => decide (executionOrder now a.job b.job ≤ 0)

/-- `drop_job`, behind `explain_intentions`. -/
def Proc.drops (m : Proc) (j : JobRec) : Bool :=
  j.dropJob
    || (!m.opts.now && decide (m.opts.rangeStart ≠ -1)
      && decide (m.opts.rangeStop ≠ -1)
      && (decide (m.hour j.delay < m.opts.rangeStart)
        || decide (m.hour j.delay ≥ m.opts.rangeStop)))

-- ============================================================ the steps

/-- A job that was launched, by whom, and the file then. -/
structure Launch where
  pid : Pid
  opts : Options
  date : Date
  taken : Taken
  file : TsFile

/-- What the processes share. -/
structure Spool where
  files : Files
  launches : List Launch
  orphans : List JobRec

/-- The jobs of a process that are running. -/
def Phase.jobs : Phase → List Taken
  | .running _ jobs => jobs
  | _ => []

/-- The turns of a process that goes through its table and runs what it
has taken; `reads` are the times that it may read when it considers a
job. -/
inductive Work (reads : JobRec → Tm → Prop) (p : Pid) :
    Proc → Spool → Proc → Spool → Prop
  | early {m : Proc} {g : Spool} {j : JobRec} {todo : List JobRec}
      {taken : List Taken} {clock : Tm}
      (here : m.phase = .arranging (j :: todo) taken)
      (read : reads j clock)
      (soon : tooEarly m.opts.force m.date.dayNum clock j
        (g.files j.ident).timestamp = true) :
      Work reads p m g
        { m with phase := .arranging todo taken }
        { g with files := g.files.close p j.ident }
  | due {m : Proc} {g : Spool} {j : JobRec} {todo : List JobRec}
      {taken : List Taken} {clock : Tm}
      (here : m.phase = .arranging (j :: todo) taken)
      (read : reads j clock)
      (soon : tooEarly m.opts.force m.date.dayNum clock j
        (g.files j.ident).timestamp = false) :
      Work reads p m g
        { m with
          phase := .locking
            { job := j, seen := (g.files j.ident).timestamp, clock := clock
              atRead := (g.files j.ident).writes.length
              atLock := (g.files j.ident).writes.length } todo taken } g
  | lock {m : Proc} {g : Spool} {t : Taken} {todo : List JobRec}
      {taken : List Taken} (here : m.phase = .locking t todo taken)
      (free : (g.files t.job.ident).owner = none
        ∨ (g.files t.job.ident).owner = some p) :
      Work reads p m g
        { m with
          phase := .arranging todo (taken ++ [
            { t with atLock := (g.files t.job.ident).writes.length }]) }
        { g with files := g.files.lock p t.job.ident }
  | locked {m : Proc} {g : Spool} {t : Taken} {todo : List JobRec}
      {taken : List Taken} {q : Pid}
      (here : m.phase = .locking t todo taken)
      (held : (g.files t.job.ident).owner = some q) (other : q ≠ p) :
      Work reads p m g
        { m with phase := .arranging todo taken }
        { g with files := g.files.close p t.job.ident }
  | arranged {m : Proc} {g : Spool} {taken : List Taken}
      (here : m.phase = .arranging [] taken) :
      Work reads p m g
        { m with phase := .running (arrange m.opts.now taken) [] } g
  | launch {m : Proc} {g : Spool} {t : Taken} {todo jobs : List Taken}
      (here : m.phase = .running (t :: todo) jobs)
      (kept : m.drops t.job = false)
      (alone : m.opts.serialize = true → jobs = []) :
      Work reads p m g
        { m with phase := .running todo (t :: jobs) }
        { g with
          launches := g.launches ++ [
            { pid := p, opts := m.opts, date := m.date, taken := t
              file := g.files t.job.ident }] }
  | drop {m : Proc} {g : Spool} {t : Taken} {todo jobs : List Taken}
      (here : m.phase = .running (t :: todo) jobs)
      (dropped : m.drops t.job = true) :
      Work reads p m g { m with phase := .running todo jobs } g
  | tend {m : Proc} {g : Spool} {t : Taken} {todo jobs jobs' : List Taken}
      (here : m.phase = .running todo (jobs ++ t :: jobs')) :
      Work reads p m g
        { m with phase := .running todo (jobs ++ jobs') }
        { g with
          files := (g.files.write t.job.ident
            { date := m.date, faked := false }).close p t.job.ident }

/-- A process at its start, with a table that it found. -/
def Proc.started (opts : Options) (date : Date) (hour : Int → Int)
    (tab : List JobRec) : Proc :=
  { opts := opts, date := date, hour := hour
    phase := .arranging (selected tab) [] }

/-- The turns of a process; `tables` are those it may find. -/
inductive Turn (tables : List JobRec → Prop) (p : Pid) :
    Option Proc → Spool → Option Proc → Spool → Prop
  | start {g : Spool} {opts : Options} {date : Date} {hour : Int → Int}
      {tab : List JobRec} (table : tables tab)
      (valid : date.dayNum ≠ -1) :
      Turn tables p none g (some (.started opts date hour tab)) g
  | startUpdate {g : Spool} {opts : Options} {date : Date}
      {hour : Int → Int} {tab : List JobRec} (table : tables tab)
      (valid : date.dayNum ≠ -1) :
      Turn tables p none g
        (some { opts := opts, date := date, hour := hour
                phase := .faking (selected tab) }) g
  | work {m m' : Proc} {g g' : Spool}
      (turn : Work (fun _ _ => True) p m g m' g') :
      Turn tables p (some m) g (some m') g'
  | fake {m : Proc} {g : Spool} {j : JobRec} {todo : List JobRec}
      (here : m.phase = .faking (j :: todo)) :
      Turn tables p (some m) g (some { m with phase := .faking todo })
        { g with
          files := (g.files.write j.ident
            { date := m.date, faked := true }).close p j.ident }
  | usr1 {m : Proc} {g : Spool} {todo jobs : List Taken}
      (here : m.phase = .running todo jobs) :
      Turn tables p (some m) g
        (some { m with phase := .running [] jobs }) g
  | exit {m : Proc} {g : Spool}
      (here : m.phase = .running [] [] ∨ m.phase = .faking []) :
      Turn tables p (some m) g none
        { g with files := g.files.release p }
  | die {m : Proc} {g : Spool} :
      Turn tables p (some m) g none
        { g with
          files := g.files.release p
          orphans := g.orphans ++ m.phase.jobs.map (·.job) }

/-- The system: a process for each pid, if there is one. -/
abbrev System : Type := State Pid (Option Proc) Spool

/-- Before any process. -/
def System.init (first : CString → List UInt8) : System :=
  { own := fun _ => none
    shared :=
      { files := fun i => { first := first i, owner := none, writes := [] }
        launches := [], orphans := [] } }

/-- The states that can come about. -/
def Reachable (tables : List JobRec → Prop) (s : System) : Prop :=
  ∃ first, Steps (Turn tables) (System.init first) s

end Tinjac.Anacron
