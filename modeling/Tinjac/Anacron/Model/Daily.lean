/-
A job on a machine where an anacron is started every day.

The anacron of a day goes through its table alone and to its end: it is
neither killed nor told by a signal to leave the rest of its jobs, and
the jobs that it launched have ended. The days may differ in everything
else: in the options, in the hours of `START_HOURS_RANGE`, in the other
jobs of the table, and in the delay of the job, to which `RANDOM_DELAY`
adds another number at each start.

`Daily` says what becomes of the job: it is run unless `consider_job`
finds it too early or `explain_intentions` drops it, and if it is run,
the date of the day is in its file on the next. `Days` are what such
days leave of the spool directory.
-/
import Tinjac.Anacron.Model.Main

namespace Tinjac.Anacron

/-- The job, and what is in its file at first; from which day on there
are anacrons; and what differs from day to day: the date, the time at
which the job is considered, the options, the hours at which delays are
over, and the delay of the job. -/
structure Daily where
  job : JobRec
  first : List UInt8
  since : Nat
  date : Nat → Date
  clock : Nat → Tm
  opts : Nat → Options
  hour : Nat → Int → Int
  delay : Nat → Int

namespace Daily

/-- The job as it is in the table of a day. -/
def jobOn (m : Daily) (n : Nat) : JobRec := { m.job with delay := m.delay n }

/-- The anacron of a day, when it has read its table. -/
def anacron (m : Daily) (n : Nat) (tab : List JobRec) : Proc :=
  .started (m.opts n) (m.date n) (m.hour n) tab

-- ======================================================== what is to be run

/-- Whether `consider_job` finds it too early, on a day on which this is
in the file. -/
def early (m : Daily) (n : Nat) (file : List UInt8) : Bool :=
  tooEarly (m.opts n).force (m.date n).dayNum (m.clock n) (m.jobOn n)
    (file.take 8)

/-- Whether `explain_intentions` drops it on a day, because it would not
start within `START_HOURS_RANGE`. -/
def dropped (m : Daily) (n : Nat) : Bool :=
  (m.anacron n []).drops (m.jobOn n)

/-- What is in the file before a day. -/
def fileOn (m : Daily) : Nat → List UInt8
  | 0 => m.first
  | n + 1 =>
      if m.since ≤ n ∧ m.early n (m.fileOn n) = false
          ∧ m.dropped n = false then
        stamp (m.date n)
      else m.fileOn n

/-- The job is to be run on a day. -/
def RunOn (m : Daily) (n : Nat) : Prop :=
  m.since ≤ n ∧ m.early n (m.fileOn n) = false ∧ m.dropped n = false

instance (m : Daily) (n : Nat) : Decidable (m.RunOn n) :=
  inferInstanceAs (Decidable (_ ∧ _))

-- ============================================================ the days

/-- The times that an anacron reads on a day. -/
def reads (m : Daily) (n : Nat) (j : JobRec) (t : Tm) : Prop :=
  j.ident = m.job.ident → t = m.clock n

/-- The jobs of a name. -/
def named (i : CString) (jobs : List JobRec) : List JobRec :=
  jobs.filter fun j => decide (j.ident = i)

/-- The anacron of a day, from its start to its end. Of that name it
finds this job alone in its table. -/
inductive Run (tables : List JobRec → Prop) (m : Daily) (n : Nat)
    (g : Spool) : Spool → Prop
  | run {p : Pid} {tab : List JobRec} {a : Proc} {g' : Spool}
      (table : tables tab)
      (listed : named m.job.ident (selected tab) = [m.jobOn n])
      (valid : (m.date n).dayNum ≠ -1)
      (works : Relation.ReflTransGen
        (fun x x' : Proc × Spool => Work (m.reads n) p x.1 x.2 x'.1 x'.2)
        (m.anacron n tab, g) (a, g'))
      (through : a.phase = .running [] []) :
      Run tables m n g { g' with files := g'.files.release p }

/-- What so many days may leave. -/
inductive Days (tables : List JobRec → Prop) (m : Daily) :
    Nat → Spool → Prop
  | fresh {first : CString → List UInt8}
      (file : first m.job.ident = m.first) :
      Days tables m 0 (System.init first).shared
  | before {n : Nat} {g : Spool} (days : Days tables m n g)
      (early : n < m.since) : Days tables m (n + 1) g
  | day {n : Nat} {g g' : Spool} (days : Days tables m n g)
      (since : m.since ≤ n) (run : Run tables m n g g') :
      Days tables m (n + 1) g'

end Daily

/-- The anacron that was started on a date has launched a job of that
name. -/
def Spool.Launched (g : Spool) (i : CString) (d : Date) : Prop :=
  ∃ x ∈ g.launches, x.taken.job.ident = i ∧ x.date = d

end Tinjac.Anacron
