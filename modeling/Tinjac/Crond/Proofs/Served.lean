/-
What is in the crontabs is what crond runs.

A database holds tables: each of its users was loaded from one
(`Db.Holds`). So the entries of the database are the jobs of the tables
(`IsJob`), and `find_jobs` picks an entry if and only if its job is due
(`Call.Due`): by crontab(5), at the time that the clock shows where the
table's `CRON_TZ` is the time zone, and as the call asks for jobs with a
star or without.

Tables may change from one load to the next. What a call sees is the
database that was loaded last (`Daemon.Looks`), so the jobs it picks are
those of the tables it held then.
-/
import Tinjac.Crond.Proofs.Table

namespace Tinjac.Crond

open BlockHeap CHeap

-- ================================================= what the calls look at

/-- The calls look at databases that were loaded. -/
structure Daemon.Looks (m : Machine) (d : Daemon) : Prop where
  db : ∃ n, d.db = m.database n
  calls : ∀ c ∈ d.calls, ∃ n, c.db = m.database n

section

variable {m : Machine} {granted : Nat → Bool} {d d' : Daemon}

/-- Only the database and the calls matter. -/
theorem Daemon.Looks.congr (h : d.Looks m) (hdb : d'.db = d.db)
    (hcalls : d'.calls = d.calls) : d'.Looks m := by
  refine ⟨?_, ?_⟩
  · rw [hdb]
    exact h.db
  · rw [hcalls]
    exact h.calls

/-- Reading the clock changes neither. -/
theorem Daemon.Looks.setTime (h : d.Looks m) (b : Bool) :
    (setTime m b d).Looks m :=
  h.congr (setTime_db b) (setTime_calls b)

/-- A call looks at the database of the daemon. -/
theorem Daemon.Looks.findJobs (h : d.Looks m) (vtime : Int) (w n : Bool) :
    (d.findJobs m vtime w n).Looks m := by
  refine ⟨h.db, ?_⟩
  intro c hc
  rcases List.mem_append.mp hc with hold | hnew
  · exact h.calls c hold
  · rw [List.mem_singleton.mp hnew]
    exact h.db

/-- The virtual clock does not matter. -/
theorem Daemon.Looks.virtualTime (h : d.Looks m) (v : Int) :
    { d with virtualTime := v }.Looks m := ⟨h.db, h.calls⟩

/-- Nor does running the queue. -/
theorem Daemon.Looks.runqueue (h : d.Looks m) : (jobRunqueue d).Looks m :=
  ⟨h.db, h.calls⟩

/-- So every part of a turn keeps it: a late minute, -/
theorem Daemon.Looks.lateMinute (h : d.Looks m) :
    (lateMinute m d).Looks m :=
  (h.runqueue.virtualTime _).findJobs _ _ _

/-- and so do all the late minutes of a turn, -/
theorem Daemon.Looks.lateMinutes (h : d.Looks m) :
    (lateMinutes m d).Looks m := by
  fun_induction Crond.lateMinutes m d with
  | case1 d _ ih => exact ih h.lateMinute
  | case2 d _ => exact h.lateMinute

/-- and a minute that was missed, -/
theorem Daemon.Looks.missedMinute (h : d.Looks m) :
    (missedMinute m d).Looks m :=
  ((h.runqueue.virtualTime _).findJobs _ _ _).setTime false

/-- and all the minutes that were missed, -/
theorem Daemon.Looks.missedMinutes (h : d.Looks m) :
    (missedMinutes m d).Looks m := by
  fun_induction Crond.missedMinutes m d with
  | case1 d _ ih => exact ih h.missedMinute
  | case2 d _ => exact h.missedMinute

/-- and whatever is done about the time that has passed. -/
theorem Daemon.Looks.catchUp (h : d.Looks m) : (catchUp m d).Looks m := by
  unfold Crond.catchUp
  dsimp only
  split
  · exact (h.virtualTime d.timeRunning).findJobs _ _ _
  · split
    · exact h.lateMinutes
    · exact (h.findJobs _ _ _).missedMinutes
    · exact h.findJobs _ _ _
    · exact (h.virtualTime d.timeRunning).findJobs _ _ _

/-- In every run the daemon has a database of the machine, and each call
of `find_jobs` had one. -/
theorem Reachable.looks (h : Reachable m granted d) : d.Looks m := by
  induction h with
  | refl =>
      obtain ⟨hnone, -⟩ := start_shows m granted
      refine ⟨⟨0, ?_⟩, ?_⟩
      · have hdb := booting_db m granted
        show (runRebootJobs m (booting m granted)).db = _
        unfold runRebootJobs
        split
        · exact hdb
        · exact hdb
      · rw [hnone]
        exact nofun
  | tail _ hturn ih =>
      obtain ⟨fuel, woken, hwait, rfl⟩ := hturn.woken
      have hwoken := awaitMinute_keeps hwait (P := Daemon.Looks m)
        (fun _ hw => hw.setTime false) ih
      have hloaded : (loadDatabase m
          { woken with timeRunning := woken.clockTime }).Looks m :=
        ⟨⟨woken.loads, rfl⟩, hwoken.calls⟩
      exact hloaded.catchUp.runqueue

end

-- ====================================================== what they hold

/-- A user was loaded from this table, with enough memory; its jobs'
environments are in this heap. -/
inductive LoadedFrom (getpwnam : CString → Option Passwd) (heap : CHeap)
    (ls : List TableLine) (u : User) : Prop
  | load {fuel : Nat} {file : Stream} {fname tabname : CString}
      {tab : String} {envstr tail : List UInt8} {h : CHeap} {r : UserResult}
      {lu : LoadedUser} (known : UsersKnown getpwnam ls)
      (memory : AllGranted h)
      (ending : ∀ c ∈ tail, isToken lineTerms c = true)
      (text : file.rest = tableText ls ++ tail) (enough : ls.length < fuel)
      (loaded : loadUser fuel getpwnam file none fname tabname tab envstr h
        = some r)
      (user : r.user = some lu)
      (entries : u.crontab.map EntryAt.entry = lu.crontab)
      (envs : ∀ e ∈ lu.crontab, ∀ n,
        envGet heap n e.envp = envGet r.heap n e.envp) :
      LoadedFrom getpwnam heap ls u

/-- The users of a database were loaded from these tables. -/
def Db.Holds (getpwnam : CString → Option Passwd)
    (tables : List (List TableLine)) (db : Db) : Prop :=
  List.Forall₂ (LoadedFrom getpwnam db.heap) tables db.users

/-- The jobs of some tables, in the order of the database: `load_user`
puts an entry in front of those above it. -/
def allJobs (tables : List (List TableLine)) : List (JobLine × EnvFun) :=
  tables.flatMap fun ls => (tableJobs (fun _ => none) ls).reverse

section

variable {getpwnam : CString → Option Passwd}

/-- A job is one of the table on another heap as well, if its environment
reads the same. -/
theorem IsJob.heap {h h' : CHeap} {j : JobLine × EnvFun} {e : Entry}
    (hjob : IsJob getpwnam h j e)
    (hsame : ∀ n, envGet h' n e.envp = envGet h n e.envp) :
    IsJob getpwnam h' j e where
  made := hjob.made
  env n := (hsame n).trans (hjob.env n)

/-- So are all of them. -/
theorem isJobs_heap {h h' : CHeap} {js : List (JobLine × EnvFun)}
    {es : List Entry} (hjobs : List.Forall₂ (IsJob getpwnam h) js es)
    (hsame : ∀ e ∈ es, ∀ n, envGet h' n e.envp = envGet h n e.envp) :
    List.Forall₂ (IsJob getpwnam h') js es := by
  induction hjobs with
  | nil => exact .nil
  | @cons j e js es hjob _ ih =>
      exact .cons (hjob.heap (hsame e List.mem_cons_self))
        (ih fun e' he' => hsame e' (List.mem_cons_of_mem e he'))

/-- The entries of a table that was loaded are its jobs. -/
theorem LoadedFrom.isJobs {heap : CHeap} {ls : List TableLine} {u : User}
    (h : LoadedFrom getpwnam heap ls u) :
    List.Forall₂ (IsJob getpwnam heap)
      (tableJobs (fun _ => none) ls).reverse
      (u.crontab.map EntryAt.entry) := by
  obtain ⟨known, memory, ending, text, enough, loaded, user, entries, envs⟩ :=
    h
  obtain ⟨r, lu, new, hload, hu, hcrontab, -, hmade, henvs⟩ :=
    loadUser_table _ known memory ending text enough _ _ _
  rw [loaded] at hload
  injection hload with hr
  rw [hr, hu] at user
  injection user with hlu
  rw [entries, ← hlu, hcrontab]
  refine isJobs_heap (isJob_of_made hmade henvs) ?_
  rw [← hcrontab, ← hr, hlu]
  exact envs

/-- The entries of a database are the jobs of its tables. -/
theorem Db.Holds.isJobs {tables : List (List TableLine)} {db : Db}
    (h : db.Holds getpwnam tables) :
    List.Forall₂ (fun j (job : Job) => IsJob getpwnam db.heap j job.e.entry)
      (allJobs tables) (jobsOf db.users) := by
  unfold Db.Holds at h
  unfold allJobs jobsOf
  generalize db.users = users at h ⊢
  induction h with
  | nil => exact .nil
  | @cons ls u tables users hload _ ih =>
      rw [List.flatMap_cons, List.flatMap_cons]
      refine List.rel_append ?_ ih
      have hjobs := hload.isJobs
      rw [List.forall₂_map_right_iff] at hjobs ⊢
      exact hjobs

end

-- ===================================================== what is due

/-- A job of a table is due at a call: at the time of its time zone, and
if the call asks for jobs of its kind. -/
def Call.Due (site : Site) (c : Call) (j : JobLine × EnvFun) : Prop :=
  j.1.DueAt (site.localtime
      (maketimeTz (j.2 (bytes "CRON_TZ")) site.tz) c.startTime).tm
    ∧ if j.1.minute.Starred ∨ j.1.hour.Starred then c.doWild = true
      else c.doNonWild = true

instance (site : Site) (c : Call) : DecidablePred (c.Due site) := fun _ =>
  inferInstanceAs (Decidable (_ ∧ ite _ _ _))

/-- The jobs of some tables that are due at a call. -/
def Call.due (site : Site) (tables : List (List TableLine)) (c : Call) :
    List (JobLine × EnvFun) :=
  (allJobs tables).filter fun j => decide (c.Due site j)

section

variable {site : Site} {c : Call}

/-- `find_jobs` wants the entry of a job if and only if it is due. -/
theorem IsJob.wanted_iff {j : JobLine × EnvFun} {e : Entry}
    (hjob : IsJob site.getpwnam c.db.heap j e)
    (hnames : ∀ n pw, site.getpwnam n = some pw → pw.pwName = n)
    (hvalid : ∀ tz, (site.localtime tz c.startTime).tm.Valid) :
    wanted site c.db c.startTime c.doWild c.doNonWild e = true
      ↔ c.Due site j := by
  obtain ⟨⟨pw, hpw, hmade⟩, henv⟩ := hjob
  have hname : site.getpwnam e.pwd.pwName = some pw := by
    rw [hmade.pwd]
    show site.getpwnam pw.pwName = some pw
    rw [hnames _ pw hpw]
    exact hpw
  have htz : envGet c.db.heap (bytes "CRON_TZ") e.envp
      = j.2 (bytes "CRON_TZ") := by
    rw [henv]
    exact jobEnv_other e.pwd j.2 (by decide)
  unfold wanted Call.Due
  rw [hname]
  dsimp only
  rw [htz, maketime_eq, Bool.and_eq_true, hmade.now (hvalid _)]
  apply and_congr_right
  intro _
  by_cases hstar : j.1.minute.Starred ∨ j.1.hour.Starred
  · rw [if_pos hstar, hmade.wild.mpr hstar]
    simp
  · have hwild : isWild e = false := by
      rw [← Bool.not_eq_true]
      exact fun h => hstar (hmade.wild.mp h)
    rw [if_neg hstar, hwild]
    simp

/-- A call picks the jobs that are due. -/
theorem Call.jobs_due {tables : List (List TableLine)}
    (hholds : c.db.Holds site.getpwnam tables)
    (hnames : ∀ n pw, site.getpwnam n = some pw → pw.pwName = n)
    (hvalid : ∀ tz, (site.localtime tz c.startTime).tm.Valid) :
    List.Forall₂
      (fun j (job : Job) => IsJob site.getpwnam c.db.heap j job.e.entry)
      (c.due site tables) (c.jobs site) := by
  refine List.rel_filter ?_ hholds.isJobs
  intro j job hjob
  exact decide_eq_true_iff.trans (hjob.wanted_iff hnames hvalid).symm

end

-- ============================================================== the runs

section

variable {m : Machine} {granted : Nat → Bool} {d : Daemon}

/-- No job of a line is an `@reboot` job. -/
theorem rebootJobs_tables {tables : List (List TableLine)}
    (hholds : (m.database 0).Holds m.site.getpwnam tables) :
    rebootJobs m = [] := by
  unfold rebootJobs
  split
  · rfl
  · rw [List.filter_eq_nil_iff]
    intro job hmem
    obtain ⟨j, hjob⟩ : ∃ j, IsJob m.site.getpwnam (m.database 0).heap j
        job.e.entry := by
      have hall := hholds.isJobs
      generalize allJobs tables = js at hall
      generalize jobsOf (m.database 0).users = jobs at hall hmem
      induction hall with
      | nil => cases hmem
      | @cons j job' js jobs hjob _ ih =>
          rcases List.mem_cons.mp hmem with rfl | hmem
          · exact ⟨j, hjob⟩
          · exact ih hmem
    obtain ⟨⟨pw, -, hmade⟩, -⟩ := hjob
    rw [hmade.reboot]
    exact Bool.false_ne_true

/-- The jobs that are due at a call, each with the call. -/
def Call.served (site : Site) (tables : List (List TableLine)) (c : Call) :
    List (Call × (JobLine × EnvFun)) :=
  (c.due site tables).map (Prod.mk c)

/-- A job that was run is this job of the tables of its call. -/
def RunsFor (m : Machine) (s : Call × (JobLine × EnvFun)) (job : Job) :
    Prop :=
  IsJob m.site.getpwnam s.1.db.heap s.2 job.e.entry

/-- **From the crontabs to what is run.** In every run, however the
tables change and whatever the clock does: what crond runs is, for each
call of `find_jobs` in turn, the jobs of the tables that are due, each of
them once, as the user and with the command and the settings that the
table has for it. -/
theorem crontabs_served (h : Reachable m granted d)
    (hgranted : ∀ n, granted n = true)
    {tables : Db → List (List TableLine)}
    (hholds : ∀ n, (m.database n).Holds m.site.getpwnam
      (tables (m.database n)))
    (hnames : ∀ n pw, m.site.getpwnam n = some pw → pw.pwName = n)
    (hvalid : ∀ c ∈ d.calls, ∀ tz,
      (m.site.localtime tz c.startTime).tm.Valid) :
    List.Forall₂ (RunsFor m)
      (d.calls.flatMap fun c => c.served m.site (tables c.db)) d.ran := by
  obtain ⟨js, js', hran, -, hreboot, hpicked⟩ := h.picked
  rw [hran, hreboot hgranted, rebootJobs_tables (hholds 0), List.nil_append,
    hpicked.all hgranted]
  have hlooks := h.looks.calls
  generalize d.calls = cs at hlooks hvalid
  clear hpicked hran
  induction cs with
  | nil => exact .nil
  | cons c cs ih =>
      obtain ⟨n, hdb⟩ := hlooks c List.mem_cons_self
      rw [List.flatMap_cons, List.flatMap_cons]
      refine List.rel_append ?_ ?_
      · have hcall : c.db.Holds m.site.getpwnam (tables c.db) := by
          rw [hdb]
          exact hholds n
        unfold Call.served
        rw [List.forall₂_map_left_iff]
        exact Call.jobs_due hcall hnames (hvalid c List.mem_cons_self)
      · exact ih (fun c' hc' => hlooks c' (List.mem_cons_of_mem c hc'))
          (fun c' hc' => hvalid c' (List.mem_cons_of_mem c hc'))

end

/-- A database of one job. -/
def oneJob (e : Entry) (heap : CHeap) : Db :=
  { users := [{ addr := 0, name := CString.ofString "*system*"
                tabname := CString.ofString "/etc/crontab", mtime := 0
                crontab := [{ addr := 1, entry := e }] }]
    heap := heap
    distinct := List.nodup_singleton 1 }

/-- A machine with this job, whose clock reads a minute to a quarter past
midnight, and then a quarter past. -/
def quarterMachine (e : Entry) (heap : CHeap) : Machine :=
  { greenwichMachine [840, 900] with database := fun _ => oneJob e heap }

/-- A setting and a job. -/
def quarterTable : List TableLine := [.setting mailtoLine, .job quarterLine]

/-- The user's record has the user's name. -/
theorem rootOnly_name {n : CString} {pw : Passwd}
    (h : rootOnly n = some pw) : pw.pwName = n := by
  unfold rootOnly at h
  split at h
  · next hn =>
    injection h with h
    rw [← h]
    exact cstring_ext hn.symm
  · cases h

/-- The job of a table is run at a quarter past midnight. -/
theorem quarter_served :
    ∃ e heap d c, Turn (quarterMachine e heap)
        (start (quarterMachine e heap) fun _ => true) d
      ∧ d.calls = [c]
      ∧ List.Forall₂ (RunsFor (quarterMachine e heap))
        ((tableJobs (fun _ => none) quarterTable).map (Prod.mk c))
        d.ran := by
  have hknown : UsersKnown rootOnly quarterTable := by
    intro l hl
    simp only [quarterTable, List.mem_cons, reduceCtorEq,
      TableLine.job.injEq, List.not_mem_nil, or_false, false_or] at hl
    rw [hl]
    exact ⟨rootPasswd, by decide⟩
  have hfile : (Stream.ofBytes (tableText quarterTable ++ [])).rest = _ := rfl
  have hgranted : AllGranted freshHeap := fun _ => rfl
  have hending : ∀ c ∈ ([] : List UInt8), isToken lineTerms c = true := by
    simp
  have hdue : quarterLine.DueAt (greenwich 900).tm := by decide +kernel
  have hvalid : (greenwich 900).tm.Valid :=
    { sec := by decide, min := by decide, hour := by decide
      mon := by decide, mday_pos := by decide, mday_le := by decide }
  obtain ⟨r, lu, new, hload, hu, hcrontab, -, hmade, -⟩ :=
    loadUser_table "/etc/crontab" hknown hgranted hending hfile
      (show 2 < 3 by decide) (CString.ofString "*system*")
      (CString.ofString "/etc/crontab") []
  cases hmade with
  | @cons _ p _ ps hjob hnil =>
      cases hnil
      have hholds : (oneJob p.1 r.heap).Holds rootOnly [quarterTable] :=
        .cons (.load hknown hgranted hending hfile (show 2 < 3 by decide)
          hload hu hcrontab.symm fun _ _ _ => rfl) .nil
      have hturn : ∃ d, turn (quarterMachine p.1 r.heap) 1
          (start (quarterMachine p.1 r.heap) fun _ => true) = some d
          ∧ d.calls = [{ db := oneJob p.1 r.heap, startTime := 900
                         gmtOff := 0, vtime := 15, doWild := true
                         doNonWild := true }] :=
        ⟨_, rfl, rfl⟩
      obtain ⟨d, hd, hcalls⟩ := hturn
      have hserved : List.Forall₂ (RunsFor (quarterMachine p.1 r.heap))
          (d.calls.flatMap fun c =>
            c.served (quarterMachine p.1 r.heap).site [quarterTable])
          d.ran := by
        refine @crontabs_served (quarterMachine p.1 r.heap) _ d
          (Relation.ReflTransGen.single ⟨1, hd⟩) (fun _ => rfl)
          (fun _ => [quarterTable]) (fun _ => hholds)
          (fun _ _ => rootOnly_name) ?_
        rw [hcalls]
        intro c hc _
        rw [List.mem_singleton.mp hc]
        exact hvalid
      refine ⟨p.1, r.heap, d, _, ⟨1, hd⟩, hcalls, ?_⟩
      rw [hcalls] at hserved
      have hall : Call.due (quarterMachine p.1 r.heap).site [quarterTable]
          { db := oneJob p.1 r.heap, startTime := 900, gmtOff := 0
            vtime := 15, doWild := true, doNonWild := true }
          = tableJobs (fun _ => none) quarterTable :=
        List.filter_cons_of_pos (decide_eq_true ⟨hdue, by split <;> rfl⟩)
      unfold Call.served at hserved
      rw [List.flatMap_singleton, hall] at hserved
      exact hserved

end Tinjac.Crond
