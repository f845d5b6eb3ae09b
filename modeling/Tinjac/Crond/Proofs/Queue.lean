/-
What crond runs.

A call of `find_jobs` picks jobs of the database (`Call.jobs`). The
queue refuses what it already has, but it is always empty when
`find_jobs` starts, and a database has no entry twice: so a call puts
exactly its picks on the queue, in order, as far as `malloc` lets it
(`findJobs_jobs`). What is on the queue is run before the next call, and
before the database is loaded again.

So what crond has run is what its calls picked, one call after the
other, behind the `@reboot` jobs. The induction is on the turns of the
main loop, and says what came since a state with an empty queue, what is
still on the queue counted in (`Since`).
-/
import Tinjac.Crond.Model.Clock
import Tinjac.Proofs.Job
import Mathlib.Data.List.Nodup
import Mathlib.Logic.Relation

namespace Tinjac.Crond

-- ============================================================ the picks

/-- The entries of a database, each with its user. -/
def jobsOf (users : List User) : List Job :=
  users.flatMap fun u => u.crontab.map fun e => { e := e, u := u }

/-- The jobs a call picks: those of its database that are due at its
reading of the clock and of the kind it asks for. -/
def Call.jobs (site : Site) (c : Call) : List Job :=
  (jobsOf c.db.users).filter fun j =>
    wanted site c.db c.startTime c.doWild c.doNonWild j.e.entry

/-- The jobs `run_reboot_jobs` picks: those with `@reboot`, in the order
of the database, or none if the lock file is there already. -/
def rebootJobs (m : Machine) : List Job :=
  if m.rebootLock then []
  else (jobsOf (m.database 0).users).filter fun j =>
    hasFlag j.e.entry.flags whenReboot

/-- Add jobs to the queue one after the other; a job that is in it already
is not added again, and one for which there is no memory is lost. -/
def addAll (q : JobQueue) (js : List Job) : JobQueue :=
  js.foldl (fun q j => jobAdd q j.e j.u) q

/-- The loop over users and entries adds the jobs that are picked. -/
theorem foldl_jobs (p : Entry → Bool) (users : List User) (q : JobQueue) :
    users.foldl
        (fun q u => u.crontab.foldl
          (fun q e => if p e.entry then jobAdd q e u else q) q) q
      = addAll q ((jobsOf users).filter fun j => p j.e.entry) := by
  unfold addAll jobsOf
  rw [List.foldl_filter, List.foldl_flatMap]
  congr 1
  funext q u
  rw [List.foldl_map]

theorem jobsOf_addr (users : List User) :
    (jobsOf users).map (fun j => j.e.addr)
      = (entriesOf users).map EntryAt.addr := by
  unfold jobsOf entriesOf
  rw [List.map_flatMap, List.map_flatMap]
  simp only [List.map_map]
  rfl

-- ============================================================ the queue

/-- A job that is not on the queue is added, if there is memory. -/
theorem jobAdd_jobs {q : JobQueue} {j : Job}
    (hnew : ∀ k ∈ q.jobs, k.e.addr ≠ j.e.addr) :
    (jobAdd q j.e j.u).jobs
      = q.jobs ++ if q.granted q.asked then [j] else [] := by
  have hany : (q.jobs.any fun k => k.is j.e j.u) = false := by
    rw [List.any_eq_false]
    intro k hk his
    unfold Job.is at his
    rw [Bool.and_eq_true, beq_iff_eq] at his
    exact hnew k hk his.1
  unfold jobAdd
  rw [hany, if_neg (by decide)]
  dsimp only
  split
  · rfl
  · rw [List.append_nil]

@[simp] theorem jobAdd_granted (q : JobQueue) (e : EntryAt) (u : User) :
    (jobAdd q e u).granted = q.granted := by
  unfold jobAdd
  split
  · rfl
  · dsimp only
    split
    · rfl
    · rfl

theorem addAll_granted (q : JobQueue) (js : List Job) :
    (addAll q js).granted = q.granted := by
  induction js generalizing q with
  | nil => rfl
  | cons j js ih =>
      show (addAll (jobAdd q j.e j.u) js).granted = q.granted
      rw [ih, jobAdd_granted]

/-- Jobs that are not on the queue, and not twice in the list, are added
in order: all of them, unless memory is short. -/
theorem addAll_jobs {js : List Job} {q : JobQueue}
    (hnodup : (js.map fun j => j.e.addr).Nodup)
    (hnew : ∀ k ∈ q.jobs, ∀ j ∈ js, k.e.addr ≠ j.e.addr) :
    ∃ added, (addAll q js).jobs = q.jobs ++ added ∧ added.Sublist js
      ∧ ((∀ n, q.granted n = true) → added = js) := by
  induction js generalizing q with
  | nil =>
      refine ⟨[], ?_, List.Sublist.slnil, fun _ => rfl⟩
      rw [List.append_nil]
      rfl
  | cons j js ih =>
      obtain ⟨hj, hjs⟩ := List.nodup_cons.mp hnodup
      have hadd : (jobAdd q j.e j.u).jobs
          = q.jobs ++ if q.granted q.asked then [j] else [] :=
        jobAdd_jobs fun k hk => hnew k hk j List.mem_cons_self
      have hnext : ∀ k ∈ (jobAdd q j.e j.u).jobs, ∀ i ∈ js,
          k.e.addr ≠ i.e.addr := by
        intro k hk i hi
        rw [hadd, List.mem_append] at hk
        rcases hk with hk | hk
        · exact hnew k hk i (List.mem_cons_of_mem j hi)
        · have hkj : k = j := by
            split at hk
            · exact List.mem_singleton.mp hk
            · cases hk
          intro heq
          apply hj
          show j.e.addr ∈ js.map fun j => j.e.addr
          rw [← hkj, heq]
          exact List.mem_map_of_mem hi
      obtain ⟨added, hjobs, hsub, hall⟩ := ih hjs hnext
      rw [hadd, List.append_assoc] at hjobs
      refine ⟨_, hjobs, ?_, ?_⟩
      · split
        · exact hsub.cons_cons j
        · exact hsub.cons j
      · intro hgranted
        rw [if_pos (hgranted _), hall fun n => ?_]
        · rfl
        · rw [jobAdd_granted]
          exact hgranted n

/-- Jobs of a database on an empty queue. -/
theorem addAll_empty {q : JobQueue} (hq : q.jobs = []) (db : Db)
    (p : Job → Bool) :
    ((addAll q ((jobsOf db.users).filter p)).jobs).Sublist
        ((jobsOf db.users).filter p)
      ∧ ((∀ n, q.granted n = true) →
        (addAll q ((jobsOf db.users).filter p)).jobs
          = (jobsOf db.users).filter p) := by
  have hnodup : (((jobsOf db.users).filter p).map fun j => j.e.addr).Nodup := by
    have hall := db.distinct
    rw [← jobsOf_addr] at hall
    exact hall.sublist (List.filter_sublist.map _)
  have hnew : ∀ k ∈ q.jobs, ∀ j ∈ (jobsOf db.users).filter p,
      k.e.addr ≠ j.e.addr := by
    rw [hq]
    intro k hk
    cases hk
  obtain ⟨added, hjobs, hsub, hall⟩ := addAll_jobs hnodup hnew
  rw [hq, List.nil_append] at hjobs
  rw [hjobs]
  exact ⟨hsub, hall⟩

-- ============================================================= the runs

/-- One turn of the main loop, however long it waited. -/
def Turn (m : Machine) (d d' : Daemon) : Prop :=
  ∃ fuel, turn m fuel d = some d'

/-- What crond is in after any number of turns of its loop, from its start
on. -/
def Reachable (m : Machine) (granted : Nat → Bool) (d : Daemon) : Prop :=
  Relation.ReflTransGen (Turn m) (start m granted) d

/-- The jobs are what the calls picked, less what there was no memory
for. -/
structure Picked (site : Site) (granted : Nat → Bool) (calls : List Call)
    (jobs : List Job) : Prop where
  sub : jobs.Sublist (calls.flatMap (Call.jobs site))
  all : (∀ n, granted n = true) → jobs = calls.flatMap (Call.jobs site)

/-- What was run since `d0`, and what is about to be, is what was picked
since. -/
structure Since (m : Machine) (d0 d : Daemon) : Prop where
  granted : d.queue.granted = d0.queue.granted
  picked : ∃ calls jobs, d.calls = d0.calls ++ calls
    ∧ d.ran ++ d.queue.jobs = d0.ran ++ jobs
    ∧ Picked m.site d0.queue.granted calls jobs

section

variable {m : Machine} {granted : Nat → Bool} {d0 d d' : Daemon}

theorem Picked.append {site : Site} {cs cs' : List Call} {js js' : List Job}
    (h : Picked site granted cs js) (h' : Picked site granted cs' js') :
    Picked site granted (cs ++ cs') (js ++ js') where
  sub := by
    rw [List.flatMap_append]
    exact h.sub.append h'.sub
  all := by
    intro hgranted
    rw [List.flatMap_append, h.all hgranted, h'.all hgranted]

theorem Since.refl (hempty : d.queue.jobs = []) : Since m d d where
  granted := rfl
  picked := by
    refine ⟨[], [], ?_, ?_, List.Sublist.slnil, fun _ => rfl⟩
    · rw [List.append_nil]
    · rw [hempty]

theorem Since.trans (h : Since m d0 d) (hempty : d.queue.jobs = [])
    (h' : Since m d d') : Since m d0 d' where
  granted := h'.granted.trans h.granted
  picked := by
    obtain ⟨cs, js, hcs, hjs, hp⟩ := h.picked
    obtain ⟨cs', js', hcs', hjs', hp'⟩ := h'.picked
    rw [hempty, List.append_nil] at hjs
    rw [h.granted] at hp'
    refine ⟨cs ++ cs', js ++ js', ?_, ?_, hp.append hp'⟩
    · rw [hcs', hcs, List.append_assoc]
    · rw [hjs', hjs, List.append_assoc]

/-- The clocks and the database do not matter. -/
theorem Since.congr (h : Since m d0 d) (hqueue : d'.queue = d.queue)
    (hran : d'.ran = d.ran) (hcalls : d'.calls = d.calls) :
    Since m d0 d' where
  granted := by
    rw [hqueue]
    exact h.granted
  picked := by
    rw [hqueue, hran, hcalls]
    exact h.picked

theorem setTime_queue (b : Bool) : (setTime m b d).queue = d.queue := by
  unfold setTime
  dsimp only
  split
  · rfl
  · rfl

theorem setTime_ran (b : Bool) : (setTime m b d).ran = d.ran := by
  unfold setTime
  dsimp only
  split
  · rfl
  · rfl

theorem setTime_calls (b : Bool) : (setTime m b d).calls = d.calls := by
  unfold setTime
  dsimp only
  split
  · rfl
  · rfl

theorem setTime_db (b : Bool) : (setTime m b d).db = d.db := by
  unfold setTime
  dsimp only
  split
  · rfl
  · rfl

theorem Since.setTime (h : Since m d0 d) (b : Bool) :
    Since m d0 (setTime m b d) :=
  h.congr (setTime_queue b) (setTime_ran b) (setTime_calls b)

theorem Since.virtualTime (h : Since m d0 d) (v : Int) :
    Since m d0 { d with virtualTime := v } :=
  h.congr rfl rfl rfl

/-- What is on the queue is run. -/
theorem Since.runqueue (h : Since m d0 d) :
    Since m d0 (jobRunqueue d) where
  granted := h.granted
  picked := by
    obtain ⟨cs, js, hcs, hjs, hp⟩ := h.picked
    refine ⟨cs, js, hcs, ?_, hp⟩
    show (d.ran ++ d.queue.jobs) ++ [] = d0.ran ++ js
    rw [List.append_nil]
    exact hjs

/-- A call of `find_jobs` as things stand. -/
def Daemon.call (d : Daemon) (vtime : Int) (doWild doNonWild : Bool) :
    Call :=
  { db := d.db, startTime := d.startTime, gmtOff := d.gmtOff, vtime := vtime
    doWild := doWild, doNonWild := doNonWild }

theorem findJobs_jobs (vtime : Int) (w n : Bool) (q : JobQueue) :
    findJobs m.site d.db d.startTime vtime w n q
      = addAll q ((d.call vtime w n).jobs m.site) :=
  foldl_jobs (wanted m.site d.db d.startTime w n) d.db.users q

/-- A call of `find_jobs` puts its picks on an empty queue. -/
theorem Since.findJobs (h : Since m d0 d) (hempty : d.queue.jobs = [])
    (vtime : Int) (w n : Bool) : Since m d0 (d.findJobs m vtime w n) := by
  obtain ⟨cs, js, hcs, hjs, hp⟩ := h.picked
  obtain ⟨hsub, hall⟩ := addAll_empty hempty d.db fun j =>
    wanted m.site d.db d.startTime w n j.e.entry
  have hqueue : (d.findJobs m vtime w n).queue
      = addAll d.queue ((d.call vtime w n).jobs m.site) :=
    findJobs_jobs vtime w n d.queue
  rw [hempty, List.append_nil] at hjs
  refine ⟨?_, cs ++ [d.call vtime w n],
    js ++ (d.findJobs m vtime w n).queue.jobs, ?_, ?_, hp.append ⟨?_, ?_⟩⟩
  · rw [hqueue, addAll_granted]
    exact h.granted
  · rw [← List.append_assoc, ← hcs]
    rfl
  · rw [← List.append_assoc, ← hjs]
    rfl
  · rw [hqueue, List.flatMap_singleton]
    exact hsub
  · intro hgranted
    rw [hqueue, List.flatMap_singleton]
    apply hall
    rw [h.granted]
    exact hgranted

theorem Since.lateMinute (h : Since m d0 d) :
    Since m d0 (lateMinute m d) :=
  (h.runqueue.virtualTime _).findJobs rfl _ _ _

theorem Since.lateMinutes (h : Since m d0 d) :
    Since m d0 (lateMinutes m d) := by
  fun_induction Crond.lateMinutes m d with
  | case1 d _ ih => exact ih h.lateMinute
  | case2 d _ => exact h.lateMinute

theorem Since.missedMinute (h : Since m d0 d) :
    Since m d0 (missedMinute m d) :=
  ((h.runqueue.virtualTime _).findJobs rfl _ _ _).setTime false

theorem Since.missedMinutes (h : Since m d0 d) :
    Since m d0 (missedMinutes m d) := by
  fun_induction Crond.missedMinutes m d with
  | case1 d _ ih => exact ih h.missedMinute
  | case2 d _ => exact h.missedMinute

theorem Since.catchUp (h : Since m d0 d) (hempty : d.queue.jobs = []) :
    Since m d0 (catchUp m d) := by
  unfold Crond.catchUp
  dsimp only
  split
  · exact (h.virtualTime d.timeRunning).findJobs hempty _ _ _
  · split
    · exact h.lateMinutes
    · exact (h.findJobs hempty _ _ _).missedMinutes
    · exact h.findJobs hempty _ _ _
    · exact (h.virtualTime d.timeRunning).findJobs hempty _ _ _

/-- Waiting reads the clock, and nothing else. -/
theorem awaitMinute_keeps {fuel : Nat} (h : awaitMinute m fuel d = some d')
    {P : Daemon → Prop} (hstep : ∀ d, P d → P (setTime m false d))
    (hd : P d) : P d' := by
  induction fuel generalizing d with
  | zero => cases h
  | succ fuel ih =>
      unfold awaitMinute at h
      dsimp only at h
      split at h
      · exact ih h (hstep d hd)
      · injection h with h
        rw [← h]
        exact hstep d hd

/-- A turn: a reading of the clock that shows another minute, the
database, and what is done about the time that has passed. -/
theorem Turn.woken (h : Turn m d d') :
    ∃ fuel woken, awaitMinute m fuel d = some woken
      ∧ d' = jobRunqueue (catchUp m
          (loadDatabase m { woken with timeRunning := woken.clockTime })) := by
  obtain ⟨fuel, hturn⟩ := h
  unfold turn at hturn
  split at hturn
  · cases hturn
  · next woken hwait =>
    injection hturn with hturn
    exact ⟨fuel, woken, hwait, hturn.symm⟩

/-- One turn, from an empty queue to an empty queue. -/
theorem Turn.since (hturn : Turn m d d') (hempty : d.queue.jobs = []) :
    Since m d d' ∧ d'.queue.jobs = [] := by
  obtain ⟨fuel, woken, hwait, rfl⟩ := hturn.woken
  obtain ⟨hwoken, hstill⟩ :=
    awaitMinute_keeps hwait (P := fun w => Since m d w ∧ w.queue.jobs = [])
      (fun w hw => ⟨hw.1.setTime false, by rw [setTime_queue, hw.2]⟩)
      ⟨Since.refl hempty, hempty⟩
  have hloaded : Since m d
      (loadDatabase m { woken with timeRunning := woken.clockTime }) :=
    hwoken.congr rfl rfl rfl
  exact ⟨(hloaded.catchUp hstill).runqueue, rfl⟩

/-- Any number of turns, from a state in which no job waits on the queue:
what was run since is what was picked since, and no job waits at the end.
-/
theorem turns_since (h : Relation.ReflTransGen (Turn m) d d')
    (hempty : d.queue.jobs = []) : Since m d d' ∧ d'.queue.jobs = [] := by
  induction h with
  | refl => exact ⟨Since.refl hempty, hempty⟩
  | tail _ hturn ih =>
      obtain ⟨hsince, hstill⟩ := ih
      obtain ⟨hlast, hdone⟩ := hturn.since hstill
      exact ⟨hsince.trans hstill hlast, hdone⟩

-- ============================================================= the start

/-- What is set up before the `@reboot` jobs are looked for. -/
def booting (m : Machine) (granted : Nat → Bool) : Daemon :=
  setTime m true (loadDatabase m (.blank m granted))

theorem booting_queue (m : Machine) (granted : Nat → Bool) :
    (booting m granted).queue
      = { jobs := [], granted := granted, asked := 0 } := by
  unfold booting
  rw [setTime_queue]
  rfl

theorem booting_ran (m : Machine) (granted : Nat → Bool) :
    (booting m granted).ran = [] := by
  unfold booting
  rw [setTime_ran]
  rfl

theorem booting_db (m : Machine) (granted : Nat → Bool) :
    (booting m granted).db = m.database 0 := by
  unfold booting
  rw [setTime_db]
  rfl

/-- The `@reboot` jobs are run before the first turn, if the lock is not
there. -/
theorem start_shows (m : Machine) (granted : Nat → Bool) :
    (start m granted).calls = []
      ∧ (start m granted).queue.granted = granted
      ∧ (start m granted).queue.jobs = []
      ∧ ((start m granted).ran).Sublist (rebootJobs m)
      ∧ ((∀ n, granted n = true) →
        (start m granted).ran = rebootJobs m) := by
  have hcalls : (booting m granted).calls = [] := setTime_calls true
  have hqueue := booting_queue m granted
  have hran := booting_ran m granted
  have hdb := booting_db m granted
  have hstart : start m granted
      = { runRebootJobs m (booting m granted) with
          timeRunning := (runRebootJobs m (booting m granted)).clockTime
          virtualTime := (runRebootJobs m (booting m granted)).clockTime } :=
    rfl
  rw [hstart]
  generalize booting m granted = d at *
  unfold runRebootJobs rebootJobs
  split
  · refine ⟨hcalls, ?_, ?_, ?_, fun _ => hran⟩
    · show d.queue.granted = granted
      rw [hqueue]
    · show d.queue.jobs = []
      rw [hqueue]
    · show (d.ran).Sublist []
      rw [hran]
  · have hempty : d.queue.jobs = [] := by rw [hqueue]
    obtain ⟨hsub, hall⟩ := addAll_empty hempty d.db fun j =>
      hasFlag j.e.entry.flags whenReboot
    rw [foldl_jobs fun e => hasFlag e.flags whenReboot]
    rw [hdb] at hsub hall ⊢
    refine ⟨hcalls, ?_, rfl, ?_, ?_⟩
    · show (addAll d.queue _).granted = granted
      rw [addAll_granted, hqueue]
    · show (d.ran ++ (addAll d.queue _).jobs).Sublist _
      rw [hran]
      exact hsub
    · intro hgranted
      show d.ran ++ (addAll d.queue _).jobs = _
      rw [hran]
      apply hall
      rw [hqueue]
      exact hgranted

/-- Between the turns nothing is on the queue. -/
theorem Reachable.idle (h : Reachable m granted d) :
    d.queue.granted = granted ∧ d.queue.jobs = [] := by
  obtain ⟨-, hgr, hempty, -⟩ := start_shows m granted
  obtain ⟨hsince, hdone⟩ := turns_since h hempty
  exact ⟨hsince.granted.trans hgr, hdone⟩

/-- What was run since an idle moment. -/
theorem Since.ran (h : Since m d0 d) (hdone : d.queue.jobs = []) :
    ∃ cs js, d.calls = d0.calls ++ cs ∧ d.ran = d0.ran ++ js
      ∧ Picked m.site d0.queue.granted cs js := by
  obtain ⟨cs, js, hcs, hjs, hp⟩ := h.picked
  rw [hdone, List.append_nil] at hjs
  exact ⟨cs, js, hcs, hjs, hp⟩

/-- What was run: some of the `@reboot` jobs, and what the calls
picked. -/
theorem Reachable.picked (h : Reachable m granted d) :
    ∃ js js', d.ran = js ++ js' ∧ js.Sublist (rebootJobs m)
      ∧ ((∀ n, granted n = true) → js = rebootJobs m)
      ∧ Picked m.site granted d.calls js' := by
  obtain ⟨hnone, hgr, hempty, hsub, hall⟩ := start_shows m granted
  obtain ⟨hsince, hdone⟩ := turns_since h hempty
  obtain ⟨cs, js, hcs, hjs, hpicked⟩ := hsince.ran hdone
  rw [hnone, List.nil_append] at hcs
  rw [hgr, ← hcs] at hpicked
  exact ⟨_, js, hjs, hsub, hall, hpicked⟩

/-- **What crond runs.** After any number of turns, whatever the clock
did and however the crontabs changed: the `@reboot` jobs, and then at
each call of `find_jobs` the jobs it picks, each of them once, in the
order of the database; only a shortage of memory leaves jobs out. And
no job waits on the queue when the next turn begins, so none is there
when the database is replaced. -/
theorem crond_runs_picks (h : Reachable m granted d) :
    d.ran.Sublist (rebootJobs m ++ d.calls.flatMap (Call.jobs m.site))
      ∧ ((∀ n, granted n = true) →
        d.ran = rebootJobs m ++ d.calls.flatMap (Call.jobs m.site))
      ∧ d.queue.jobs = [] := by
  obtain ⟨-, hdone⟩ := h.idle
  obtain ⟨js, js', hran, hsub, hall, hpicked⟩ := h.picked
  rw [hran]
  refine ⟨hsub.append hpicked.sub, ?_, hdone⟩
  intro hgranted
  rw [hall hgranted, hpicked.all hgranted]

end

-- ========================================================= an example

/-- The clock of Greenwich, in January 1970. -/
def greenwich (seconds : Int) : LocalTime :=
  { tm := { sec := (seconds % 60).toNat, min := (seconds / 60 % 60).toNat
            hour := (seconds / 3600 % 24).toNat
            mday := (seconds / 86400).toNat + 1, mon := 0, year := 70 }
    isdst := 0, gmtoff := 0 }

/-- An entry of root that is due at any time. -/
def alwaysDue (flags : Nat) : Entry :=
  { pwd := rootPasswd, envp := 0, cmd := CString.ofString "true"
    bits := fields.foldl (fun bits f => setAll f bits) .zero
    flags := flags }

/-- A database of two jobs, one with stars. -/
def twoJobs : Db :=
  { users := [{ addr := 0, name := CString.ofString "root"
                tabname := CString.ofString "root", mtime := 0
                crontab := [{ addr := 1, entry := alwaysDue minStar },
                            { addr := 2, entry := alwaysDue 0 }] }]
    heap := freshHeap
    distinct := by decide }

/-- A machine with these two jobs, whose clock reads these times. -/
def greenwichMachine (times : List Int) : Machine :=
  { site := { localtime := fun _ => greenwich, tz := none
              getpwnam := rootOnly }
    time := fun n => times.getD n 0
    database := fun _ => twoJobs
    rebootLock := false }

/-- Crond starts, and wakes up a minute later: both jobs of its table are
run. -/
theorem first_minute :
    ∃ d, turn (greenwichMachine [0, 60]) 1
        (start (greenwichMachine [0, 60]) fun _ => true) = some d
      ∧ d.ran = rebootJobs (greenwichMachine [0, 60])
        ++ d.calls.flatMap (Call.jobs (greenwichMachine [0, 60]).site)
      ∧ d.ran.map (fun j => j.e.addr) = [1, 2] := by
  have hran : (turn (greenwichMachine [0, 60]) 1
      (start (greenwichMachine [0, 60]) fun _ => true)).map
        (fun d => d.ran.map fun j => j.e.addr) = some [1, 2] := by
    decide +kernel
  obtain ⟨d, hd, haddr⟩ := Option.map_eq_some_iff.mp hran
  have hreach : Reachable (greenwichMachine [0, 60]) (fun _ => true) d :=
    Relation.ReflTransGen.single ⟨1, hd⟩
  obtain ⟨-, hall, -⟩ := crond_runs_picks hreach
  exact ⟨d, hd, hall fun _ => rfl, haddr⟩

end Tinjac.Crond
