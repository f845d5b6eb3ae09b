/-
What the locks and the time stamps are good for.

Two runs of a job never overlap (`one_run_at_a_time`), whatever anacrons
are about. That a job is not run twice in its period is true with an
exception (`launch_spaced`): the time stamp was read before the file was
locked, and a job that another anacron launched may have ended between.
Then it is run again, and `backup_runs_twice` shows how.
-/
import Tinjac.Anacron.Proofs.Lock
import Tinjac.Anacron.Proofs.Stamp

namespace Tinjac.Anacron

open Interleave

-- ================================================= two anacrons, one job

/-- A job to be run every day. -/
def backup : JobRec :=
  { period := 1, namedPeriod := none, delay := 0
    ident := { bytes := bytes "backup", noNul := by decide }
    tabLine := 1, argNum := 0, dropJob := false }

/-- The table of `backup` alone. -/
def backupTable (tab : List JobRec) : Prop := tab = [backup]

theorem backupTable_distinct (tab : List JobRec) (h : backupTable tab) :
    ((selected tab).map (·.ident)).Nodup := by
  rw [h]
  exact List.nodup_singleton _

/-- No `-f`, no `-n`, no `-s`, and no `START_HOURS_RANGE`. -/
def plain : Options :=
  { force := false, now := false, serialize := false
    rangeStart := -1, rangeStop := -1 }

/-- The date at which both anacrons are started. -/
def leapDay : Date := { year := 2024, month := 2, day := 29 }

/-- The time at which they look at the job. -/
def noon : Tm :=
  { sec := 0, min := 0, hour := 12, mday := 29, mon := 1, year := 124 }

/-- Found in a new file, and locked after so many writes. -/
def backupTaken (atLock : Nat) : Taken :=
  { job := backup, seen := [], clock := noon, atRead := 0, atLock := atLock }

/-- Two anacrons read the file; one locks it, runs the job to its end and
writes the date; and then the other locks it. -/
theorem backup_race :
    ∃ s m, Reachable backupTable s ∧ s.own 0 = some m
      ∧ m.phase.jobs = [backupTaken 1]
      ∧ ∃ x ∈ s.shared.launches, x.opts = plain ∧ x.date = leapDay
        ∧ x.taken = backupTaken 1
        ∧ x.file.writes = [{ date := leapDay, faked := false }] := by
  have hone : ∀ t, Phase.running (arrange plain.now [t]) []
      = .running [t] [] := fun t =>
    congrArg (Phase.running · []) (List.mergeSort_singleton t)
  have h := Relation.ReflTransGen.single
    (@Step.step Pid (Option Proc) Spool _ (Turn backupTable)
      (System.init fun _ => []) 0 _ _
      (@Turn.start backupTable 0 _ plain leapDay (fun _ => 12) _ rfl
        (by decide)))
  have h := h.tail (.step 0 (.work
    (@Work.due _ _ _ _ _ _ _ noon rfl trivial rfl)))
  have h := h.tail (.step 1 (@Turn.start backupTable 1 _ plain leapDay
    (fun _ => 12) _ rfl (by decide)))
  have h := h.tail (.step 1 (.work
    (@Work.due _ _ _ _ _ _ _ noon rfl trivial rfl)))
  have h := h.tail (.step 1 (.work (.lock rfl (Or.inl rfl))))
  have h := h.tail (.step 1 (.work (.arranged rfl)))
  have h := h.tail (.step 1 (.work (@Work.launch _ _ _ _ (backupTaken 0)
    [] [] (hone _) rfl fun _ => rfl)))
  have h := h.tail (.step 1 (.work (@Work.tend _ _ _ _ (backupTaken 0)
    [] [] [] rfl)))
  have h := h.tail (.step 0 (.work (.lock rfl (Or.inl rfl))))
  have h := h.tail (.step 0 (.work (.arranged rfl)))
  have h := h.tail (.step 0 (.work (@Work.launch _ _ _ _ (backupTaken 1)
    [] [] (hone _) rfl fun _ => rfl)))
  exact ⟨_, _, ⟨_, h⟩, rfl, rfl, _,
    List.mem_append_right _ (List.mem_singleton_self _), rfl, rfl, rfl, rfl⟩

-- ========================================================== exclusion

section

variable {tables : List JobRec → Prop} {s : System}

/-- The jobs of a process that are running are locked. -/
theorem Phase.jobs_held {ph : Phase} {t : Taken} (h : t ∈ ph.jobs) :
    t ∈ ph.held := by
  cases ph with
  | arranging _ _ => cases h
  | locking _ _ _ => cases h
  | running todo jobs => exact List.mem_append_right todo h
  | faking _ => cases h

theorem Proc.Sound.jobs_nodup {p : Pid} {m : Proc} {files : Files}
    (h : m.Sound p files) :
    (m.phase.jobs.map fun t => t.job.ident).Nodup := by
  have hheld := h.held_nodup
  generalize m.phase = ph at hheld
  cases ph with
  | arranging _ _ => exact List.nodup_nil
  | locking _ _ _ => exact List.nodup_nil
  | running todo jobs =>
      exact hheld.sublist ((List.sublist_append_right todo jobs).map _)
  | faking _ => exact List.nodup_nil

/-- **One run at a time.** Whatever anacrons are started, in whatever
order their steps come, and whichever of them are killed: as long as no
table names two jobs that it asks for alike, there is at most one job of
a name among those that anacrons have launched and wait for. -/
theorem one_run_at_a_time
    (htables : ∀ tab, tables tab → ((selected tab).map (·.ident)).Nodup)
    (hr : Reachable tables s) {p q : Pid} {m n : Proc}
    (hp : s.own p = some m) (hq : s.own q = some n) {t u : Taken}
    (ht : t ∈ m.phase.jobs) (hu : u ∈ n.phase.jobs)
    (hsame : t.job.ident = u.job.ident) :
    p = q ∧ t = u ∧ (m.phase.jobs.map fun t => t.job.ident).Nodup := by
  have hm := hr.sound htables p m hp
  have hn := hr.sound htables q n hq
  have hown := hm.owned t (Phase.jobs_held ht)
  have hown' := hn.owned u (Phase.jobs_held hu)
  rw [hsame, hown'] at hown
  injection hown with hpq
  subst hpq
  rw [hp] at hq
  injection hq with hmn
  subst hmn
  have hnodup := hm.jobs_nodup
  exact ⟨rfl, List.inj_on_of_nodup_map hnodup ht hu hsame, hnodup⟩

end

/-- While one of them runs it, the other does not. -/
theorem backup_alone :
    ∃ s m, Reachable backupTable s ∧ s.own 0 = some m
      ∧ m.phase.jobs = [backupTaken 1]
      ∧ ∀ q n u, s.own q = some n → u ∈ n.phase.jobs →
        u.job.ident = backup.ident → q = 0 ∧ u = backupTaken 1 := by
  obtain ⟨s, m, hr, hm, hjobs, -⟩ := backup_race
  refine ⟨s, m, hr, hm, hjobs, fun q n u hq hu hident => ?_⟩
  have ht : backupTaken 1 ∈ m.phase.jobs := by
    rw [hjobs]
    exact List.mem_singleton_self _
  obtain ⟨hpq, htu, -⟩ :=
    one_run_at_a_time backupTable_distinct hr hm hq ht hu hident.symm
  exact ⟨hpq.symm, htu.symm⟩

-- ============================================================ the spacing

section

variable {tables : List JobRec → Prop} {s : System}

/-- Every launch is fair: the job was due by what its anacron had read in
the file, and since the file was locked nothing was written to it, but by
`-u`. -/
theorem Reachable.launches
    (htables : ∀ tab, tables tab → ((selected tab).map (·.ident)).Nodup)
    (hr : Reachable tables s) :
    ∀ x ∈ s.shared.launches, x.taken.Fair x.opts x.date x.file := by
  obtain ⟨first, hsteps⟩ := hr
  refine (keeps htables).shared
    (fun g => ∀ x ∈ g.launches, x.taken.Fair x.opts x.date x.file)
    ?_ (fun p m hm => by cases hm) (fun _ hx => by cases hx) hsteps
  intro p o g o' g' hs hall h
  cases h with
  | work turn =>
      cases turn with
      | @launch t todo jobs here kept alone =>
          intro x hx
          rcases List.mem_append.mp hx with hx | hx
          · exact hall x hx
          · rw [List.mem_singleton.mp hx]
            refine (hs _ rfl).fair t ?_
            rw [here]
            exact List.mem_cons_self
      | early _ _ _ => exact hall
      | due _ _ _ => exact hall
      | lock _ _ => exact hall
      | locked _ _ _ => exact hall
      | arranged _ => exact hall
      | drop _ _ => exact hall
      | tend _ => exact hall
  | start _ _ => exact hall
  | startUpdate _ _ => exact hall
  | fake _ => exact hall
  | usr1 _ => exact hall
  | exit _ => exact hall
  | die => exact hall

/-- The period of a job is over, so many days after it was run. -/
def PeriodOver (j : JobRec) (clock : Tm) (dayDelta : Int) : Prop :=
  ¬ (0 ≤ dayDelta ∧ dayDelta < j.period)
    ∧ ∀ p, j.namedPeriod = some p →
      (p.days clock).1 ≤ dayDelta ∨ dayDelta = (p.days clock).2

theorem tooEarly_eq_false_iff {dayNow : Int} {clock : Tm} {j : JobRec}
    {timestamp : List UInt8} (h : timestamp.length = 8) :
    tooEarly false dayNow clock j timestamp = false
      ↔ PeriodOver j clock (dayNow - stampDay timestamp) := by
  unfold tooEarly PeriodOver
  rw [if_pos ⟨rfl, h⟩]
  dsimp only
  generalize dayNow - stampDay timestamp = delta
  by_cases hperiod : 0 ≤ delta ∧ delta < j.period
  · rw [if_pos hperiod]
    exact ⟨fun h => (by cases h), fun h => absurd hperiod h.1⟩
  · rw [if_neg hperiod]
    cases j.namedPeriod with
    | none =>
        exact ⟨fun _ => ⟨hperiod, fun _ h => (by cases h)⟩, fun _ => rfl⟩
    | some p =>
        dsimp only
        rw [Bool.and_eq_false_iff, decide_eq_false_iff_not,
          decide_eq_false_iff_not, Int.not_lt, not_not]
        constructor
        · intro h
          refine ⟨hperiod, fun p' hp' => ?_⟩
          injection hp' with hp'
          rw [← hp']
          exact h
        · intro h
          exact h.2 p rfl

/-- **A job is launched when its period is over.** Whatever anacrons are
about: when one launches a job without `-f`, its period is over since
the day that is in its time stamp file; or that day was written since
the anacron read the file, and then by `-u`, or before it locked it. -/
theorem launch_spaced
    (htables : ∀ tab, tables tab → ((selected tab).map (·.ident)).Nodup)
    (hr : Reachable tables s) {x : Launch} (hx : x ∈ s.shared.launches)
    (hforce : x.opts.force = false) {w : Write}
    (hw : x.file.writes.getLast? = some w) (hfits : w.date.Fits) :
    PeriodOver x.taken.job x.taken.clock (x.date.dayNum - w.date.dayNum)
      ∨ x.taken.atRead < x.file.writes.length
        ∧ (w.faked = true ∨ x.taken.atRead < x.taken.atLock
          ∧ x.taken.atLock = x.file.writes.length) := by
  have hfair := hr.launches htables x hx
  have hlocked := hfair.locked
  by_cases hread : x.taken.atRead = x.file.writes.length
  · refine Or.inl ?_
    have hbytes : x.file.bytesAt x.taken.atRead = stamp w.date := by
      unfold TsFile.bytesAt
      rw [hread, List.take_length, hw]
    obtain ⟨hday, hlength⟩ := stampDay_stamp hfits
    have hdue := hfair.due
    rw [hforce, hfair.seen, hbytes, tooEarly_eq_false_iff hlength, hday]
      at hdue
    exact hdue
  · have hlt : x.taken.atRead < x.file.writes.length :=
      Nat.lt_of_le_of_ne hfair.read hread
    refine Or.inr ⟨hlt, ?_⟩
    by_cases hlock : x.taken.atLock < x.file.writes.length
    · -- what was written last was written under the lock
      refine Or.inl (hfair.faked w ?_)
      have hlast : (x.file.writes.drop x.taken.atLock).getLast? = some w := by
        rw [List.getLast?_drop, if_neg (Nat.not_le.mpr hlock)]
        exact hw
      exact List.mem_of_getLast? hlast
    · exact Or.inr ⟨by omega, by omega⟩

end

/-- The job that is to be run every day is run twice on one. -/
theorem backup_runs_twice :
    ∃ s, Reachable backupTable s ∧ ∃ x ∈ s.shared.launches,
      ∃ w, x.file.writes.getLast? = some w ∧ w.faked = false
        ∧ w.date = x.date ∧ x.taken.job = backup
        ∧ x.taken.atRead < x.taken.atLock := by
  obtain ⟨s, -, hr, -, -, x, hx, hopts, hdate, htaken, hwrites⟩ := backup_race
  have hw : x.file.writes.getLast?
      = some { date := leapDay, faked := false } := by
    rw [hwrites]
    rfl
  refine ⟨s, hr, x, hx, _, hw, rfl, hdate.symm, by rw [htaken]; rfl, ?_⟩
  rcases launch_spaced backupTable_distinct hr hx (by rw [hopts]; rfl) hw
    ⟨by decide, by decide, by decide⟩ with hover | ⟨-, hfaked | hlock⟩
  · rw [htaken, hdate, Int.sub_self] at hover
    exact absurd ⟨by decide, by decide⟩ hover.1
  · cases hfaked
  · exact hlock.1

end Tinjac.Anacron
