/-
The report of one entry.

`parseCrontab` prints the command, has `printTime` print the sets, and
prints the user when that comes back (`reportEntry_jobs`). It does not
come back where the search never ends, nor where `ptime_from_tm` throws
on what was found (`reports_iff`).
-/
import Tinjac.Model.Crontabs
import Tinjac.Proofs.Stops

namespace Tinjac

open BlockHeap CHeap

-- =========================================================== giving up

section

variable {e : Entry} {start now : Tm}

/-- Every day scan fails, and the months go one behind December. -/
def Entry.GivesUp (e : Entry) (now : Tm) : Prop :=
  now.mon = 0 ∧ bitTest e.bits monthField.name 12 = true ∧ ¬ e.FindsDay

/-- From January on such a search goes through the months and gives
up. -/
theorem comes_givesUp (hset : bitTest e.bits monthField.name 12 = true)
    (hday : e.domAt 1 = none) (hstart : start.mon = 0) {first : Bool}
    (hmday : 1 ≤ now.mday) {k : Nat} (hk : now.mon + k = 12) :
    Comes e start first now (.error domMsg) := by
  have hfound : ∀ (first : Bool) {mon : Nat}, mon ≤ 12 →
      ¬ e.MonthFails first mon := by
    intro first mon hmon
    apply Entry.not_monthFails_iff.mpr
    exact Or.inr ⟨12, hmon, Nat.le_refl _, hset⟩
  induction k generalizing first now with
  | zero =>
      refine ⟨1, ?_⟩
      rw [walk, if_neg (hfound first (by omega)),
        Entry.domAt_later hday hmday]
      dsimp only
      rw [if_pos (by omega)]
  | succ k ih =>
      have hnext : Leads e start first now false now.nextMonth :=
        leads_nextMonth (hfound first (by omega))
          (Entry.domAt_later hday hmday) (by omega)
      apply hnext.comes_iff.mpr
      apply ih
      · exact Nat.le_refl 1
      · show now.mon + 1 + k = 12
        omega

/-- **When the search gives up.** -/
theorem givesUp_iff (hs : e.StartsOver) (hmday : 1 ≤ now.mday) :
    (∃ msg, Computes e now (.error msg)) ↔ e.GivesUp now := by
  constructor
  · intro ⟨msg, hmsg⟩
    obtain ⟨hmon, hset⟩ :=
      comes_error (fun _ => Nat.le_refl _) (computes_iff_comes.mp hmsg)
    refine ⟨hmon, hset, fun hday => ?_⟩
    have hmonth : e.FindsMonth now :=
      Or.inl ⟨12, by decide, by decide, hset⟩
    obtain ⟨t, ht⟩ := Entry.prints_of_finds hs hmday ⟨hday, hmonth⟩
    cases ht.unique hmsg
  · intro ⟨hmon, hset, hday⟩
    have hnone : e.domAt 1 = none := by
      rw [Entry.findsDay_iff] at hday
      exact not_not.mp hday
    refine ⟨domMsg, computes_iff_comes.mpr ?_⟩
    apply comes_givesUp hset hnone hmon hmday
    show now.mon + 12 = 12
    omega

-- ========================================================= coming back

/-- `printTime` comes back from the entry: the search finds a time that
`ptime_from_tm` takes, or gives up. -/
def Entry.Reports (throws : Tm → Bool) (now : Tm) (e : Entry) : Prop :=
  (e.FindsDay ∧ e.FindsMonth now
      ∧ ∃ t, e.Shows (e.arrival now) t ∧ throws t = false)
    ∨ e.GivesUp now

/-- A search that ends so lets `printTime` come back: with a time that
`ptime_from_tm` takes, or with a message. -/
def ComesBack (throws : Tm → Bool) (res : Except String Tm) : Prop :=
  ∀ t, res = .ok t → throws t = false

theorem printTime_ending {fuel : Nat} {throws : Tm → Bool} :
    (printTime fuel throws now e).2 = .returned
      ↔ ∃ res, nextTime fuel e now = some res
        ∧ ComesBack throws res := by
  unfold printTime ComesBack
  dsimp only
  cases hnext : nextTime fuel e now with
  | none => simp
  | some res =>
      cases res with
      | error msg => simp
      | ok t =>
          cases hthrows : throws t with
          | true => simp [hthrows]
          | false => simp [hthrows]

theorem Entry.StartsOver.reports_iff (hs : e.StartsOver)
    (hmday : 1 ≤ now.mday) {throws : Tm → Bool} :
    (∃ res, Computes e now res ∧ ComesBack throws res)
      ↔ e.Reports throws now := by
  have hprints : ∀ t, Computes e now (.ok t)
      ↔ (e.FindsDay ∧ e.FindsMonth now) ∧ e.Shows (e.arrival now) t := by
    intro t
    constructor
    · intro ht
      exact ⟨Entry.finds_of_prints hs hmday ht, ((prints_iff hs).mp ht).2⟩
    · intro ⟨hfinds, hshows⟩
      exact (prints_iff hs).mpr
        ⟨Entry.findsMonth_iff.mp hfinds.2, hshows⟩
  unfold Entry.Reports
  rw [← givesUp_iff hs hmday]
  constructor
  · intro ⟨res, hres, hback⟩
    cases res with
    | ok t =>
        obtain ⟨⟨hday, hmonth⟩, hshows⟩ := (hprints t).mp hres
        exact Or.inl ⟨hday, hmonth, t, hshows, hback t rfl⟩
    | error msg => exact Or.inr ⟨msg, hres⟩
  · intro hreports
    rcases hreports with ⟨hday, hmonth, t, hshows, hthrows⟩ | ⟨msg, hmsg⟩
    · refine ⟨.ok t, (hprints t).mpr ⟨⟨hday, hmonth⟩, hshows⟩, ?_⟩
      intro t' ht'
      injection ht' with ht'
      rw [← ht']
      exact hthrows
    · exact ⟨.error msg, hmsg, fun t ht => by cases ht⟩

end

/-- **When the report of a loaded entry is completed.** -/
theorem reports_iff {fuel : Nat} {getpwnam : CString → Option Passwd}
    {file : Stream} {errorFunc : Bool} {pw : Option Passwd} {h : CHeap}
    {envp : Nat} {fname : String} {r : LoadResult} {e : Entry}
    (hload : loadEntry fuel getpwnam file errorFunc pw h envp fname
      = some r) (he : r.entry = some e) {now : Tm} (hnow : now.Valid)
    {throws : Tm → Bool} :
    (∃ fuel, (printTime fuel throws now e).2 = .returned)
      ↔ e.Reports throws now := by
  have hending : (∃ fuel, (printTime fuel throws now e).2 = .returned)
      ↔ ∃ res, Computes e now res ∧ ComesBack throws res := by
    constructor
    · intro ⟨fuel, hfuel⟩
      obtain ⟨res, hres, hback⟩ := printTime_ending.mp hfuel
      exact ⟨res, ⟨fuel, hres⟩, hback⟩
    · intro ⟨res, ⟨fuel, hres⟩, hback⟩
      exact ⟨fuel, printTime_ending.mpr ⟨res, hres, hback⟩⟩
  rw [hending]
  rcases loaded_startsOver_or_empty hload he with hs | ⟨hempty, hstars⟩
  · exact (hs e rfl).reports_iff hnow.mday_pos
  · -- `@reboot`
    obtain ⟨hday, hnever⟩ := empty_runs_on hempty hstars
    refine iff_of_false ?_ ?_
    · intro ⟨res, hres, _⟩
      exact hnever res hres
    · intro hreports
      rcases hreports with ⟨hfinds, -⟩ | ⟨-, hset, -⟩
      · exact hday hfinds
      · rw [bitTest_eq, hempty] at hset
        cases hset

-- =========================================================== its lines

/-- The lines about a job: its command, its schedule and its user. -/
def Line.isJob : Line → Bool
  | .command _ => true
  | .row _ _ => true
  | .user _ => true
  | .now _ => false
  | .time _ => false
  | .elog _ => false

/-- What is to be reported of a job. -/
def jobLines (e : Entry) : List Line :=
  .command e.cmd :: printRows e ++ [.user e.pwd.pwName]

theorem printTime_jobs (fuel : Nat) (throws : Tm → Bool) (now : Tm)
    (e : Entry) :
    (printTime fuel throws now e).1.filter Line.isJob = printRows e := by
  have hrows : (printRows e).filter Line.isJob = printRows e := rfl
  unfold printTime
  dsimp only
  split
  · rw [List.filter_append, hrows]
    rfl
  · rw [List.filter_append, List.filter_append, hrows]
    rfl
  · split
    · rw [List.filter_append, hrows]
      rfl
    · rw [List.filter_append, List.filter_append, hrows]
      rfl

/-- **What is reported**: the job, but for its user if `printTime` does
not come back. -/
theorem reportEntry_jobs (fuel : Nat) (sys : System) (e : Entry) :
    (reportEntry fuel sys e).output.filter Line.isJob
      = if (printTime fuel sys.ptimeThrows sys.now e).2 = .returned
        then jobLines e else .command e.cmd :: printRows e := by
  have hjobs := printTime_jobs fuel sys.ptimeThrows sys.now e
  unfold reportEntry
  generalize printTime fuel sys.ptimeThrows sys.now e = r at hjobs
  obtain ⟨lines, ending⟩ := r
  have hjobs : lines.filter Line.isJob = printRows e := hjobs
  have hcommand : (Line.command e.cmd :: lines).filter Line.isJob
      = .command e.cmd :: printRows e := by
    rw [List.filter_cons_of_pos rfl, hjobs]
  cases ending with
  | returned =>
      dsimp only
      rw [if_pos rfl, List.filter_append, hcommand]
      rfl
  | threw => exact hcommand
  | crashed => exact hcommand
  | running => exact hcommand

theorem reportEntry_ending (fuel : Nat) (sys : System) (e : Entry) :
    (reportEntry fuel sys e).ending
      = (printTime fuel sys.ptimeThrows sys.now e).2 := by
  unfold reportEntry
  dsimp only
  split
  · next hreturned => exact hreturned.symm
  · rfl

end Tinjac
