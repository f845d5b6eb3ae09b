/-
Named periods: `@daily`, `@weekly`, `@monthly`, `@yearly`.

On a machine where an anacron goes through its table every day and does
not drop the job, a job with a named period is run by the rule of
`Periods` (`Daily.rule`): `consider_job` compares the days since the last
run with the length of the last period and of this one. So the job is
run in every month, or year, from the first run on; but a month that is
longer than the one before may see it twice, on its first and its last
days.

The rule is about `RunOn`. What it says of the system's runs
(`run_in_each_period`) follows with what `Proofs.Daily` knows of them.
-/
import Tinjac.Anacron.Proofs.Daily
import Tinjac.Anacron.Proofs.Gregor
import Tinjac.Lib.Periods

namespace Tinjac.Anacron

open Gregorian Periods

-- ============================================================ the calendar

/-- The day that comes so many days after the first of January of the
year 1. -/
def calendar (n : Nat) : Day := Day.next^[n] Day.first

/-- The date as anacron has it. -/
def dateOf (d : Day) : Date :=
  { year := d.year, month := d.month + 1, day := d.day }

/-- The time is one of a day in that month. -/
structure InMonth (t : Tm) (d : Day) : Prop where
  mon : t.mon = d.month
  year : t.year + 1900 = d.year

/-- The lengths of the periods, the first of them the first there is. -/
def NamedPeriod.len : NamedPeriod → Nat → Nat
  | .monthly => fun k => daysIn ((k / 12 + 1 : Nat) : Int) (k % 12)
  | .yearly => fun k => yearLength ((k + 1 : Nat) : Int)
  | .daily => fun _ => 1
  | .weekly => fun _ => 7

/-- Every period has at least one day. -/
theorem NamedPeriod.len_pos (p : NamedPeriod) (k : Nat) : 0 < p.len k := by
  cases p with
  | monthly => exact Nat.lt_of_lt_of_le (by decide) (daysIn_pos _ _)
  | yearly =>
      show 0 < yearLength _
      unfold yearLength
      split
      · decide
      · decide
  | daily => exact Nat.one_pos
  | weekly =>
      show 0 < 7
      decide

/-- No period is more than twice as long as the next. -/
theorem NamedPeriod.len_le (p : NamedPeriod) (k : Nat) :
    p.len k ≤ 2 * p.len (k + 1) := by
  have hyear : ∀ y, 365 ≤ yearLength y ∧ yearLength y ≤ 366 := by
    intro y
    unfold yearLength
    split
    · decide
    · decide
  cases p with
  | monthly =>
      have hle := daysIn_le ((k / 12 + 1 : Nat) : Int) (k % 12)
      have hpos := daysIn_pos (((k + 1) / 12 + 1 : Nat) : Int) ((k + 1) % 12)
      show daysIn _ _ ≤ 2 * daysIn _ _
      omega
  | yearly =>
      have hle := (hyear ((k + 1 : Nat) : Int)).2
      have hpos := (hyear ((k + 1 + 1 : Nat) : Int)).1
      show yearLength _ ≤ 2 * yearLength _
      omega
  | daily =>
      show 1 ≤ 2 * 1
      decide
  | weekly =>
      show 7 ≤ 2 * 7
      decide

/-- Where a month starts: the months are numbered through from the first
one of the year 1, and the days before one are those of the years before
and of the months before it in its own year. -/
theorem start_monthly (k : Nat) :
    (start (NamedPeriod.monthly.len) k : Int)
      = daysBeforeYear ((k / 12 + 1 : Nat) : Int)
        + daysBeforeMonth ((k / 12 + 1 : Nat) : Int) (k % 12) := by
  induction k with
  | zero => rfl
  | succ k ih =>
      have hsucc : start NamedPeriod.monthly.len (k + 1)
          = start NamedPeriod.monthly.len k
            + daysIn ((k / 12 + 1 : Nat) : Int) (k % 12) := rfl
      rw [hsucc, Nat.cast_add, ih]
      have hmonth := daysBeforeMonth_succ ((k / 12 + 1 : Nat) : Int) (k % 12)
      by_cases hlast : k % 12 = 11
      · have hdiv : (k + 1) / 12 = k / 12 + 1 := by omega
        have hmod : (k + 1) % 12 = 0 := by omega
        rw [hlast] at hmonth ⊢
        rw [daysBeforeMonth_twelve] at hmonth
        rw [hdiv, hmod, daysBeforeYear_succ_nat (k / 12 + 1)]
        have hzero : daysBeforeMonth ((k / 12 + 1 + 1 : Nat) : Int) 0 = 0 :=
          rfl
        rw [hzero]
        omega
      · have hdiv : (k + 1) / 12 = k / 12 := by omega
        have hmod : (k + 1) % 12 = k % 12 + 1 := by omega
        rw [hdiv, hmod, hmonth]
        omega

/-- Where a year starts: the days before it are those of the years before
it, as the calendar counts them. -/
theorem start_yearly (k : Nat) :
    (start (NamedPeriod.yearly.len) k : Int)
      = daysBeforeYear ((k + 1 : Nat) : Int) := by
  induction k with
  | zero => rfl
  | succ k ih =>
      rw [daysBeforeYear_succ_nat, ← ih]
      rfl

/-- The days are numbered from 0 on, and `day_num` from 1: so the number
it gives a day is one more. -/
theorem calendar_number (n : Nat) : (calendar n).number = n + 1 :=
  Day.number_iterate n

/-- The days of a month have that month. -/
theorem calendar_monthly {k n : Nat}
    (h : Within NamedPeriod.monthly.len k n) :
    (calendar n).year = k / 12 + 1 ∧ (calendar n).month = k % 12 := by
  have hstart := start_monthly k
  have hlt : n < start NamedPeriod.monthly.len k
      + daysIn ((k / 12 + 1 : Nat) : Int) (k % 12) := h.2
  have hle := h.1
  let d : Day :=
    { year := k / 12 + 1, month := k % 12
      day := n - start NamedPeriod.monthly.len k + 1
      year_pos := Nat.succ_pos _
      month_lt := Nat.mod_lt _ (by decide)
      day_pos := Nat.succ_pos _
      day_le := by omega }
  have hd : calendar n = d := by
    apply Day.number_injective
    rw [calendar_number]
    show _ = daysBeforeYear ((k / 12 + 1 : Nat) : Int)
      + daysBeforeMonth ((k / 12 + 1 : Nat) : Int) (k % 12)
      + ((n - start NamedPeriod.monthly.len k + 1 : Nat) : Int)
    omega
  rw [hd]
  exact ⟨rfl, rfl⟩

/-- A day comes before a year if it does so by its number. -/
theorem year_lt_iff {d : Day} {y : Nat} :
    d.year < y ↔ d.number ≤ daysBeforeYear y := by
  have hyear := d.day_in_year
  have hpos := d.day_pos
  constructor
  · intro hlt
    have hmono :=
      daysBeforeYear_mono (show (d.year : Int) + 1 ≤ y by omega)
    rw [daysBeforeYear_succ] at hmono
    unfold Day.number
    omega
  · intro hle
    by_contra hge
    have hmono := daysBeforeYear_mono (show (y : Int) ≤ d.year by omega)
    unfold Day.number at hle
    omega

/-- The days of a year have that year. -/
theorem calendar_yearly {k n : Nat} (h : Within NamedPeriod.yearly.len k n) :
    (calendar n).year = k + 1 := by
  have hstart := start_yearly k
  have hend := start_yearly (k + 1)
  have hnumber := calendar_number n
  have hle := h.1
  have hlt := h.2
  have hnot : ¬ (calendar n).year < k + 1 := by
    rw [year_lt_iff]
    omega
  have hless : (calendar n).year < k + 1 + 1 := by
    rw [year_lt_iff]
    omega
  omega

/-- What `consider_job` takes the lengths of the periods for. -/
theorem NamedPeriod.days_eq (p : NamedPeriod) {t : Tm} {k n : Nat}
    (h : Within p.len (k + 1) n) (ht : InMonth t (calendar n)) :
    p.days t = ((p.len k : Int), (p.len (k + 1) : Int)) := by
  obtain ⟨hmon, hyear⟩ := ht
  cases p with
  | monthly =>
      obtain ⟨hy, hm⟩ := calendar_monthly h
      rw [hy] at hyear
      rw [hm] at hmon
      have hleap := @leap_eq (((k + 1) / 12 + 1 : Nat) : Int)
        (Int.natCast_nonneg _)
      have hlt := Nat.mod_lt (k + 1) (show 12 > 0 by decide)
      show (daysLastMonth t, daysThisMonth t)
        = ((daysIn ((k / 12 + 1 : Nat) : Int) (k % 12) : Int),
          (daysIn (((k + 1) / 12 + 1 : Nat) : Int) ((k + 1) % 12) : Int))
      have hthis : daysThisMonth t
          = daysIn (((k + 1) / 12 + 1 : Nat) : Int) ((k + 1) % 12) := by
        rw [monthDays_eq hlt, ← hleap, ← hyear]
        unfold daysThisMonth
        rw [hmon]
        split
        · next h1 =>
          rw [h1]
          simp
        · next h1 =>
          rw [if_neg fun h => h1 h.1]
          omega
      have hlast : daysLastMonth t
          = daysIn ((k / 12 + 1 : Nat) : Int) (k % 12) := by
        by_cases hzero : (k + 1) % 12 = 0
        · have hk : k % 12 = 11 := by omega
          unfold daysLastMonth
          rw [hmon, hzero, hk]
          rfl
        · have hdiv : (k + 1) / 12 = k / 12 := by omega
          have hmod : (k + 1) % 12 = k % 12 + 1 := by omega
          rw [hdiv] at hleap hyear
          rw [monthDays_eq (Nat.mod_lt k (by decide)), ← hleap, ← hyear]
          unfold daysLastMonth
          rw [hmon, hmod]
          by_cases hone : k % 12 = 1
          · rw [hone]
            simp
          · have hno : ¬ (k % 12 = 1 ∧ leap (t.year + 1900) = true) :=
              fun h => hone h.1
            rw [if_neg hno]
            have hsub : ((k % 12 + 1 : Nat) : Int) - 1 = (k % 12 : Nat) := by
              omega
            split
            · next h0 => omega
            · next h2 => omega
            · rw [hsub]
              omega
      rw [hthis, hlast]
  | yearly =>
      have hy := calendar_yearly h
      rw [hy] at hyear
      have hthis := @leap_eq ((k + 1 + 1 : Nat) : Int) (Int.natCast_nonneg _)
      have hlast := @leap_eq ((k + 1 : Nat) : Int) (Int.natCast_nonneg _)
      have hbefore : t.year - 1 + 1900 = ((k + 1 : Nat) : Int) := by omega
      show (daysLastYear t, daysThisYear t)
        = ((yearLength ((k + 1 : Nat) : Int) : Int),
          (yearLength ((k + 1 + 1 : Nat) : Int) : Int))
      unfold daysLastYear daysThisYear yearLength
      rw [hyear, hbefore, hthis, hlast]
      split
      · split
        · rfl
        · rfl
      · split
        · rfl
        · rfl
  | daily => rfl
  | weekly => rfl

-- ============================================================== the days

/-- The days are those of the calendar. -/
structure Daily.OnCalendar (m : Daily) : Prop where
  date : ∀ n, m.date n = dateOf (calendar n)
  clock : ∀ n, InMonth (m.clock n) (calendar n)

section

variable {m : Daily}

/-- The file has the date of the last run. -/
theorem Daily.fileOn_last {r n : Nat} (h : Last m.RunOn r n) :
    m.fileOn n = stamp (m.date r) := by
  induction n with
  | zero => exact absurd h.before (Nat.not_lt_zero r)
  | succ n ih =>
      have hstep : m.fileOn (n + 1)
          = if m.RunOn n then stamp (m.date n) else m.fileOn n := rfl
      rw [hstep]
      by_cases hrn : r = n
      · rw [← hrn, if_pos h.did]
      · have hlt : r < n :=
          Nat.lt_of_le_of_ne (Nat.le_of_lt_succ h.before) hrn
        rw [if_neg (h.none n hlt (Nat.lt_succ_self n))]
        exact ih ⟨h.did, hlt, fun k hk hkn =>
          h.none k hk (Nat.lt_succ_of_lt hkn)⟩

/-- The last day of the year 9999. -/
def lastDay : Nat := 3652058

/-- The days up to it have a year of four digits, so they fit a time
stamp. -/
theorem calendar_year_lt {n : Nat} (h : n ≤ lastDay) :
    (calendar n).year < 10000 := by
  rw [year_lt_iff, calendar_number,
    show daysBeforeYear ((10000 : Nat) : Int) = 3652059 by decide]
  unfold lastDay at h
  omega

theorem dateOf_fits {n : Nat} (h : n ≤ lastDay) :
    (dateOf (calendar n)).Fits := by
  have hmonth := (calendar n).month_lt
  have hday := (calendar n).day_le
  have hle := daysIn_le (calendar n).year (calendar n).month
  refine ⟨calendar_year_lt h, ?_, ?_⟩
  · show (calendar n).month + 1 < 100
    omega
  · show (calendar n).day < 100
    omega

/-- And have the number that they should have. -/
theorem dateOf_dayNum {n : Nat} (h : n ≤ lastDay) :
    (dateOf (calendar n)).dayNum = n + 1 := by
  have hyear := calendar_year_lt h
  have hmax : (10000 : Int) ≤ intMax.tdiv 366 := by decide
  rw [← calendar_number]
  refine dayNum_day ⟨rfl, ?_, rfl⟩ ?_
  · show (((calendar n).month + 1 : Nat) : Int) = _
    omega
  · show ((calendar n).year : Int) ≤ _
    omega

/-- The dates of the calendar are valid. -/
theorem Daily.OnCalendar.valid (hdays : m.OnCalendar) {n k : Nat}
    (hn : n ≤ lastDay + 1) (hk : k < n) : (m.date k).dayNum ≠ -1 := by
  rw [hdays.date, dateOf_dayNum (by omega)]
  omega

/-- The days have different dates. -/
theorem dateOf_injective {k l : Nat} (hk : k ≤ lastDay) (hl : l ≤ lastDay)
    (h : dateOf (calendar k) = dateOf (calendar l)) : k = l := by
  have hnum := dateOf_dayNum hk
  rw [h, dateOf_dayNum hl] at hnum
  omega

/-- Without `-f` it is not too early iff the period is over, if the date
of a day is in the file. -/
theorem Daily.early_stamp (hdays : m.OnCalendar) {r n : Nat}
    (hr : r ≤ lastDay) (hn : n ≤ lastDay)
    (hforce : (m.opts n).force = false) :
    m.early n (stamp (dateOf (calendar r))) = false
      ↔ PeriodOver m.job (m.clock n) ((n : Int) - r) := by
  obtain ⟨hday, hlength⟩ := stampDay_stamp (dateOf_fits hr)
  unfold Daily.early
  rw [hforce, tooEarly_eq_false_iff hlength, hday, hdays.date,
    dateOf_dayNum hn, dateOf_dayNum hr,
    show ((n : Int) + 1 - (r + 1)) = n - r by omega]
  exact Iff.rfl

/-- A job that is considered without `-f` is run by the rule, as long as
its years have four digits and it is not dropped. -/
theorem Daily.rule (hdays : m.OnCalendar) {p : NamedPeriod}
    (hforce : ∀ n, (m.opts n).force = false)
    (hkept : ∀ n, m.since ≤ n → m.dropped n = false)
    (hnamed : m.job.namedPeriod = some p) (hperiod : m.job.period = 0)
    {i : Nat} (hsince : m.since ≤ start p.len (i + 1))
    (hlast : start p.len (i + 2) ≤ lastDay + 1) :
    Rule p.len m.RunOn i := by
  intro n r hin hr
  have hend : n < start p.len (i + 2) := hin.2
  have hn : n ≤ lastDay := by omega
  have hrn := hr.before
  have hlen := hin.1
  have hdue : m.RunOn n ↔ PeriodOver m.job (m.clock n) ((n : Int) - r) := by
    unfold Daily.RunOn
    rw [hkept n (by omega), Daily.fileOn_last hr, hdays.date,
      Daily.early_stamp hdays (by omega) hn (hforce n)]
    exact ⟨fun h => h.2.1, fun h => ⟨by omega, h, rfl⟩⟩
  rw [hdue]
  unfold PeriodOver
  rw [hperiod, hnamed]
  have hlens := p.days_eq hin (hdays.clock n)
  constructor
  · rintro ⟨-, hp⟩
    have hp := hp p rfl
    rw [hlens] at hp
    have hp : (p.len i : Int) ≤ n - r ∨ (n : Int) - r = p.len (i + 1) := hp
    omega
  · intro h
    refine ⟨by omega, fun p' hp' => ?_⟩
    injection hp' with hp'
    rw [← hp', hlens]
    show (p.len i : Int) ≤ n - r ∨ (n : Int) - r = p.len (i + 1)
    omega

/-- The file stays as it is as long as the job is not run. -/
theorem Daily.fileOn_stays {n : Nat} (hno : ∀ k < n, ¬ m.RunOn k) :
    m.fileOn n = m.first := by
  induction n with
  | zero => rfl
  | succ n ih =>
      have hstep : m.fileOn (n + 1)
          = if m.RunOn n then stamp (m.date n) else m.fileOn n := rfl
      rw [hstep, if_neg (hno n (Nat.lt_succ_self n))]
      exact ih fun k hk => hno k (Nat.lt_succ_of_lt hk)

/-- The rule is followed in all periods from that of a run on. -/
theorem Daily.rules (hdays : m.OnCalendar) {p : NamedPeriod}
    (hforce : ∀ n, (m.opts n).force = false)
    (hkept : ∀ n, m.since ≤ n → m.dropped n = false)
    (hnamed : m.job.namedPeriod = some p) (hperiod : m.job.period = 0)
    {i a : Nat} (hin : Within p.len i a) (hrun : m.RunOn a) {j : Nat}
    (hlast : start p.len (j + 2) ≤ lastDay + 1) :
    ∀ k, i ≤ k → k < j + 1 → Rule p.len m.RunOn k := by
  have hmono := start_mono p.len
  intro k hik hkj
  refine Daily.rule hdays hforce hkept hnamed hperiod ?_ ?_
  · have hsince := hrun.1
    have hend := hin.2
    have hle := hmono (show i + 1 ≤ k + 1 by omega)
    omega
  · have hle := hmono (show k + 2 ≤ j + 2 by omega)
    omega

variable {tables : List JobRec → Prop} {g : Spool}

/-- An anacron of a day has launched the job if it is to be run on that
day. -/
theorem Daily.Days.launchedOn_iff (hdays : m.OnCalendar) {n k : Nat}
    (h : Daily.Days tables m n g) (hk : k < n) (hn : n ≤ lastDay + 1) :
    g.Launched m.job.ident (m.date k) ↔ m.RunOn k := by
  rw [h.launched_iff]
  constructor
  · rintro ⟨l, hl, hrun, hdate⟩
    rw [hdays.date, hdays.date] at hdate
    have hsame : l = k := dateOf_injective (by omega) (by omega) hdate
    rw [← hsame]
    exact hrun
  · intro hrun
    exact ⟨k, hk, hrun, rfl⟩

/-- **Every period sees a run.** Where every day an anacron goes through
its table, without `-f` and without dropping the job, a job with a named
period that was once run is run in every later day, week, month or year
to the end of the year 9999. Two runs in one are at least as many days
apart as the one before it has; and if a run has so many days of its
period behind it, it is not the last in it. -/
theorem run_in_each_period (hdays : m.OnCalendar)
    (hforce : ∀ n, (m.opts n).force = false)
    (hkept : ∀ n, m.since ≤ n → m.dropped n = false) {p : NamedPeriod}
    (hnamed : m.job.namedPeriod = some p) (hperiod : m.job.period = 0)
    {i j : Nat} (hij : i ≤ j) (hlast : start p.len (j + 2) ≤ lastDay + 1)
    (h : Daily.Days tables m (start p.len (j + 2)) g) {a : Nat}
    (hin : Within p.len i a) (hrun : g.Launched m.job.ident (m.date a)) :
    (∃ day, Within p.len (j + 1) day
        ∧ g.Launched m.job.ident (m.date day))
      ∧ (∀ b c, Within p.len (j + 1) b → Within p.len (j + 1) c →
        g.Launched m.job.ident (m.date b) →
        g.Launched m.job.ident (m.date c) → b < c → p.len j ≤ c - b)
      ∧ ∀ b, Within p.len (j + 1) b → g.Launched m.job.ident (m.date b) →
        b + p.len j < start p.len (j + 2) →
        g.Launched m.job.ident (m.date (b + p.len j)) := by
  have hiff : ∀ {k}, k < start p.len (j + 2) →
      (g.Launched m.job.ident (m.date k) ↔ m.RunOn k) := fun hk =>
    h.launchedOn_iff hdays hk hlast
  have hend : a < start p.len (j + 2) :=
    Nat.lt_of_lt_of_le hin.2 (start_mono p.len (by omega))
  have hrun := (hiff hend).mp hrun
  have hrules := Daily.rules hdays hforce hkept hnamed hperiod hin hrun hlast
  have hrule := hrules j hij (Nat.lt_succ_self j)
  refine ⟨?_, fun b c hb hc hrb hrc hlt => ?_, fun b hb hrb hmore => ?_⟩
  · obtain ⟨day, hday, hacts⟩ := in_each hrules p.len_le hin hrun (by omega)
    exact ⟨day, hday, (hiff hday.2).mpr hacts⟩
  · exact apart hrule hb hc ((hiff hb.2).mp hrb) ((hiff hc.2).mp hrc) hlt
  · exact (hiff hmore).mpr
      (again hrule hb ((hiff hb.2).mp hrb) (p.len_pos j) hmore)

end

/-- A monthly job, on a machine that is set up on the first of May 2024,
with the hours of the anacrontab that comes with anacron. -/
def tidy : Daily :=
  { job :=
      { period := 0, namedPeriod := some .monthly, delay := 0
        ident := { bytes := bytes "tidy", noNul := by decide }
        tabLine := 1, argNum := 0, dropJob := false }
    first := []
    since := 739006
    date := fun n => dateOf (calendar n)
    clock := fun n =>
      { sec := 0, min := 0, hour := 12, mday := (calendar n).day
        mon := (calendar n).month, year := (calendar n).year - 1900 }
    opts := fun _ => { plain with rangeStart := 3, rangeStop := 22 }
    hour := fun _ _ => 12
    delay := fun _ => 0 }

theorem tidy_onCalendar : tidy.OnCalendar :=
  ⟨fun _ => rfl, fun _ => ⟨rfl, Int.sub_add_cancel _ _⟩⟩

/-- The table of the job alone. -/
def tidyTable (tab : List JobRec) : Prop := tab = [tidy.job]

/-- Launched on the first of May, the job is launched in June: the table
is that of the job alone, and its anacrons are made by
`Daily.exists_days`. -/
theorem tidy_in_june :
    ∃ g, Daily.Days tidyTable tidy 739067 g ∧ ∃ day,
      (calendar day).year = 2024 ∧ (calendar day).month = 5
        ∧ g.Launched tidy.job.ident (tidy.date day) := by
  have hmay := start_monthly 24280
  have hjune := start_monthly 24281
  have hjuly := start_monthly 24282
  rw [show daysBeforeYear ((24280 / 12 + 1 : Nat) : Int)
      + daysBeforeMonth ((24280 / 12 + 1 : Nat) : Int) (24280 % 12)
    = 739006 by decide] at hmay
  rw [show daysBeforeYear ((24281 / 12 + 1 : Nat) : Int)
      + daysBeforeMonth ((24281 / 12 + 1 : Nat) : Int) (24281 % 12)
    = 739037 by decide] at hjune
  rw [show daysBeforeYear ((24282 / 12 + 1 : Nat) : Int)
      + daysBeforeMonth ((24282 / 12 + 1 : Nat) : Int) (24282 % 12)
    = 739067 by decide] at hjuly
  have hin : Within NamedPeriod.monthly.len 24280 739006 := by
    constructor
    · omega
    · show 739006 < start NamedPeriod.monthly.len 24281
      omega
  have hend : start NamedPeriod.monthly.len 24282 = 739067 := by omega
  have hyears : 739067 ≤ lastDay + 1 := by
    unfold lastDay
    decide
  obtain ⟨g, hdays⟩ := @Daily.exists_days tidy 739067 tidyTable
    (fun _ => rfl) (by decide)
    fun k hk _ => tidy_onCalendar.valid hyears hk
  have hfirst : tidy.RunOn 739006 := by
    refine ⟨Nat.le_refl _, ?_, rfl⟩
    unfold Daily.early
    rw [@Daily.fileOn_stays tidy 739006 fun k hk hrun =>
      absurd hrun.1 (Nat.not_le.mpr hk)]
    rfl
  have hlaunched :=
    (hdays.launchedOn_iff tidy_onCalendar (k := 739006) (by decide)
      hyears).mpr hfirst
  have hlast : start NamedPeriod.monthly.len 24282 ≤ lastDay + 1 := by
    omega
  obtain ⟨⟨day, hday, hacts⟩, -⟩ := run_in_each_period tidy_onCalendar
    (fun _ => rfl) (fun _ _ => rfl) rfl rfl (Nat.le_refl 24280) hlast
    (by rw [hend]; exact hdays) hin hlaunched
  obtain ⟨hyear, hmonth⟩ := calendar_monthly hday
  exact ⟨g, hdays, day, hyear, hmonth, hacts⟩

end Tinjac.Anacron
