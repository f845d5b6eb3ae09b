/-
The clock is set back.

Then the date in a job's file may be one that is still to come.
`consider_job` means to run such a job at once, and does so if its
period is a number: on the first day on which it is not dropped. But the
number of days since the date, which is negative, is less than the
length of any named period, so without `-f` a job with a named period is
not run at all until the date has come again.
-/
import Tinjac.Anacron.Proofs.Named

namespace Tinjac.Anacron

open Gregorian Periods

/-- Every month has days in the table of days in a month. -/
theorem monthDays_pos {m : Nat} (h : m < 12) : 0 < monthDays m := by
  interval_cases m <;> decide

/-- Periods have days, the last as well as this one, whatever the time is,
so a negative number of days reaches neither. -/
theorem NamedPeriod.days_pos (p : NamedPeriod) {t : Tm} (h : t.mon < 12) :
    0 < (p.days t).1 ∧ 0 < (p.days t).2 := by
  have hfeb : ∀ b : Bool, 0 < monthDays 1 + if b = true then 1 else 0 := by
    decide
  cases p with
  | monthly =>
      constructor
      · show 0 < daysLastMonth t
        unfold daysLastMonth
        split
        · decide
        · exact hfeb _
        · next hzero _ =>
          have hne : t.mon ≠ 0 := hzero
          have hpos := @monthDays_pos (t.mon - 1) (by omega)
          have hsub : ((t.mon - 1 : Nat) : Int) = t.mon - 1 := by omega
          rw [← hsub]
          exact hpos
      · show 0 < daysThisMonth t
        unfold daysThisMonth
        split
        · exact hfeb _
        · exact monthDays_pos h
  | yearly =>
      constructor
      · show 0 < daysLastYear t
        unfold daysLastYear
        split
        · decide
        · decide
      · show 0 < daysThisYear t
        unfold daysThisYear
        split
        · decide
        · decide
  | daily => exact ⟨Int.one_pos, Int.one_pos⟩
  | weekly =>
      constructor
      · show (0 : Int) < 7
        decide
      · show (0 : Int) < 7
        decide

variable {m : Daily}

/-- With a number for a period it is not too early, with `-f` or without,
as long as the date to come is in the file. -/
theorem Daily.due_ahead (hdays : m.OnCalendar) {r n : Nat}
    (hr : r ≤ lastDay) (hn : n < r) (hnone : m.job.namedPeriod = none) :
    m.early n (stamp (dateOf (calendar r))) = false := by
  cases hforce : (m.opts n).force with
  | false =>
      refine (Daily.early_stamp hdays hr (by omega) hforce).mpr
        ⟨by omega, ?_⟩
      intro p hp
      rw [hnone] at hp
      cases hp
  | true =>
      unfold Daily.early tooEarly
      rw [hforce]
      rfl

/-- With a name it is, without `-f`. -/
theorem Daily.early_named (hdays : m.OnCalendar) {r n : Nat}
    (hr : r ≤ lastDay) (hn : n < r) (hforce : (m.opts n).force = false)
    (hnamed : m.job.namedPeriod ≠ none) :
    m.early n (stamp (dateOf (calendar r))) ≠ false := by
  obtain ⟨p, hp⟩ := Option.ne_none_iff_exists'.mp hnamed
  intro hearly
  have hover := (Daily.early_stamp hdays hr (by omega) hforce).mp hearly
  have hmon : (m.clock n).mon < 12 := by
    rw [(hdays.clock n).mon]
    exact (calendar n).month_lt
  obtain ⟨hperiod, hbypass⟩ := p.days_pos hmon
  rcases hover.2 p hp with hle | heq
  · omega
  · omega

/-- Without `-f` a job with a named period is run on no day before that
date. -/
theorem Daily.not_run_ahead (hdays : m.OnCalendar) {r : Nat}
    (hfirst : m.first = stamp (dateOf (calendar r))) (hr : r ≤ lastDay)
    (hforce : ∀ n, (m.opts n).force = false)
    (hnamed : m.job.namedPeriod ≠ none) {n : Nat} (hn : n < r) :
    ¬ m.RunOn n := by
  induction n using Nat.strong_induction_on with
  | _ n ih =>
      intro hrun
      have hearly := hrun.2.1
      rw [Daily.fileOn_stays fun k hk => ih k hk (Nat.lt_trans hk hn),
        hfirst] at hearly
      exact Daily.early_named hdays hr hn (hforce n) hnamed hearly

/-- **Where the clock was set back.** A job whose file has a date that is
still to come is launched on the first day on which it is not dropped if
its period is a number; and if it is a named one, and without `-f`, on
no day before that date. -/
theorem set_back_named (hdays : m.OnCalendar) {r : Nat}
    (hfirst : m.first = stamp (dateOf (calendar r))) (hr : r ≤ lastDay)
    {tables : List JobRec → Prop} {n : Nat} {g : Spool}
    (h : Daily.Days tables m n g) (hn : n ≤ r) :
    (m.job.namedPeriod = none → ∀ k < n, m.since ≤ k →
        m.dropped k = false → (∀ l < k, m.since ≤ l → m.dropped l = true) →
        g.Launched m.job.ident (m.date k))
      ∧ (m.job.namedPeriod ≠ none → (∀ k, (m.opts k).force = false) →
        ∀ d, ¬ g.Launched m.job.ident d) := by
  constructor
  · intro hnone k hk hsince hkept hdropped
    have hno : ∀ l < k, ¬ m.RunOn l := by
      intro l hl hrun
      have hnot := hrun.2.2
      rw [hdropped l hl hrun.1] at hnot
      cases hnot
    refine h.launched_iff.mpr ⟨k, hk, ⟨hsince, ?_, hkept⟩, rfl⟩
    rw [Daily.fileOn_stays hno, hfirst]
    exact Daily.due_ahead hdays hr (by omega) hnone
  · intro hnamed hforce d hlaunched
    obtain ⟨k, hk, hrun, -⟩ := h.launched_iff.mp hlaunched
    exact Daily.not_run_ahead hdays hfirst hr hforce hnamed (by omega) hrun

/-- `tidy`, with a file of a year later. -/
def tidyAhead : Daily :=
  { tidy with first := stamp (dateOf (calendar 739371)) }

/-- With a date in its file that is a year away, the job is launched on no
day of that year. -/
theorem tidyAhead_waits :
    tidyAhead.since = 739006 ∧ ∃ g, Daily.Days tidyTable tidyAhead 739371 g
      ∧ ∀ d, ¬ g.Launched tidyAhead.job.ident d := by
  have hdays : tidyAhead.OnCalendar :=
    ⟨fun _ => rfl, fun _ => ⟨rfl, Int.sub_add_cancel _ _⟩⟩
  have hfirst : tidyAhead.first = stamp (dateOf (calendar 739371)) := by
    simp only [tidyAhead]
  have hr : 739371 ≤ lastDay := by
    unfold lastDay
    decide
  obtain ⟨g, h⟩ := @Daily.exists_days tidyAhead 739371 tidyTable
    (fun _ => rfl) (by decide)
    fun k hk _ => hdays.valid (Nat.le_succ_of_le hr) hk
  exact ⟨rfl, g, h, (set_back_named hdays hfirst hr h (Nat.le_refl _)).2
    (Option.some_ne_none _) fun _ => rfl⟩

end Tinjac.Anacron
