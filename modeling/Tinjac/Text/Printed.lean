/-
What is to be seen of a call of `printTime`.

The source does not print `tm_then` itself but what `ptime_from_tm` makes
of it: the day that year, month and day name, with hour, minute and
second added to it as a duration. So 24:00 of one day is 00:00 of the
next, and two results of the search can look the same (`ptime_eq_iff`).
On a day that the calendar does not have, `ptime_from_tm` throws
(`Tm.OnCalendar`), and then nothing is to be seen of the result at all.
-/
import Tinjac.Lib.Days
import Tinjac.Text.Due

namespace Tinjac

open Gregorian

-- ================================================ the point in time

namespace Tm

/-- Year, month and day name a day of the calendar. -/
structure OnCalendar (t : Tm) : Prop where
  mon : t.mon ≤ 11
  mday_pos : 1 ≤ t.mday
  mday_le : t.mday ≤ t.monthLength

instance (t : Tm) : Decidable t.OnCalendar :=
  decidable_of_iff (t.mon ≤ 11 ∧ 1 ≤ t.mday ∧ t.mday ≤ t.monthLength)
    ⟨fun h => ⟨h.1, h.2.1, h.2.2⟩, fun h => ⟨h.mon, h.mday_pos, h.mday_le⟩⟩

/-- An exception for every day that the calendar does not have. -/
def offCalendar (t : Tm) : Bool := !decide t.OnCalendar

theorem onCalendar_of_offCalendar (t : Tm) (h : t.offCalendar = false) :
    t.OnCalendar := by
  unfold offCalendar at h
  rw [Bool.not_eq_false'] at h
  exact of_decide_eq_true h

/-- The number of that day. -/
def day (t : Tm) : Int := dayNumber t.calendarYear t.mon t.mday

/-- The point in time that `ptime_from_tm` makes of it, in seconds. -/
def ptime (t : Tm) : Int :=
  86400 * t.day + (3600 * t.hour + 60 * t.min + t.sec : Nat)

variable {t t' : Tm}

/-- A day has one number. -/
theorem OnCalendar.day_injective (h : t.OnCalendar) (h' : t'.OnCalendar)
    (hday : t.day = t'.day) :
    t.year = t'.year ∧ t.mon = t'.mon ∧ t.mday = t'.mday := by
  obtain ⟨hyear, hmon, hmday⟩ :=
    dayNumber_injective (Nat.lt_succ_of_le h.mon) h.mday_pos h.mday_le
      (Nat.lt_succ_of_le h'.mon) h'.mday_pos h'.mday_le hday
  unfold calendarYear at hyear
  exact ⟨by omega, hmon, hmday⟩

/-- The day before one that is not the first of its month is in the same
month. -/
theorem OnCalendar.day_before (h : t.OnCalendar) (h' : t'.OnCalendar)
    (hlater : 2 ≤ t'.mday) (hday : t.day + 1 = t'.day) :
    t.year = t'.year ∧ t.mon = t'.mon ∧ t.mday + 1 = t'.mday := by
  have hbefore : dayNumber t.calendarYear t.mon t.mday
      = dayNumber t'.calendarYear t'.mon (t'.mday - 1) := by
    unfold day dayNumber at hday
    unfold dayNumber
    omega
  have hle : t'.mday - 1 ≤ daysIn t'.calendarYear t'.mon :=
    Nat.le_trans (Nat.sub_le _ _) h'.mday_le
  obtain ⟨hyear, hmon, hmday⟩ :=
    dayNumber_injective (Nat.lt_succ_of_le h.mon) h.mday_pos h.mday_le
      (Nat.lt_succ_of_le h'.mon) (by omega) hle hbefore
  unfold calendarYear at hyear
  exact ⟨by omega, hmon, by omega⟩

/-- **Two times that look the same** are the same, or one of them is
24:00 and the other is on the day after. -/
theorem ptime_eq_iff (h : t.OnCalendar) (h' : t'.OnCalendar)
    (hmin : t.min ≤ 59) (hmin' : t'.min ≤ 59) (hhour : t.hour ≤ 24)
    (hhour' : t'.hour ≤ 23) (hsec : t.sec = t'.sec) :
    t.ptime = t'.ptime
      ↔ t = t' ∨ t.hour = 24 ∧ t'.hour = 0 ∧ t.min = t'.min
        ∧ t.day + 1 = t'.day := by
  constructor
  · intro hsame
    unfold ptime at hsame
    by_cases hday : t.day = t'.day
    · obtain ⟨hyear, hmon, hmday⟩ := h.day_injective h' hday
      have hhours : t.hour = t'.hour := by omega
      have hmins : t.min = t'.min := by omega
      refine Or.inl ?_
      obtain ⟨sec, min, hour, mday, mon, year⟩ := t
      obtain ⟨sec', min', hour', mday', mon', year'⟩ := t'
      dsimp only at hyear hmon hmday hhours hmins hsec
      rw [hyear, hmon, hmday, hhours, hmins, hsec]
    · exact Or.inr (by omega)
  · intro hgiven
    rcases hgiven with rfl | ⟨hmidnight, hzero, hmins, hday⟩
    · rfl
    · unfold ptime
      omega

end Tm

-- ========================================================= the output

/-- What a line looks like: of a time, the point in time. -/
def Line.shown : Line → Line ⊕ Int
  | .time tm => .inr tm.ptime
  | l => .inl l

/-- What is to be seen of the lines printed so far, and of the end. -/
def shown (r : List Line × Ending) : List (Line ⊕ Int) × Ending :=
  (r.1.map Line.shown, r.2)

/-- What `printTime` prints and how it ends, if it ends. -/
def Prints (ptimeThrows : Tm → Bool) (now : Tm) (e : Entry)
    (r : List Line × Ending) : Prop :=
  ∃ fuel, printTime fuel ptimeThrows now e = r ∧ r.2 ≠ .running

/-- Nothing that is to be seen of `printTime` tells the entries apart,
where `ptime_from_tm` throws on these times. -/
def PrintAlike (ptimeThrows : Tm → Bool) (now : Tm) (e e' : Entry) :
    Prop :=
  ∀ out, (∃ r, Prints ptimeThrows now e r ∧ shown r = out)
    ↔ ∃ r, Prints ptimeThrows now e' r ∧ shown r = out

end Tinjac
