/-
What the search of `printTime` passes over.

An answer is the first due time if nothing due lies between now and it.
A scan finds the least value from its start on, so what can be passed is
what no scan looks at (`Entry.PassesNothing`). The day scan starts
behind the day it stands on, which is today and then each day the
carries lead to; the year starts over in February; and the weekday is
never asked for. On the day of the answer it is the hours and minutes
below those the scans started from: only a carry resets the smaller
units, and a scan that moves on without failing does not.
-/
import Tinjac.Proofs.Stops

namespace Tinjac

open BlockHeap CHeap

-- ====================================================== days and times

namespace Tm

/-- An earlier day of the calendar, by year, month and day. -/
def DayBefore (s t : Tm) : Prop :=
  s.year < t.year ∨ s.year = t.year
    ∧ (s.mon < t.mon ∨ s.mon = t.mon ∧ s.mday < t.mday)

/-- The same day of the calendar, at any time. -/
def SameDay (s t : Tm) : Prop :=
  s.year = t.year ∧ s.mon = t.mon ∧ s.mday = t.mday

/-- A time on this day. -/
def atTime (t : Tm) (hour min : Nat) : Tm :=
  { t with sec := 0, hour := hour, min := min }

variable {s t : Tm}

theorem notBefore_iff : s.NotBefore t
    ↔ s.DayBefore t ∨ s.SameDay t
      ∧ (s.hour < t.hour ∨ s.hour = t.hour ∧ s.min ≤ t.min) := by
  unfold NotBefore DayBefore SameDay
  omega

theorem dayBefore_trichotomy (s t : Tm) :
    s.DayBefore t ∨ s.SameDay t ∨ t.DayBefore s := by
  unfold DayBefore SameDay
  omega

theorem DayBefore.asymm (h : s.DayBefore t) : ¬ t.DayBefore s := by
  unfold DayBefore at *
  omega

theorem DayBefore.ne (h : s.DayBefore t) : ¬ t.SameDay s := by
  unfold DayBefore SameDay at *
  omega

theorem DayBefore.notBefore (h : s.DayBefore t) : s.NotBefore t :=
  notBefore_iff.mpr (Or.inl h)

theorem DayBefore.not_notBefore (h : s.DayBefore t) : ¬ t.NotBefore s := by
  rw [notBefore_iff]
  intro hnot
  rcases hnot with hbefore | ⟨hday, -⟩
  · exact h.asymm hbefore
  · exact h.ne hday

theorem SameDay.symm (h : s.SameDay t) : t.SameDay s :=
  ⟨h.1.symm, h.2.1.symm, h.2.2.symm⟩

theorem SameDay.trans {u : Tm} (h : s.SameDay t) (hu : t.SameDay u) :
    s.SameDay u :=
  ⟨h.1.trans hu.1, h.2.1.trans hu.2.1, h.2.2.trans hu.2.2⟩

theorem DayBefore.sameDay {u : Tm} (h : s.DayBefore t)
    (hu : t.SameDay u) : s.DayBefore u := by
  unfold DayBefore SameDay at *
  omega

theorem SameDay.dayBefore {u : Tm} (h : s.SameDay t)
    (hu : t.DayBefore u) : s.DayBefore u := by
  unfold DayBefore SameDay at *
  omega

theorem NotBefore.time_le (h : s.NotBefore t) (hday : s.SameDay t) :
    s.hour < t.hour ∨ s.hour = t.hour ∧ s.min ≤ t.min := by
  rcases notBefore_iff.mp h with hbefore | ⟨-, htime⟩
  · exact absurd hday.symm hbefore.ne
  · exact htime

end Tm

namespace Entry

variable {e : Entry} {now t p : Tm}

/-- A day of the calendar that month, day and weekday match. -/
structure DayDue (e : Entry) (t : Tm) : Prop where
  mon : t.mon ≤ 11
  mday_pos : 1 ≤ t.mday
  mday_le : t.mday ≤ t.monthLength
  month : bitTest e.bits monthField.name t.mon = true
  day : e.DayMatches t

/-- A minute of the day that the sets of minutes and hours match. -/
structure TimeDue (e : Entry) (hour min : Nat) : Prop where
  hour_le : hour ≤ 23
  min_le : min ≤ 59
  hour : bitTest e.bits hourField.name hour = true
  minute : bitTest e.bits minuteField.name min = true

theorem DayDue.of_sameDay {s : Tm} (h : e.DayDue s) (hst : s.SameDay t) :
    e.DayDue t := by
  obtain ⟨sec, min, hour, mday, mon, year⟩ := s
  obtain ⟨sec', min', hour', mday', mon', year'⟩ := t
  obtain ⟨rfl, rfl, rfl⟩ := hst
  exact ⟨h.mon, h.mday_pos, h.mday_le, h.month, h.day⟩

theorem due_atTime {hour min : Nat} (hday : e.DayDue t)
    (htime : e.TimeDue hour min)
    (hnow : now.NotBefore (t.atTime hour min)) :
    Due e now (t.atTime hour min) where
  valid := ⟨Nat.zero_le _, htime.min_le, htime.hour_le, hday.mon,
    hday.mday_pos, hday.mday_le⟩
  notBefore := hnow
  minute := htime.minute
  hour := htime.hour
  month := hday.month
  day := hday.day

theorem dayDue_of_due (h : Due e now t) : e.DayDue t :=
  ⟨h.valid.mon, h.valid.mday_pos, h.valid.mday_le, h.month, h.day⟩

theorem timeDue_of_due (h : Due e now t) : e.TimeDue t.hour t.min :=
  ⟨h.valid.hour, h.valid.min, h.hour, h.minute⟩

-- ================================================ the least from there

theorem scan_least {bits : Bitmaps} {f : Field} {first last i : Nat}
    (h : scan bits f first last = some i) {j : Nat} (hfirst : first ≤ j)
    (hlt : j < i) : bitTest bits f.name j = false := by
  unfold scan at h
  have hnone := (List.find?_range'_eq_some.mp h).2.2 j hfirst hlt
  simpa using hnone

/-- No hour of the set is passed over from where the scan starts. -/
theorem hourAt_least {hour h j : Nat} (hat : e.hourAt hour = some h)
    (hle : hour ≤ j) (hlt : j < h) :
    bitTest e.bits hourField.name j = false := by
  unfold hourAt at hat
  split at hat
  · injection hat with hat
    omega
  · exact scan_least hat hle hlt

theorem minuteAt_least {min m j : Nat} (hat : e.minuteAt min = some m)
    (hle : min ≤ j) (hlt : j < m) :
    bitTest e.bits minuteField.name j = false := by
  unfold minuteAt at hat
  split at hat
  · injection hat with hat
    omega
  · exact scan_least hat hle hlt

/-- The day scan passes over no day of the set but the one it stands
on. -/
theorem domAt_least {mday mday' j : Nat} (hat : e.domAt mday = some mday')
    (hle : mday < j) (hlt : j < mday') :
    bitTest e.bits domField.name (j - 1) = false := by
  unfold domAt at hat
  split at hat
  · injection hat with hat
    omega
  · obtain ⟨i, hi, rfl⟩ := Option.map_eq_some_iff.mp hat
    exact scan_least hi (by omega) (by omega)

theorem domAt_none {mday j : Nat} (hat : e.domAt mday = none)
    (hle : mday < j) (hlast : j ≤ 32) :
    bitTest e.bits domField.name (j - 1) = false := by
  unfold domAt at hat
  split at hat
  · cases hat
  · exact scan_eq_none.mp (Option.map_eq_none_iff.mp hat) _ (by omega)
      (by omega)

theorem domStar_of_none {mday : Nat} (hat : e.domAt mday = none) :
    hasFlag e.flags domStar = false := by
  unfold domAt at hat
  split at hat
  · cases hat
  · next hstar => exact Bool.eq_false_iff.mpr hstar

theorem domAt_of_star {mday mday' : Nat}
    (hstar : hasFlag e.flags domStar = true)
    (hat : e.domAt mday = some mday') : mday' = mday := by
  unfold domAt at hat
  rw [if_pos hstar] at hat
  injection hat with hat
  exact hat.symm

/-- A due hour is not below the one the scan takes. -/
theorem TimeDue.le_hour {hour min start i : Nat}
    (htime : e.TimeDue hour min) (hat : e.hourAt start = some i)
    (hle : start ≤ hour) : i ≤ hour := by
  by_contra hlt
  have hno := hourAt_least hat hle (by omega)
  rw [htime.hour] at hno
  cases hno

theorem TimeDue.le_min {hour min start i : Nat}
    (htime : e.TimeDue hour min) (hat : e.minuteAt start = some i)
    (hle : start ≤ min) : i ≤ min := by
  by_contra hlt
  have hno := minuteAt_least hat hle (by omega)
  rw [htime.minute] at hno
  cases hno

/-- The hour taken is in the set, if a starred one is. -/
def HourHolds (e : Entry) (hour : Nat) : Prop :=
  hasFlag e.flags hrStar = true →
    hour ≤ 23 ∧ bitTest e.bits hourField.name hour = true

theorem hourAt_set {hour h : Nat} (hat : e.hourAt hour = some h) :
    e.HourHolds hour
      ↔ h ≤ 23 ∧ bitTest e.bits hourField.name h = true := by
  unfold hourAt at hat
  unfold HourHolds
  split at hat
  · next hstar =>
    injection hat with hat
    rw [← hat]
    exact ⟨fun h => h hstar, fun h _ => h⟩
  · next hstar =>
    exact iff_of_true (fun h => absurd h hstar) (scan_some hat).2

-- ====================================================== what is passed

/-- Nothing due is passed on the way from `now` to the place the carries
lead to, and from there to what the scans find on day `mday`: what the
scans do not look at is not due. -/
structure PassesNothing (e : Entry) (now : Tm) (mday : Nat) : Prop where
  today : now.DayBefore { e.arrival now with mday := mday } →
    e.DayDue now → ∀ hour min, e.TimeDue hour min →
      hour < now.hour ∨ hour = now.hour ∧ min < now.min
  carried : hasFlag e.flags domStar = false →
    ∀ q, q = e.carryDay now ∨ q = e.arrival now →
      now.DayBefore q → ¬ e.DayDue q
  january : now.year < (e.arrival now).year →
    ∀ t, t.year = (e.arrival now).year → t.mon = 0 → ¬ e.DayDue t
  weekday : hasFlag e.flags domStar = false →
    hasFlag e.flags dowStar = false → ∀ t, now.DayBefore t →
      t.DayBefore { e.arrival now with mday := mday } → e.DayDue t →
        bitTest e.bits dowField.name t.wday = false
  hour : now.DayBefore { e.arrival now with mday := mday } →
    e.DayDue { e.arrival now with mday := mday } →
      ∀ hour < (e.arrival now).hour,
        bitTest e.bits hourField.name hour = false
  minute : now.DayBefore { e.arrival now with mday := mday } →
    e.DayDue { e.arrival now with mday := mday } →
      e.HourHolds (e.arrival now).hour → ∀ min < (e.arrival now).min,
        bitTest e.bits minuteField.name min = false
  thisHour : e.arrival now = now → hasFlag e.flags domStar = true →
    e.DayDue now → hasFlag e.flags hrStar = false →
      bitTest e.bits hourField.name now.hour = false →
        ∀ min < now.min, bitTest e.bits minuteField.name min = false

/-- The day the scans choose. -/
theorem Shows.sameDay (h : e.Shows p t) :
    t.SameDay { p with mday := t.mday } := by
  obtain ⟨hyear, hmon, -⟩ := h.le
  exact ⟨hyear, hmon, rfl⟩

/-- An answer for today is one of a starred day, and only the hour can
have been carried. -/
theorem Shows.today (h : e.Shows (e.arrival now) t)
    (hday : now.SameDay t) :
    hasFlag e.flags domStar = true
      ∧ (e.arrival now = now
        ∨ e.minuteAt now.min = none ∧ e.arrival now = now.nextHour) := by
  obtain ⟨hyear, hmon, -, hmday, -⟩ := h.le
  obtain ⟨hyear', hmon', hmday'⟩ := hday
  obtain ⟨mday, hour, min, hdom, -, -, ht⟩ := h
  have hchosen : t.mday = mday := by
    rw [ht]
  have hplace : e.arrival now = now
      ∨ e.minuteAt now.min = none ∧ e.arrival now = now.nextHour := by
    have hfound : e.arrival now = e.carryMonth now := by
      unfold arrival at hyear ⊢
      split
      · next hmonth =>
        rw [if_pos hmonth] at hyear
        have hnext : now.newYear.year = now.year + 1 := rfl
        omega
      · rfl
    rw [hfound] at hmon hmday ⊢
    unfold carryMonth at hmon hmday ⊢
    split
    · next hnone =>
      rw [if_pos hnone] at hmon
      have hnext : now.nextMonth.mon = now.mon + 1 := rfl
      omega
    · next hsome =>
      rw [if_neg hsome] at hmday
      unfold carryDay at hmday ⊢
      split
      · next hnone =>
        rw [if_pos hnone] at hmday
        have hnext : now.nextDay.mday = now.mday + 1 := rfl
        omega
      · unfold carryHour
        split
        · next hnone => exact Or.inr ⟨hnone, rfl⟩
        · exact Or.inl rfl
  refine ⟨?_, hplace⟩
  by_contra hstar
  have hlater := lt_of_domAt (Bool.eq_false_iff.mpr hstar) hdom
  rcases hplace with hplace | ⟨-, hplace⟩
  · rw [hplace] at hlater
    omega
  · have hsame : now.nextHour.mday = now.mday := rfl
    rw [hplace, hsame] at hlater
    omega

/-- A day that is due, and not by its weekday, is in the day set. -/
theorem DayDue.dom (h : e.DayDue t)
    (hdow : hasFlag e.flags dowStar = true
      ∨ bitTest e.bits dowField.name t.wday = false) :
    bitTest e.bits domField.name (t.mday - 1) = true := by
  have hday := h.day
  unfold DayMatches at hday
  dsimp only at hday
  split at hday
  · exact hday.1
  · next hstars =>
    rcases hdow with hdow | hdow
    · exact absurd (Or.inr hdow) hstars
    · rw [hdow] at hday
      exact hday.resolve_right (by decide)

theorem carryDay_mday_le : (e.carryDay now).mday ≤ now.mday + 1 := by
  unfold carryDay
  split
  · exact Nat.le_refl _
  · rw [carryHour_mday]
    exact Nat.le_succ _

/-- Only a new year carries the year. -/
theorem arrival_of_later_year (h : now.year < (e.arrival now).year) :
    e.arrival now = now.newYear := by
  by_cases hfails : e.MonthFails (decide (e.carryMonth now = now))
      (e.carryMonth now).mon
  · exact arrival_of_fails hfails
  · rw [arrival_of_found hfails, carryMonth_year] at h
    exact absurd h (Int.lt_irrefl _)

/-- If no day is left in this month, no day is passed in it. -/
theorem PassesNothing.thisMonth {mday : Nat} (h : e.PassesNothing now mday)
    (hstar : hasFlag e.flags domStar = false)
    (hnone : e.domAt (e.carryDay now).mday = none)
    (hyear : t.year = now.year) (hmon : t.mon = now.mon)
    (hlater : now.mday < t.mday) (hdue : e.DayDue t)
    (hdom : bitTest e.bits domField.name (t.mday - 1) = true) : False := by
  have hcyear := @carryDay_year e now
  have hcmon := @carryDay_mon e now
  have hcle := @carryDay_mday e now
  have hcmday := @carryDay_mday_le e now
  by_cases hbehind : (e.carryDay now).mday < t.mday
  · have hlen := Nat.le_trans hdue.mday_le (Gregorian.daysIn_le _ _)
    have hno := domAt_none hnone hbehind (by omega)
    rw [hdom] at hno
    cases hno
  · have hsame : t.SameDay (e.carryDay now) :=
      ⟨hyear.trans hcyear.symm, hmon.trans hcmon.symm, by omega⟩
    refine h.carried hstar _ (Or.inl rfl) ?_ (hdue.of_sameDay hsame)
    unfold Tm.DayBefore
    omega

/-- In the month the carries lead to, no day is passed. -/
theorem PassesNothing.thatMonth {mday : Nat} (h : e.PassesNothing now mday)
    (hstar : hasFlag e.flags domStar = false)
    (hat : e.domAt (e.arrival now).mday = some mday)
    (hyear : t.year = (e.arrival now).year)
    (hmon : t.mon = (e.arrival now).mon) (hlater : now.DayBefore t)
    (hfirst : (e.arrival now).mday ≤ t.mday) (hlt : t.mday < mday)
    (hdue : e.DayDue t)
    (hdom : bitTest e.bits domField.name (t.mday - 1) = true) : False := by
  by_cases hbehind : (e.arrival now).mday < t.mday
  · have hno := domAt_least hat hbehind hlt
    rw [hdom] at hno
    cases hno
  · have hsame : t.SameDay (e.arrival now) := ⟨hyear, hmon, by omega⟩
    exact h.carried hstar _ (Or.inr rfl) (hlater.sameDay hsame)
      (hdue.of_sameDay hsame)

/-- A due day that is passed is one of the day set, since no weekday is. -/
theorem PassesNothing.dom {mday : Nat} (h : e.PassesNothing now mday)
    (hstar : hasFlag e.flags domStar = false) (hafter : now.DayBefore t)
    (hbefore : t.DayBefore { e.arrival now with mday := mday })
    (hdue : e.DayDue t) :
    bitTest e.bits domField.name (t.mday - 1) = true := by
  refine hdue.dom ?_
  cases hdow : hasFlag e.flags dowStar with
  | true => exact Or.inl rfl
  | false => exact Or.inr (h.weekday hstar hdow t hafter hbefore hdue)

/-- No day is passed if the year is carried. -/
theorem PassesNothing.nextYear {mday : Nat} (h : e.PassesNothing now mday)
    (hat : e.domAt (e.arrival now).mday = some mday)
    (hfails : e.MonthFails (decide (e.carryMonth now = now))
      (e.carryMonth now).mon)
    (hafter : now.DayBefore t)
    (hbefore : t.DayBefore { e.arrival now with mday := mday }) :
    ¬ e.DayDue t := by
  intro hdue
  have hpos := hdue.mday_pos
  obtain ⟨hyear, hmon, hmday⟩ : (e.arrival now).year = now.year + 1
      ∧ (e.arrival now).mon = 1 ∧ (e.arrival now).mday = 1 := by
    rw [arrival_of_fails hfails]
    exact ⟨rfl, rfl, rfl⟩
  have hbetween := And.intro hafter hbefore
  unfold Tm.DayBefore at hbetween
  dsimp only at hbetween
  rw [hyear, hmon] at hbetween
  by_cases hthis : t.year = now.year
  · by_cases hset : (e.carryMonth now).mon ≤ t.mon
    · have hmon12 := hdue.mon
      have hno := scan_eq_none.mp hfails.2 t.mon hset (by omega)
      rw [hdue.month] at hno
      cases hno
    · -- the month before the one that failed: it was carried
      have hcmon := @carryDay_mon e now
      have hnone : e.domAt (e.carryDay now).mday = none := by
        by_contra hsome
        rw [carryMonth_of_some hsome, hcmon] at hset
        omega
      have hnext : now.nextMonth.mon = now.mon + 1 := rfl
      have hstar := domStar_of_none hnone
      rw [carryMonth_of_none hnone, hnext] at hset
      exact h.thisMonth hstar hnone hthis (by omega) (by omega) hdue
        (h.dom hstar hafter hbefore hdue)
  · by_cases hjanuary : t.mon = 0
    · exact h.january (by omega) t (by omega) hjanuary hdue
    · by_cases hstar : hasFlag e.flags domStar = true
      · have hmday' := domAt_of_star hstar hat
        omega
      · have hstar := Bool.eq_false_iff.mpr hstar
        exact h.thatMonth hstar hat (by omega) (by omega) hafter
          (by omega) (by omega) hdue (h.dom hstar hafter hbefore hdue)

/-- Nor if it is not. -/
theorem PassesNothing.thisYear {mday : Nat} (h : e.PassesNothing now mday)
    (hat : e.domAt (e.arrival now).mday = some mday)
    (hplace : e.arrival now = e.carryMonth now)
    (hafter : now.DayBefore t)
    (hbefore : t.DayBefore { e.arrival now with mday := mday }) :
    ¬ e.DayDue t := by
  intro hdue
  have hpos := hdue.mday_pos
  have hbetween := And.intro hafter hbefore
  unfold Tm.DayBefore at hbetween
  dsimp only at hbetween
  by_cases hnone : e.domAt (e.carryDay now).mday = none
  · have hstar := domStar_of_none hnone
    obtain ⟨hyear, hmon, hmday⟩ : (e.arrival now).year = now.year
        ∧ (e.arrival now).mon = now.mon + 1
        ∧ (e.arrival now).mday = 1 := by
      rw [hplace, carryMonth_of_none hnone]
      exact ⟨rfl, rfl, rfl⟩
    have hdom := h.dom hstar hafter hbefore hdue
    by_cases hthis : t.mon = now.mon
    · exact h.thisMonth hstar hnone (by omega) hthis (by omega) hdue hdom
    · exact h.thatMonth hstar hat (by omega) (by omega) hafter (by omega)
        (by omega) hdue hdom
  · have hcarry : e.arrival now = e.carryDay now :=
      hplace.trans (carryMonth_of_some hnone)
    have hyear : (e.arrival now).year = now.year := by
      rw [hcarry]
      exact carryDay_year
    have hmon : (e.arrival now).mon = now.mon := by
      rw [hcarry]
      exact carryDay_mon
    have hmday : (e.arrival now).mday ≤ now.mday + 1 := by
      rw [hcarry]
      exact carryDay_mday_le
    by_cases hstar : hasFlag e.flags domStar = true
    · have hmday' := domAt_of_star hstar hat
      omega
    · have hstar := Bool.eq_false_iff.mpr hstar
      exact h.thatMonth hstar hat (by omega) (by omega) hafter (by omega)
        (by omega) hdue (h.dom hstar hafter hbefore hdue)

/-- No due day lies between: what a scan does not look at is not due, and
what it looks at it finds. -/
theorem PassesNothing.between {mday : Nat} (h : e.PassesNothing now mday)
    (hat : e.domAt (e.arrival now).mday = some mday)
    (hafter : now.DayBefore t)
    (hbefore : t.DayBefore { e.arrival now with mday := mday }) :
    ¬ e.DayDue t := by
  by_cases hfails : e.MonthFails (decide (e.carryMonth now = now))
      (e.carryMonth now).mon
  · exact h.nextYear hat hfails hafter hbefore
  · exact h.thisYear hat (arrival_of_found hfails) hafter hbefore

/-- On a later day no due time is passed. -/
theorem PassesNothing.time_le {mday hour min hour' min' : Nat}
    (h : e.PassesNothing now mday)
    (hD : now.DayBefore { e.arrival now with mday := mday })
    (hday : e.DayDue { e.arrival now with mday := mday })
    (hhour : e.hourAt (e.arrival now).hour = some hour)
    (hmin : e.minuteAt (e.arrival now).min = some min)
    (htime : e.TimeDue hour' min') :
    hour < hour' ∨ hour = hour' ∧ min ≤ min' := by
  have hstart : (e.arrival now).hour ≤ hour' := by
    by_contra hlt
    have hno := h.hour hD hday hour' (by omega)
    rw [htime.hour] at hno
    cases hno
  have hle := htime.le_hour hhour hstart
  rcases Nat.lt_or_eq_of_le hle with hlt | heq
  · exact Or.inl hlt
  · refine Or.inr ⟨heq, htime.le_min hmin ?_⟩
    by_contra hlt
    have hholds : e.HourHolds (e.arrival now).hour := by
      rw [hourAt_set hhour, heq]
      exact ⟨htime.hour_le, htime.hour⟩
    have hno := h.minute hD hday hholds min' (by omega)
    rw [htime.minute] at hno
    cases hno

/-- Nor is one that is left of today. -/
theorem PassesNothing.time_le_today {mday hour min hour' min' : Nat}
    (h : e.PassesNothing now mday)
    (hstar : hasFlag e.flags domStar = true)
    (hplace : e.arrival now = now
      ∨ e.minuteAt now.min = none ∧ e.arrival now = now.nextHour)
    (hday : e.DayDue now)
    (hhour : e.hourAt (e.arrival now).hour = some hour)
    (hmin : e.minuteAt (e.arrival now).min = some min)
    (htime : e.TimeDue hour' min')
    (hleft : now.hour < hour' ∨ now.hour = hour' ∧ now.min ≤ min') :
    hour < hour' ∨ hour = hour' ∧ min ≤ min' := by
  rcases hplace with hplace | ⟨hnone, hplace⟩
  · rw [hplace] at hhour hmin
    have hle := htime.le_hour hhour (by omega)
    rcases Nat.lt_or_eq_of_le hle with hlt | heq
    · exact Or.inl hlt
    · refine Or.inr ⟨heq, ?_⟩
      by_cases hstart : now.min ≤ min'
      · exact htime.le_min hmin hstart
      · -- a later hour than the one that was searched from
        have hrstar : hasFlag e.flags hrStar = false := by
          rw [← Bool.not_eq_true]
          intro hstar
          unfold hourAt at hhour
          rw [if_pos hstar] at hhour
          injection hhour with hhour
          omega
        have hthis := hourAt_least hhour (Nat.le_refl _) (by omega)
        have hno := h.thisHour hplace hstar hday hrstar hthis min'
          (by omega)
        rw [htime.minute] at hno
        cases hno
  · have hnext : now.nextHour.hour = now.hour + 1 := rfl
    have hfirst : now.nextHour.min = 0 := rfl
    rw [hplace] at hhour hmin
    have hcarried : now.hour ≠ hour' := by
      intro heq
      unfold minuteAt at hnone
      split at hnone
      · cases hnone
      · have hno := scan_eq_none.mp hnone min' (by omega) htime.min_le
        rw [htime.minute] at hno
        cases hno
    have hle := htime.le_hour hhour (by omega)
    rcases Nat.lt_or_eq_of_le hle with hlt | heq
    · exact Or.inl hlt
    · exact Or.inr ⟨heq, htime.le_min hmin (by omega)⟩

/-- If nothing is passed, nothing due lies before the answer. -/
theorem PassesNothing.notBefore {T : Tm} (h : e.PassesNothing now T.mday)
    (hshows : e.Shows (e.arrival now) T) (hdue : Due e now t) :
    T.NotBefore t := by
  have hsame := hshows.sameDay
  have htime := timeDue_of_due hdue
  have hpast := Tm.notBefore_iff.mp hdue.notBefore
  have hans := Tm.notBefore_iff.mp hshows.notBefore
  obtain ⟨mday, hour, min, hdom, hhour, hmin, hT⟩ := id hshows
  have hat : e.domAt (e.arrival now).mday = some T.mday := by
    rw [hdom, hT]
  have hThour : T.hour = hour := by
    rw [hT]
  have hTmin : T.min = min := by
    rw [hT]
  rw [Tm.notBefore_iff, hThour, hTmin]
  rcases Tm.dayBefore_trichotomy T t with hlater | hday | hearlier
  · exact Or.inl hlater
  · -- on the day of the answer
    refine Or.inr ⟨hday, ?_⟩
    rcases hans with hbefore | ⟨htoday, -⟩
    · have hdayDue := (dayDue_of_due hdue).of_sameDay hday.symm
      exact h.time_le (hbefore.sameDay hsame) (hdayDue.of_sameDay hsame)
        hhour hmin htime
    · -- the answer is for today
      obtain ⟨hstar, hplace⟩ := hshows.today htoday
      have hthisDay := htoday.trans hday
      have hdayDue := (dayDue_of_due hdue).of_sameDay hthisDay.symm
      exact h.time_le_today hstar hplace hdayDue hhour hmin htime
        (hdue.notBefore.time_le hthisDay)
  · -- on an earlier day
    have hearlier := hearlier.sameDay hsame
    rcases hpast with hbefore | ⟨htoday, hthere⟩
    · exact absurd (dayDue_of_due hdue) (h.between hat hbefore hearlier)
    · have hdayDue := (dayDue_of_due hdue).of_sameDay htoday.symm
      have hno := h.today (htoday.dayBefore hearlier) hdayDue _ _ htime
      omega

/-- The carry of the day leads no further than the carries after it. -/
theorem carryDay_before {mday : Nat} (hlater : (e.arrival now).mday < mday) :
    (e.carryDay now).DayBefore { e.arrival now with mday := mday } := by
  have hcyear := @carryDay_year e now
  have hcmon := @carryDay_mon e now
  unfold Tm.DayBefore
  dsimp only
  by_cases hfails : e.MonthFails (decide (e.carryMonth now = now))
      (e.carryMonth now).mon
  · have hyear : (e.arrival now).year = now.year + 1 := by
      rw [arrival_of_fails hfails]
      rfl
    omega
  · have hplace := arrival_of_found hfails
    by_cases hnone : e.domAt (e.carryDay now).mday = none
    · have hnext : now.nextMonth.mon = now.mon + 1 := rfl
      have hyear : now.nextMonth.year = now.year := rfl
      rw [carryMonth_of_none hnone] at hplace
      rw [hplace]
      omega
    · rw [carryMonth_of_some hnone] at hplace
      rw [hplace] at hlater ⊢
      omega

section

variable {T : Tm} {hour0 min0 : Nat}

/-- If the answer is the first due time, no due day lies before it. -/
theorem no_day_between (hshows : e.Shows (e.arrival now) T)
    (hall : ∀ t, Due e now t → T.NotBefore t)
    (htime0 : e.TimeDue hour0 min0) (hafter : now.DayBefore t)
    (hbefore : t.DayBefore { e.arrival now with mday := T.mday }) :
    ¬ e.DayDue t := by
  intro hday
  have hlater : now.DayBefore (t.atTime hour0 min0) := hafter
  have hearlier : (t.atTime hour0 min0).DayBefore T :=
    hbefore.sameDay hshows.sameDay.symm
  exact hearlier.not_notBefore
    (hall _ (due_atTime hday htime0 hlater.notBefore))

/-- Nor is a time left today, if it is for a later day. -/
theorem no_time_left (hshows : e.Shows (e.arrival now) T)
    (hall : ∀ t, Due e now t → T.NotBefore t)
    (hlater : now.DayBefore { e.arrival now with mday := T.mday })
    (hday : e.DayDue now) {hour min : Nat} (htime : e.TimeDue hour min) :
    hour < now.hour ∨ hour = now.hour ∧ min < now.min := by
  by_contra hleft
  have hdue : Due e now (now.atTime hour min) := by
    refine due_atTime hday htime (Tm.notBefore_iff.mpr ?_)
    refine Or.inr ⟨⟨rfl, rfl, rfl⟩, ?_⟩
    show now.hour < hour ∨ now.hour = hour ∧ now.min ≤ min
    omega
  have hearlier : (now.atTime hour min).DayBefore T :=
    hlater.sameDay hshows.sameDay.symm
  exact hearlier.not_notBefore (hall _ hdue)

/-- On a later day, no due time of it is earlier. -/
theorem time_le_of_first (hshows : e.Shows (e.arrival now) T)
    (hall : ∀ t, Due e now t → T.NotBefore t)
    (hlater : now.DayBefore { e.arrival now with mday := T.mday })
    (hday : e.DayDue { e.arrival now with mday := T.mday })
    {hour min : Nat} (htime : e.TimeDue hour min) :
    T.hour < hour ∨ T.hour = hour ∧ T.min ≤ min := by
  have hafter : now.DayBefore
      (Tm.atTime { e.arrival now with mday := T.mday } hour min) := hlater
  exact (hall _ (due_atTime hday htime hafter.notBefore)).time_le
    hshows.sameDay

/-- Today, no due time of a later hour is. -/
theorem time_le_of_first_today (hshows : e.Shows (e.arrival now) T)
    (hall : ∀ t, Due e now t → T.NotBefore t)
    (hplace : e.arrival now = now)
    (hstar : hasFlag e.flags domStar = true) (hday : e.DayDue now)
    {hour min : Nat} (htime : e.TimeDue hour min)
    (hlater : now.hour < hour) :
    T.hour < hour ∨ T.hour = hour ∧ T.min ≤ min := by
  obtain ⟨hyear, hmon, -⟩ := hshows.le
  obtain ⟨mday, h, m, hdom, -, -, hT⟩ := id hshows
  have hTmday : T.mday = mday := by
    rw [hT]
  rw [hplace] at hyear hmon hdom
  have hnowDay : now.SameDay T :=
    ⟨hyear.symm, hmon.symm,
      (domAt_of_star hstar hdom).symm.trans hTmday.symm⟩
  have hafter : now.NotBefore (now.atTime hour min) :=
    Tm.notBefore_iff.mpr (Or.inr ⟨⟨rfl, rfl, rfl⟩, Or.inl hlater⟩)
  exact (hall _ (due_atTime hday htime hafter)).time_le hnowDay.symm

/-- If something is passed, something due lies before the answer. -/
theorem passesNothing_of_notBefore
    (htimes : ∃ hour min, e.TimeDue hour min) (hnow : now.Valid)
    (hshows : e.Shows (e.arrival now) T)
    (hall : ∀ t, Due e now t → T.NotBefore t) :
    e.PassesNothing now T.mday := by
  obtain ⟨hour0, min0, htime0⟩ := htimes
  obtain ⟨-, -, -, -, hhourLe, hminLe⟩ := hshows.le
  obtain ⟨mday, hour, min, hdom, hhour, hmin, hT⟩ := id hshows
  have hTmday : T.mday = mday := by
    rw [hT]
  have hThour : T.hour = hour := by
    rw [hT]
  have hTmin : T.min = min := by
    rw [hT]
  refine ⟨?_, ?_, ?_, ?_, ?_, ?_, ?_⟩
  · intro hlater hday h m htime
    exact no_time_left hshows hall hlater hday htime
  · intro hstar q hq hafter
    have hlater := lt_of_domAt hstar hdom
    refine no_day_between hshows hall htime0 hafter ?_
    rw [hTmday]
    rcases hq with hq | hq
    · rw [hq]
      exact carryDay_before hlater
    · rw [hq]
      exact Or.inr ⟨rfl, Or.inr ⟨rfl, hlater⟩⟩
  · intro hyears t hyear hjanuary
    have hmon : (e.arrival now).mon = 1 := by
      rw [arrival_of_later_year hyears]
      rfl
    refine no_day_between hshows hall htime0 (Or.inl (by omega))
      (Or.inr ⟨hyear, Or.inl ?_⟩)
    show t.mon < (e.arrival now).mon
    omega
  · intro hstar hdow t hafter hbefore hday
    exact absurd hday
      (no_day_between hshows hall htime0 hafter hbefore)
  · intro hlater hday h hlt
    rw [← Bool.not_eq_true]
    intro hset
    have hplace : (e.arrival now).hour ≤ 24 := arrival_hour hnow.hour
    have htime : e.TimeDue h min0 :=
      ⟨by omega, htime0.min_le, hset, htime0.minute⟩
    have hle := time_le_of_first hshows hall hlater hday htime
    omega
  · intro hlater hday hholds m hlt
    rw [← Bool.not_eq_true]
    intro hset
    have hplace : (e.arrival now).min ≤ 59 := arrival_min hnow.min
    obtain ⟨hour_le, hour_set⟩ := (hourAt_set hhour).mp hholds
    have htime : e.TimeDue hour m := ⟨hour_le, by omega, hour_set, hset⟩
    have hle := time_le_of_first hshows hall hlater hday htime
    omega
  · intro hplace hstar hday hrstar hthis m hlt
    rw [← Bool.not_eq_true]
    intro hset
    obtain ⟨hour_le, hour_set⟩ := (hourAt_set hhour).mp fun h => by
      rw [hrstar] at h
      cases h
    have hnot : now.hour ≠ hour := by
      intro heq
      rw [heq, hour_set] at hthis
      cases hthis
    have htime : e.TimeDue hour m :=
      ⟨hour_le, Nat.le_trans (Nat.le_of_lt hlt) hnow.min, hour_set, hset⟩
    rw [hplace] at hhourLe hminLe
    have hle := time_le_of_first_today hshows hall hplace hstar hday htime
      (by omega)
    omega

end

/-- If minutes and hours are not empty, some time of a day is due. -/
theorem timeDue_of_startsOver
    (hs : ∀ e' : Entry, e'.bits = e.bits → e'.StartsOver) :
    ∃ hour min, e.TimeDue hour min := by
  have hs := hs { e with flags := 0 } rfl
  obtain ⟨hour, hhour⟩ := Option.ne_none_iff_exists'.mp hs.hour
  obtain ⟨min, hmin⟩ := Option.ne_none_iff_exists'.mp hs.minute
  have hhour : scan e.bits hourField 0 23 = some hour := by
    simpa [hourAt, hasFlag] using hhour
  have hmin : scan e.bits minuteField 0 59 = some min := by
    simpa [minuteAt, hasFlag] using hmin
  obtain ⟨-, hour_le, hour_set⟩ := scan_some hhour
  obtain ⟨-, min_le, min_set⟩ := scan_some hmin
  exact ⟨hour, min, hour_le, min_le, hour_set, min_set⟩

end Entry

-- ========================================================= the theorem

/-- No due time lies between now and what is printed. -/
def SkipsNothing (ptimeThrows : Tm → Bool) (e : Entry) (now : Tm) : Prop :=
  ∀ fuel T, Line.time T ∈ (printTime fuel ptimeThrows now e).1 →
    ∀ t, Due e now t → T.NotBefore t

/-- What is printed is an answer that `ptime_from_tm` takes. -/
theorem time_mem_printTime {fuel : Nat} {ptimeThrows : Tm → Bool}
    {now T : Tm} {e : Entry} :
    Line.time T ∈ (printTime fuel ptimeThrows now e).1
      ↔ nextTime fuel e now = some (.ok T) ∧ ptimeThrows T = false := by
  have hrows : Line.time T ∉ printRows e ++ [.now now] := by
    simp [printRows, printRow]
  unfold printTime
  dsimp only
  cases nextTime fuel e now with
  | none => simpa using hrows
  | some res =>
      cases res with
      | error msg => simpa using hrows
      | ok tmThen =>
          dsimp only
          cases hthrows : ptimeThrows tmThen with
          | true =>
              rw [if_pos rfl]
              refine iff_of_false hrows ?_
              intro hgiven
              obtain ⟨h, hno⟩ := hgiven
              injection h with h
              injection h with h
              rw [h, hno] at hthrows
              cases hthrows
          | false =>
              rw [if_neg (by decide), List.mem_append, List.mem_singleton]
              constructor
              · intro hmem
                injection hmem.resolve_left hrows with hT
                rw [hT]
                exact ⟨rfl, hthrows⟩
              · intro hgiven
                obtain ⟨h, -⟩ := hgiven
                injection h with h
                injection h with h
                rw [h]
                exact Or.inr rfl

/-- **What is skipped.** Nothing due lies between now and the time that is
printed if and only if, where one is printed, nothing is due at the places
that no scan has looked at. -/
theorem skipsNothing_iff {fuel : Nat}
    {getpwnam : CString → Option Passwd} {file : Stream}
    {errorFunc : Bool} {pw : Option Passwd} {h : CHeap} {envp : Nat}
    {fname : String} {r : LoadResult} {e : Entry}
    (hload : loadEntry fuel getpwnam file errorFunc pw h envp fname
      = some r) (he : r.entry = some e) {now : Tm} (hnow : now.Valid)
    (ptimeThrows : Tm → Bool) :
    SkipsNothing ptimeThrows e now
      ↔ (e.FindsDay ∧ e.FindsMonth now → ∀ T, e.Shows (e.arrival now) T →
          ptimeThrows T = false → e.PassesNothing now T.mday) := by
  unfold SkipsNothing
  simp only [time_mem_printTime]
  rcases loaded_startsOver_or_empty hload he with hs | ⟨hempty, hstars⟩
  · have htimes := Entry.timeDue_of_startsOver hs
    have hs := hs e rfl
    constructor
    · intro hall hfinds T hshows hthrows
      obtain ⟨fuel, hnext⟩ : Computes e now (.ok T) :=
        (prints_iff hs).mpr ⟨Entry.findsMonth_iff.mp hfinds.2, hshows⟩
      exact Entry.passesNothing_of_notBefore htimes hnow hshows
        (hall fuel T ⟨hnext, hthrows⟩)
    · intro hcond fuel T ⟨hnext, hthrows⟩ t hdue
      have hcomputes : Computes e now (.ok T) := ⟨fuel, hnext⟩
      have hfinds := Entry.finds_of_prints hs hnow.mday_pos hcomputes
      obtain ⟨-, hshows⟩ := (prints_iff hs).mp hcomputes
      exact (hcond hfinds T hshows hthrows).notBefore hshows hdue
  · obtain ⟨hday, hnever⟩ := @empty_runs_on e now hempty hstars
    refine iff_of_true ?_ (fun h => absurd h.1 hday)
    intro fuel T hgiven
    obtain ⟨hnext, -⟩ := hgiven
    exact absurd ⟨fuel, hnext⟩ (hnever (.ok T))

/-- On the way to this noon nothing is passed: the day is starred, and
the scans start from now. -/
theorem Noon.passesNothing {e : Entry} (h : Noon e) :
    e.PassesNothing januaryMorning 10 := by
  have hnot : ¬ januaryMorning.DayBefore
      { e.arrival januaryMorning with mday := 10 } := by
    rw [h.arrival]
    unfold Tm.DayBefore
    decide
  have hstar : ¬ hasFlag e.flags domStar = false := by
    rw [h.starredDay]
    exact Bool.noConfusion
  refine ⟨fun hlater => absurd hlater hnot,
    fun hno => absurd hno hstar, ?_, fun hno => absurd hno hstar,
    fun hlater => absurd hlater hnot, fun hlater => absurd hlater hnot, ?_⟩
  · intro hyear
    rw [h.arrival] at hyear
    exact absurd hyear (Int.lt_irrefl _)
  · intro _ _ _ _ _ min hmin
    exact absurd hmin (Nat.not_lt_zero min)

/-- Asked for in January, the job for every noon is announced for the
first time at which it is due. -/
theorem noon_skips :
    ∃ e, loadedFrom "0 12 * * * root true\n" = some e
      ∧ SkipsNothing Tm.offCalendar e januaryMorning := by
  obtain ⟨e, he, hnoon⟩ := noon_loaded
  obtain ⟨r, hr, hre⟩ := Option.bind_eq_some_iff.mp he
  refine ⟨e, he, (skipsNothing_iff hr hre januaryMorning_valid
    Tm.offCalendar).mpr fun _ T hshows _ => ?_⟩
  have hT : T = { januaryMorning with hour := 12 } := by
    rw [hnoon.arrival] at hshows
    exact hshows.unique hnoon.shows
  rw [hT]
  exact hnoon.passesNothing

/-- A job for the tenth at noon, asked for that morning, is announced for
February. -/
theorem tenth_skipped :
    ¬ (∀ e, loadedFrom "0 12 10 * * root true\n" = some e →
      SkipsNothing (fun _ => false) e januaryMorning) := by
  intro hall
  have hloaded : (loadedFrom "0 12 10 * * root true\n").map (fun e =>
      (nextTime 2 e januaryMorning,
        bitTest e.bits minuteField.name 0
          && bitTest e.bits hourField.name 12
          && bitTest e.bits monthField.name 0
          && bitTest e.bits domField.name 9
          && bitTest e.bits dowField.name 3))
      = some (some (.ok { januaryMorning with hour := 12, mon := 1 }),
          true) := by
    decide +kernel
  obtain ⟨e, he, hfacts⟩ := Option.map_eq_some_iff.mp hloaded
  injection hfacts with hnext hbits
  simp only [Bool.and_eq_true] at hbits
  obtain ⟨⟨⟨⟨hmin, hhour⟩, hmonth⟩, hdom⟩, hdow⟩ := hbits
  have hday : e.DayDue januaryMorning := by
    refine ⟨by decide, by decide, by decide, hmonth, ?_⟩
    unfold Entry.DayMatches
    dsimp only
    split
    · exact ⟨hdom, hdow⟩
    · exact Or.inl hdom
  have hnoon : januaryMorning.NotBefore (januaryMorning.atTime 12 0) := by
    unfold Tm.NotBefore
    decide
  have hdue : Due e januaryMorning (januaryMorning.atTime 12 0) :=
    Entry.due_atTime hday ⟨by decide, by decide, hhour, hmin⟩ hnoon
  have hnot := hall e he 2 _ (time_mem_printTime.mpr ⟨hnext, rfl⟩) _ hdue
  unfold Tm.NotBefore at hnot
  exact absurd hnot (by decide)

end Tinjac
