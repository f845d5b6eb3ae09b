/-
`day_num` counts days.

Up to the year 5867441, the last that it takes, the number of a date is
that of the day in the calendar, and what is no date has none.
-/
import Tinjac.Anacron.Model.Gregor
import Tinjac.Lib.Days
import Mathlib.Tactic.IntervalCases

namespace Tinjac.Anacron

open Gregorian

-- ============================================================= the pieces

theorem leap_eq {year : Int} (h : 0 ≤ year) : leap year = isLeap year := by
  unfold leap isLeap
  rw [Int.tmod_eq_emod_of_nonneg h, Int.tmod_eq_emod_of_nonneg h,
    Int.tmod_eq_emod_of_nonneg h]

/-- The table has the months of a year that is not leap. -/
theorem monthDays_eq {year : Int} {m : Nat} (h : m < 12) :
    (daysIn year m : Int)
      = monthDays m + if m = 1 ∧ isLeap year = true then 1 else 0 := by
  interval_cases m <;> unfold daysIn <;> cases isLeap year <;> rfl

/-- The loop over the months before, with the day of a leap year behind
it, adds the days before the month. -/
theorem addMonths_eq {year : Int} {m : Nat} (h : m < 12) (dn : Int) :
    addMonths m dn + (if 1 < m ∧ isLeap year = true then 1 else 0)
      = dn + daysBeforeMonth year m := by
  have hsum : ∀ m dn, addMonths m dn = dn + addMonths m 0 := by
    intro m
    induction m with
    | zero => exact fun dn => (Int.add_zero dn).symm
    | succ m ih =>
        intro dn
        unfold addMonths
        rw [ih, ih (0 + monthDays m)]
        omega
  rw [hsum]
  have hmonth : (daysBeforeMonth year m : Int)
      = addMonths m 0 + if 1 < m ∧ isLeap year = true then 1 else 0 := by
    induction m with
    | zero => rfl
    | succ m ih =>
        rw [daysBeforeMonth_succ, Nat.cast_add, ih (Nat.lt_of_succ_lt h),
          monthDays_eq (Nat.lt_of_succ_lt h)]
        show _ = addMonths m (0 + monthDays m) + _
        rw [hsum m (0 + monthDays m)]
        rcases Nat.lt_trichotomy m 1 with hlt | rfl | hgt
        · interval_cases m
          simp
          exact Int.add_comm _ _
        · simp
          omega
        · have hne : m ≠ 1 := Nat.ne_of_gt hgt
          simp [hgt, hne, Nat.lt_succ_of_lt hgt]
          omega
  rw [hmonth]
  omega

-- ============================================================== day_num

/-- The three `int`s are a date of the calendar, months counted from 1. -/
structure IsDate (d : Day) (year month day : Int) : Prop where
  year : year = d.year
  month : month = d.month + 1
  day : day = d.day

theorem dayNum_day {d : Day} {year month day : Int}
    (hd : IsDate d year month day) (hyear : year ≤ intMax.tdiv 366) :
    dayNum year month day = d.number := by
  obtain ⟨rfl, rfl, rfl⟩ := hd
  have hpos := d.year_pos
  have hmonth := d.month_lt
  have hday := d.day_pos
  have hle := d.day_le
  have hleap : leap (d.year : Int) = isLeap d.year :=
    leap_eq (Int.natCast_nonneg _)
  have hdays := @monthDays_eq d.year d.month hmonth
  have hbefore := @addMonths_eq d.year d.month hmonth
  have hsub : ((d.month : Int) + 1 - 1) = d.month := by omega
  unfold dayNum
  rw [if_neg (by omega), if_neg (by omega), if_neg (by omega),
    if_neg (by omega)]
  dsimp only
  rw [hleap, hsub, Int.toNat_natCast]
  rw [if_neg ?notLong, if_neg ?notFebruary]
  case notLong =>
    rintro ⟨hne, hgt⟩
    rw [if_neg (by omega)] at hdays
    omega
  case notFebruary =>
    rintro ⟨htwo, hgt⟩
    have hone : d.month = 1 := by omega
    rw [hone] at hdays
    have hfeb : monthDays ((1 : Nat) : Int) = 28 := rfl
    rw [hfeb] at hdays
    rcases hgt with ⟨hl, hgt⟩ | ⟨hl, hgt⟩
    · rw [if_pos ⟨rfl, hl⟩, ← hone] at hdays
      omega
    · rw [if_neg fun h => hl h.2, ← hone] at hdays
      omega
  have hyears : ((d.year : Int) - 1) * 365
      + (((d.year : Int) - 1).tdiv 4 - ((d.year : Int) - 1).tdiv 100
        + ((d.year : Int) - 1).tdiv 400) = daysBeforeYear d.year := by
    have hnonneg : 0 ≤ (d.year : Int) - 1 := by omega
    rw [Int.tdiv_eq_ediv_of_nonneg hnonneg,
      Int.tdiv_eq_ediv_of_nonneg hnonneg, Int.tdiv_eq_ediv_of_nonneg hnonneg]
    unfold daysBeforeYear
    omega
  rw [hyears]
  have hsum := hbefore (daysBeforeYear d.year)
  unfold Day.number
  by_cases hlate : 1 < d.month ∧ isLeap d.year = true
  · rw [if_pos hlate] at hsum
    rw [if_pos ⟨by omega, hlate.2⟩]
    omega
  · rw [if_neg hlate] at hsum
    rw [if_neg fun h => hlate ⟨by omega, h.2⟩]
    omega

/-- What has a number is a date. -/
theorem isDate_of_dayNum {year month day : Int}
    (h : dayNum year month day ≠ -1) :
    year ≤ intMax.tdiv 366 ∧ ∃ d, IsDate d year month day := by
  unfold dayNum at h
  by_cases hyear : year < 1
  · rw [if_pos hyear] at h
    exact absurd rfl h
  rw [if_neg hyear] at h
  by_cases hmax : year > intMax.tdiv 366
  · rw [if_pos hmax] at h
    exact absurd rfl h
  rw [if_neg hmax] at h
  by_cases hmonth : month > 12 ∨ month < 1
  · rw [if_pos hmonth] at h
    exact absurd rfl h
  rw [if_neg hmonth] at h
  by_cases hday : day < 1
  · rw [if_pos hday] at h
    exact absurd rfl h
  rw [if_neg hday] at h
  dsimp only at h
  by_cases hlong : month ≠ 2 ∧ day > monthDays (month - 1)
  · rw [if_pos hlong] at h
    exact absurd rfl h
  rw [if_neg hlong] at h
  by_cases hfebruary : month = 2 ∧ (leap year = true ∧ day > 29
      ∨ ¬ leap year = true ∧ day > 28)
  · rw [if_pos hfebruary] at h
    exact absurd rfl h
  refine ⟨by omega, ?_⟩
  obtain ⟨y, rfl⟩ := Int.eq_ofNat_of_zero_le (show 0 ≤ year by omega)
  obtain ⟨m, hm⟩ := Int.eq_ofNat_of_zero_le (show 0 ≤ month - 1 by omega)
  obtain ⟨d, rfl⟩ := Int.eq_ofNat_of_zero_le (show 0 ≤ day by omega)
  have hlt : m < 12 := by omega
  have hdays := @monthDays_eq y m hlt
  rw [leap_eq (Int.natCast_nonneg y)] at hfebruary
  refine ⟨{ year := y, month := m, day := d
            year_pos := by omega, month_lt := hlt, day_pos := by omega
            day_le := ?_ }, rfl, by show month = (m : Int) + 1; omega, rfl⟩
  rw [hm] at hlong
  by_cases hone : m = 1
  · have hfeb : monthDays (m : Int) = 28 := by
      rw [hone]
      rfl
    have htwo : month = 2 := by omega
    rw [hfeb] at hdays
    by_cases hl : isLeap y = true
    · rw [if_pos ⟨hone, hl⟩] at hdays
      have hle : ¬ (d : Int) > 29 := fun hgt =>
        hfebruary ⟨htwo, Or.inl ⟨hl, hgt⟩⟩
      omega
    · rw [if_neg fun h => hl h.2] at hdays
      have hle : ¬ (d : Int) > 28 := fun hgt =>
        hfebruary ⟨htwo, Or.inr ⟨hl, hgt⟩⟩
      omega
  · rw [if_neg fun h => hone h.1] at hdays
    have hle : ¬ (d : Int) > monthDays m := fun hgt =>
      hlong ⟨by omega, hgt⟩
    omega

/-- A day is one of so many years' days. -/
theorem number_le (d : Day) : d.number ≤ 366 * d.year := by
  have hyear := d.day_in_year
  have hlength : yearLength d.year ≤ 366 := by
    unfold yearLength
    split
    · exact Nat.le_refl _
    · decide
  have hpos := d.year_pos
  unfold Day.number daysBeforeYear
  omega

/-- **`day_num` counts days.** The number of a date is one more than the
number of days from the first of January of the year 1 to it, and an
`int`; and what is no date, or of a year that might overflow, has the
number -1. -/
theorem day_num_counts (year month day : Int) :
    (∃ n : Nat, IsDate (Day.next^[n] Day.first) year month day
        ∧ year ≤ intMax.tdiv 366 ∧ dayNum year month day = n + 1
        ∧ dayNum year month day ≤ intMax)
      ∨ (dayNum year month day = -1
        ∧ ∀ n : Nat, IsDate (Day.next^[n] Day.first) year month day →
          intMax.tdiv 366 < year) := by
  by_cases hnone : dayNum year month day = -1
  · refine Or.inr ⟨hnone, fun n hn => ?_⟩
    by_contra hle
    rw [dayNum_day hn (by omega), Day.number_iterate] at hnone
    omega
  · obtain ⟨hyear, d, hd⟩ := isDate_of_dayNum hnone
    obtain ⟨n, rfl⟩ := d.exists_iterate
    have hnumber := dayNum_day hd hyear
    have hle := number_le (Day.next^[n] Day.first)
    rw [← hd.year] at hle
    have hmax : 366 * intMax.tdiv 366 ≤ intMax := by decide
    refine Or.inl ⟨n, hd, hyear, ?_, by omega⟩
    rw [hnumber, Day.number_iterate]

end Tinjac.Anacron
