/-
The days of the calendar, one after the other.

A `Day` is a date that there is. `next` is the day after it, and
`number` counts the days from the first of January of the year 1, which
is day 1. So the `n`th day after that one has the number `n + 1`
(`number_iterate`), and it is the only one (`number_injective`).
-/
import Tinjac.Lib.Gregorian
import Mathlib.Algebra.BigOperators.Group.List.Basic
import Mathlib.Logic.Function.Iterate

namespace Gregorian

/-- A date of the calendar, from the year 1 on. -/
@[ext] structure Day where
  year : Nat
  month : Nat
  day : Nat
  year_pos : 0 < year
  month_lt : month < 12
  day_pos : 0 < day
  day_le : day ≤ daysIn year month

/-- Every month has 28 days at least. -/
theorem daysIn_pos (year : Int) (month : Nat) : 28 ≤ daysIn year month := by
  unfold daysIn
  split
  · split
    · decide
    · decide
  all_goals decide

namespace Day

/-- The first of January of the year 1. -/
def first : Day :=
  { year := 1, month := 0, day := 1
    year_pos := by decide, month_lt := by decide, day_pos := by decide
    day_le := by decide }

/-- The next day. -/
def next (d : Day) : Day :=
  if h : d.day < daysIn d.year d.month then
    { d with
      day := d.day + 1
      day_pos := Nat.succ_pos _
      day_le := h }
  else if hm : d.month < 11 then
    { d with
      month := d.month + 1
      day := 1
      month_lt := Nat.succ_lt_succ hm
      day_pos := Nat.one_pos
      day_le := Nat.le_trans (by decide) (daysIn_pos _ _) }
  else
    { year := d.year + 1, month := 0, day := 1
      year_pos := Nat.succ_pos _
      month_lt := by decide
      day_pos := Nat.one_pos
      day_le := Nat.le_trans (by decide) (daysIn_pos _ _) }

/-- The number of the day. -/
def number (d : Day) : Int :=
  daysBeforeYear d.year + daysBeforeMonth d.year d.month + d.day

end Day

-- ============================================================== sums

/-- A month starts as many days later as the one before it has. -/
theorem daysBeforeMonth_succ (year : Int) (month : Nat) :
    daysBeforeMonth year (month + 1)
      = daysBeforeMonth year month + daysIn year month := by
  unfold daysBeforeMonth
  rw [List.range_succ, List.map_append, List.sum_append]
  simp

/-- The length of a year. -/
def yearLength (year : Int) : Nat := if isLeap year then 366 else 365

/-- The twelve months are the year. -/
theorem daysBeforeMonth_twelve (year : Int) :
    daysBeforeMonth year 12 = yearLength year := by
  unfold daysBeforeMonth yearLength
  rw [show List.range 12 = [0, 1, 2, 3, 4, 5, 6, 7, 8, 9, 10, 11] from rfl]
  simp only [List.map_cons, List.map_nil, daysIn]
  cases isLeap year with
  | true => rfl
  | false => rfl

/-- A year starts as many days later as the one before it has. -/
theorem daysBeforeYear_succ (year : Int) :
    daysBeforeYear (year + 1) = daysBeforeYear year + yearLength year := by
  have hleap : isLeap year = true
      ↔ year % 4 = 0 ∧ (year % 100 ≠ 0 ∨ year % 400 = 0) := by
    unfold isLeap
    simp
  unfold daysBeforeYear yearLength
  by_cases h : isLeap year = true
  · rw [if_pos h]
    have h := hleap.mp h
    omega
  · rw [if_neg h]
    rw [hleap] at h
    omega

/-- This is so of natural numbers. -/
theorem daysBeforeYear_succ_nat (year : Nat) :
    daysBeforeYear ((year + 1 : Nat) : Int)
      = daysBeforeYear year + yearLength year :=
  daysBeforeYear_succ year

namespace Day

/-- The next day has the next number. -/
theorem number_next (d : Day) : d.next.number = d.number + 1 := by
  have hle := d.day_le
  have hlt := d.month_lt
  unfold next
  split
  · show daysBeforeYear d.year + daysBeforeMonth d.year d.month
      + ((d.day + 1 : Nat) : Int) = d.number + 1
    unfold number
    omega
  · split
    · show daysBeforeYear d.year
        + ((daysBeforeMonth d.year (d.month + 1) : Nat) : Int)
        + ((1 : Nat) : Int) = d.number + 1
      rw [daysBeforeMonth_succ]
      unfold number
      omega
    · have hmonth : d.month + 1 = 12 := by omega
      have hyear := daysBeforeMonth_succ d.year d.month
      rw [hmonth, daysBeforeMonth_twelve] at hyear
      show daysBeforeYear ((d.year + 1 : Nat) : Int)
        + ((daysBeforeMonth ((d.year + 1 : Nat) : Int) 0 : Nat) : Int)
        + ((1 : Nat) : Int) = d.number + 1
      have hzero : daysBeforeMonth ((d.year + 1 : Nat) : Int) 0 = 0 := rfl
      rw [hzero, daysBeforeYear_succ_nat]
      unfold number
      omega

/-- So the numbers count the days from the first one on. -/
theorem number_iterate (n : Nat) : (next^[n] first).number = n + 1 := by
  induction n with
  | zero => rfl
  | succ n ih =>
      rw [Function.iterate_succ_apply', number_next, ih]
      rfl

end Day

/-- Later months start later. -/
theorem daysBeforeMonth_mono {year : Int} {m m' : Nat} (h : m ≤ m') :
    daysBeforeMonth year m ≤ daysBeforeMonth year m' := by
  induction h with
  | refl => exact Nat.le_refl _
  | step _ ih =>
      rw [daysBeforeMonth_succ]
      exact Nat.le_add_right_of_le ih

/-- Later years start later. -/
theorem daysBeforeYear_mono {y y' : Int} (h : y ≤ y') :
    daysBeforeYear y ≤ daysBeforeYear y' := by
  obtain ⟨n, rfl⟩ := Int.le.dest h
  induction n with
  | zero => exact Int.le_of_eq (by rw [Int.ofNat_zero, Int.add_zero])
  | succ n ih =>
      have hstep := daysBeforeYear_succ (y + n)
      have hsucc : y + ((n + 1 : Nat) : Int) = y + n + 1 := by omega
      rw [hsucc, hstep]
      have ih := ih (by omega)
      omega

/-- The days before a date, in its year. -/
theorem daysBeforeMonth_add_le {year : Int} {month day : Nat} (hmonth : month < 12)
    (hday : day ≤ daysIn year month) :
    daysBeforeMonth year month + day ≤ yearLength year := by
  have hmono := @daysBeforeMonth_mono year (month + 1) 12 hmonth
  rw [daysBeforeMonth_succ, daysBeforeMonth_twelve] at hmono
  omega

/-- A date of an earlier year has a lower number. -/
theorem dayNumber_lt_of_year {y y' : Int} {m m' d d' : Nat} (h : y < y')
    (hmonth : m < 12) (hday : d ≤ daysIn y m) (hpos : 0 < d') :
    dayNumber y m d < dayNumber y' m' d' := by
  have hyear := daysBeforeMonth_add_le hmonth hday
  have hmono := daysBeforeYear_mono (show y + 1 ≤ y' from h)
  rw [daysBeforeYear_succ] at hmono
  unfold dayNumber
  omega

/-- And so has one of an earlier month. -/
theorem dayNumber_lt_of_month {y : Int} {m m' d d' : Nat} (h : m < m')
    (hday : d ≤ daysIn y m) (hpos : 0 < d') :
    dayNumber y m d < dayNumber y m' d' := by
  have hmono := @daysBeforeMonth_mono y (m + 1) m' h
  rw [daysBeforeMonth_succ] at hmono
  unfold dayNumber
  omega

/-- A date has one number. -/
theorem dayNumber_injective {y y' : Int} {m m' d d' : Nat}
    (hm : m < 12) (hpos : 0 < d) (hd : d ≤ daysIn y m)
    (hm' : m' < 12) (hpos' : 0 < d') (hd' : d' ≤ daysIn y' m')
    (h : dayNumber y m d = dayNumber y' m' d') :
    y = y' ∧ m = m' ∧ d = d' := by
  obtain rfl : y = y' := by
    rcases Int.lt_trichotomy y y' with hlt | heq | hgt
    · have hless := @dayNumber_lt_of_year _ _ _ m' _ _ hlt hm hd hpos'
      omega
    · exact heq
    · have hless := @dayNumber_lt_of_year _ _ _ m _ _ hgt hm' hd' hpos
      omega
  obtain rfl : m = m' := by
    rcases Nat.lt_trichotomy m m' with hlt | heq | hgt
    · have hless := dayNumber_lt_of_month hlt hd hpos'
      omega
    · exact heq
    · have hless := dayNumber_lt_of_month hgt hd' hpos
      omega
  unfold dayNumber at h
  exact ⟨rfl, rfl, by omega⟩

namespace Day

/-- A day of a year is not behind its end. -/
theorem day_in_year (d : Day) :
    daysBeforeMonth d.year d.month + d.day ≤ yearLength d.year :=
  daysBeforeMonth_add_le d.month_lt d.day_le

/-- A day has one number. -/
theorem number_injective : Function.Injective number := by
  intro d e h
  obtain ⟨hyear, hmonth, hday⟩ :=
    dayNumber_injective d.month_lt d.day_pos d.day_le e.month_lt e.day_pos
      e.day_le h
  exact Day.ext (by omega) hmonth hday

/-- No day has a number below 1. -/
theorem number_pos (d : Day) : 0 < d.number := by
  have hone : daysBeforeYear 1 = 0 := rfl
  have hpos := d.day_pos
  have hyear := d.year_pos
  have hmono := daysBeforeYear_mono (show (1 : Int) ≤ d.year by omega)
  rw [hone] at hmono
  unfold number
  omega

/-- Every day comes. -/
theorem exists_iterate (d : Day) : ∃ n : Nat, d = next^[n] first := by
  refine ⟨(d.number - 1).toNat, number_injective ?_⟩
  have hpos := d.number_pos
  rw [number_iterate]
  omega

end Day

end Gregorian
