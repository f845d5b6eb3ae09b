/-
The star flags as a shortcut.

For a starred field the search takes the value it stands at and does not
look into the set. `Entry.unstarred` is the entry without these flags:
each of its scans fails wherever the starred one does, so it carries at
least as far (`unstarred_carryHour`, `unstarred_carryDay`). The two agree
where nothing is found at all (`computeAlike_of_not_finds`).

Where something is found they find the same iff the day is not starred,
since a scan for a day never stops where it starts, and the other starred
fields have in their sets what the shortcut takes (`Entry.StarsHold`): a
star with a step has the flag, but not every value.

# What is printed

Two different results can still be printed alike. `ptime_from_tm` adds
the hour to the date, and the one starred hour that is no hour of a day
is 24, so 24:00 of a day that is found with stars can be 00:00 of the day
that is found without (`Entry.MeetsAtMidnight`); and it may throw on both
(`Entry.BothThrow`). There is nothing else (`midnight_of_same_ptime`).
-/
import Tinjac.Proofs.Stops

namespace Tinjac

open BlockHeap CHeap

-- =========================================================== the flags

/-- The star flags that `printTime` looks at, in one mask. -/
def starMask : Nat := minStar ||| hrStar ||| domStar ||| monStar

/-- `e->flags & ~(MIN_STAR | HR_STAR | DOM_STAR | MON_STAR)`. -/
def clearStars (flags : Nat) : Nat := flags ^^^ (flags &&& starMask)

theorem hasFlag_clearStars (flags : Nat) :
    ∀ flag ∈ searchFlags, hasFlag (clearStars flags) flag = false := by
  have hmask : ∀ flag ∈ searchFlags, starMask &&& flag = flag := by decide
  intro flag hflag
  have hzero : clearStars flags &&& flag = 0 := by
    apply Nat.eq_of_testBit_eq
    intro i
    have hbit := congrArg (fun n => Nat.testBit n i) (hmask flag hflag)
    simp only [Nat.testBit_and] at hbit
    unfold clearStars
    rw [Nat.testBit_and, Nat.testBit_xor, Nat.testBit_and, ← hbit,
      Nat.zero_testBit]
    cases flags.testBit i with
    | true => cases starMask.testBit i <;> simp
    | false => simp
  unfold hasFlag
  rw [hzero]
  rfl

namespace Entry

/-- The entry as `printTime` would scan it without its shortcuts: the same
sets, and none of the four flags. -/
def unstarred (e : Entry) : Entry := { e with flags := clearStars e.flags }

variable {e : Entry} {now t : Tm}

theorem unstarred_flag {flag : Nat} (h : flag ∈ searchFlags) :
    hasFlag e.unstarred.flags flag = false :=
  hasFlag_clearStars e.flags flag h

-- =========================================================== the scans

theorem unstarred_minuteAt (min : Nat) :
    e.unstarred.minuteAt min = scan e.bits minuteField min 59 := by
  unfold minuteAt
  rw [unstarred_flag (by simp [searchFlags])]
  rfl

theorem unstarred_hourAt (hour : Nat) :
    e.unstarred.hourAt hour = scan e.bits hourField hour 23 := by
  unfold hourAt
  rw [unstarred_flag (by simp [searchFlags])]
  rfl

theorem unstarred_domAt (mday : Nat) :
    e.unstarred.domAt mday
      = (scan e.bits domField mday 31).map (· + 1) := by
  unfold domAt
  rw [unstarred_flag (by simp [searchFlags])]
  rfl

/-- A day without a star is scanned for all the same. -/
theorem domAt_of_noStar (h : hasFlag e.flags domStar = false)
    (mday : Nat) : e.domAt mday = e.unstarred.domAt mday := by
  rw [unstarred_domAt]
  unfold domAt
  rw [h, if_neg Bool.false_ne_true]

theorem unstarred_monthFails {first : Bool} {mon : Nat} :
    e.unstarred.MonthFails first mon ↔ e.MonthFails false mon := by
  unfold MonthFails
  rw [unstarred_flag (by simp [searchFlags])]
  simp [unstarred]

/-- Without its star a scan fails wherever it fails with it. -/
theorem unstarred_minute_none {min : Nat} (h : e.minuteAt min = none) :
    e.unstarred.minuteAt min = none := by
  rw [unstarred_minuteAt]
  unfold minuteAt at h
  split at h
  · cases h
  · exact h

theorem unstarred_hour_none {hour : Nat} (h : e.hourAt hour = none) :
    e.unstarred.hourAt hour = none := by
  rw [unstarred_hourAt]
  unfold hourAt at h
  split at h
  · cases h
  · exact h

theorem unstarred_dom_none {mday : Nat} (h : e.domAt mday = none) :
    e.unstarred.domAt mday = none := by
  rw [unstarred_domAt]
  unfold domAt at h
  split at h
  · cases h
  · exact h

/-- Without stars there is nothing to clear. -/
theorem scansAlike_unstarred
    (h : ∀ flag ∈ searchFlags, hasFlag e.flags flag = false) :
    e.ScansAlike e.unstarred := by
  refine ⟨fun first mon => ?_, fun mday => ?_, fun hour => ?_,
    fun min => ?_⟩
  · rw [unstarred_monthFails]
    unfold MonthFails
    rw [h monStar (by simp [searchFlags])]
    simp
  · rw [unstarred_domAt]
    unfold domAt
    rw [h domStar (by simp [searchFlags])]
    rfl
  · rw [unstarred_hourAt]
    unfold hourAt
    rw [h hrStar (by simp [searchFlags])]
    rfl
  · rw [unstarred_minuteAt]
    unfold minuteAt
    rw [h minStar (by simp [searchFlags])]
    rfl

-- ========================================================= the carries

/-- The scans carry at least as far as the shortcuts. -/
theorem unstarred_carryHour :
    (e.carryHour now).hour ≤ (e.unstarred.carryHour now).hour := by
  by_cases hmin : e.minuteAt now.min = none
  · unfold carryHour
    rw [if_pos hmin, if_pos (unstarred_minute_none hmin)]
  · have hstays : e.carryHour now = now :=
      carryHour_of_some hmin
    rw [hstays]
    exact carryHour_hour

theorem unstarred_nextDay
    (h : e.hourAt (e.carryHour now).hour = none) :
    e.unstarred.carryDay now = now.nextDay := by
  unfold carryDay
  rw [if_pos]
  exact hourAt_later (unstarred_hour_none h) unstarred_carryHour

theorem unstarred_carryDay :
    (e.carryDay now).mday ≤ (e.unstarred.carryDay now).mday := by
  by_cases hhour : e.hourAt (e.carryHour now).hour = none
  · rw [unstarred_nextDay hhour]
    unfold carryDay
    rw [if_pos hhour]
  · have hstays : e.carryDay now = e.carryHour now :=
      carryDay_of_some hhour
    rw [hstays, carryHour_mday]
    exact carryDay_mday

theorem unstarred_nextMonth
    (h : e.domAt (e.carryDay now).mday = none) :
    e.unstarred.carryMonth now = now.nextMonth := by
  unfold carryMonth
  rw [if_pos]
  exact domAt_later (unstarred_dom_none h) unstarred_carryDay

theorem unstarred_carryMonth :
    (e.carryMonth now).mon ≤ (e.unstarred.carryMonth now).mon := by
  by_cases hdom : e.domAt (e.carryDay now).mday = none
  · rw [unstarred_nextMonth hdom]
    unfold carryMonth
    rw [if_pos hdom]
  · have hstays : e.carryMonth now = e.carryDay now :=
      carryMonth_of_some hdom
    rw [hstays, carryDay_mon]
    exact carryMonth_mon

theorem unstarred_newYear
    (h : e.MonthFails (decide (e.carryMonth now = now))
      (e.carryMonth now).mon) :
    e.unstarred.arrival now = now.newYear := by
  unfold arrival
  rw [if_pos]
  rw [unstarred_monthFails]
  exact h.later unstarred_carryMonth

/-- What is found without stars is found with them. -/
theorem finds_of_unstarred
    (h : e.unstarred.FindsDay ∧ e.unstarred.FindsMonth now) :
    e.FindsDay ∧ e.FindsMonth now := by
  obtain ⟨hday, hmonth⟩ := h
  refine ⟨?_, ?_⟩
  · rw [findsDay_iff] at hday ⊢
    exact mt unstarred_dom_none hday
  · rcases hmonth with hset | ⟨hstar, -⟩ | ⟨hset, hjanuary, hdom⟩
    · exact Or.inl hset
    · rw [unstarred_flag (by simp [searchFlags])] at hstar
      cases hstar
    · refine Or.inr (Or.inr ⟨hset, hjanuary, fun hnone => hdom ?_⟩)
      exact domAt_later (unstarred_dom_none hnone) unstarred_carryDay

-- ==================================================== where they agree

/-- What the shortcuts take is in the sets, so that a scan would have
found the same; the day must have no star, since the shortcut for it is
one late. -/
structure StarsHold (e : Entry) (now : Tm) : Prop where
  day : hasFlag e.flags domStar = false
  month : hasFlag e.flags monStar = true → e.FindsNow now →
    ∃ i, now.mon ≤ i ∧ i ≤ 12 ∧ bitTest e.bits monthField.name i = true
  hour : hasFlag e.flags hrStar = true →
    (e.arrival now).hour ≤ 23
      ∧ bitTest e.bits hourField.name (e.arrival now).hour = true
  minute : hasFlag e.flags minStar = true →
    bitTest e.bits minuteField.name (e.arrival now).min = true

/-- A scan takes the place it starts from, if that is set. -/
theorem scan_here {bits : Bitmaps} {f : Field} {i last : Nat}
    (hle : i ≤ last) (hset : bitTest bits f.name i = true) :
    scan bits f i last = some i := by
  obtain ⟨k, hk⟩ := Nat.exists_eq_add_of_le hle
  have hlen : last + 1 - i = k + 1 := by omega
  unfold scan
  rw [hlen, List.range'_succ, List.find?_cons_of_pos hset]

theorem StarsHold.domAt_eq (h : e.StarsHold now) (mday : Nat) :
    e.unstarred.domAt mday = e.domAt mday := by
  rw [unstarred_domAt]
  unfold domAt
  rw [h.day]
  rfl

theorem StarsHold.hourAt_eq (h : e.StarsHold now) :
    e.unstarred.hourAt (e.arrival now).hour
      = e.hourAt (e.arrival now).hour := by
  rw [unstarred_hourAt]
  unfold hourAt
  split
  · next hstar =>
    obtain ⟨hle, hset⟩ := h.hour hstar
    exact scan_here hle hset
  · rfl

theorem StarsHold.minuteAt_eq (h : e.StarsHold now) (hmin : now.min ≤ 59) :
    e.unstarred.minuteAt (e.arrival now).min
      = e.minuteAt (e.arrival now).min := by
  rw [unstarred_minuteAt]
  unfold minuteAt
  split
  · next hstar => exact scan_here (arrival_min hmin) (h.minute hstar)
  · rfl

/-- After a carry a star no longer skips the month scan. -/
theorem arrival_of_unstarred_carry {p : Tm} (hne : p ≠ now)
    (h : e.carryMonth now = p) (h' : e.unstarred.carryMonth now = p) :
    e.unstarred.arrival now = e.arrival now := by
  rw [arrival_of_carry h hne, arrival_of_carry h' hne]
  simp only [unstarred_monthFails]

/-- Then the carries lead to the same place. -/
theorem StarsHold.arrival_eq (h : e.StarsHold now) (hmin : now.min ≤ 59) :
    e.unstarred.arrival now = e.arrival now := by
  have hminuteAt := h.minuteAt_eq hmin
  have hhourAt := h.hourAt_eq
  by_cases hmonth : e.MonthFails (decide (e.carryMonth now = now))
      (e.carryMonth now).mon
  · rw [unstarred_newYear hmonth]
    unfold arrival
    rw [if_pos hmonth]
  · have harrival : e.arrival now = e.carryMonth now :=
      arrival_of_found hmonth
    rw [harrival] at hminuteAt hhourAt
    by_cases hdom : e.domAt (e.carryDay now).mday = none
    · have hcarry : e.carryMonth now = now.nextMonth :=
        carryMonth_of_none hdom
      exact arrival_of_unstarred_carry nextMonth_ne hcarry
        (unstarred_nextMonth hdom)
    · have hcarry : e.carryMonth now = e.carryDay now :=
        carryMonth_of_some hdom
      have hdom' : e.unstarred.domAt (e.carryDay now).mday ≠ none := by
        rw [h.domAt_eq]
        exact hdom
      rw [hcarry] at hminuteAt hhourAt
      by_cases hhour : e.hourAt (e.carryHour now).hour = none
      · have hday : e.carryDay now = now.nextDay :=
          carryDay_of_none hhour
        have hday' := unstarred_nextDay hhour
        refine arrival_of_unstarred_carry nextDay_ne (hcarry.trans hday) ?_
        unfold carryMonth
        rw [hday', ← hday, if_neg hdom']
      · have hday : e.carryDay now = e.carryHour now :=
          carryDay_of_some hhour
        rw [hday] at hminuteAt hhourAt hdom'
        have hhour' : e.unstarred.hourAt (e.carryHour now).hour ≠ none := by
          rw [hhourAt]
          exact hhour
        by_cases hmin' : e.minuteAt now.min = none
        · have hnext : e.carryHour now = now.nextHour :=
            carryHour_of_none hmin'
          have hnext' : e.unstarred.carryHour now = now.nextHour :=
            carryHour_of_none (unstarred_minute_none hmin')
          refine arrival_of_unstarred_carry nextHour_ne
            (hcarry.trans (hday.trans hnext)) ?_
          rw [hnext] at hhour' hdom'
          unfold carryMonth carryDay
          rw [hnext', if_neg hhour', if_neg hdom']
        · -- nothing is carried: the star of the month counts
          have hstays : e.carryHour now = now :=
            carryHour_of_some hmin'
          rw [hstays] at hminuteAt hhour' hdom' hday
          have hnow : e.carryMonth now = now := hcarry.trans hday
          have hnow' : e.unstarred.carryMonth now = now := by
            rw [carryMonth_eq_now]
            refine ⟨?_, hhour', hdom'⟩
            rw [hminuteAt]
            exact hmin'
          rw [harrival, hnow]
          unfold arrival
          rw [hnow', if_neg]
          rw [unstarred_monthFails, not_monthFails_iff]
          refine Or.inr ?_
          rw [not_monthFails_iff, hnow] at hmonth
          rcases hmonth with ⟨-, hstar⟩ | hset
          · exact h.month hstar (carryMonth_eq_now.mp hnow)
          · exact hset

/-- And the scans find the same there. -/
theorem StarsHold.shows_iff (h : e.StarsHold now) (hmin : now.min ≤ 59) :
    e.unstarred.Shows (e.arrival now) t ↔ e.Shows (e.arrival now) t := by
  unfold Shows
  rw [h.domAt_eq, h.hourAt_eq, h.minuteAt_eq hmin]

theorem StarsHold.monthFails_iff (h : e.StarsHold now) :
    e.unstarred.MonthFails (decide (e.arrival now = now))
        (e.arrival now).mon
      ↔ e.MonthFails (decide (e.arrival now = now)) (e.arrival now).mon := by
  rw [unstarred_monthFails]
  refine ⟨fun hfails => ?_, fun hfails => hfails.later (Nat.le_refl _)⟩
  by_contra hmonth
  rcases not_monthFails_iff.mp hmonth with ⟨hnow, hstar⟩ | hset
  · -- the star stands for a month that is there
    have harrival := of_decide_eq_true hnow
    have hfinds : e.FindsNow now := by
      rw [← carryMonth_eq_now]
      by_contra hcarry
      exact arrival_ne hcarry harrival
    refine absurd hfails (not_monthFails_iff.mpr (Or.inr ?_))
    rw [harrival]
    exact h.month hstar hfinds
  · exact absurd hfails (not_monthFails_iff.mpr (Or.inr hset))

theorem StarsHold.prints_iff (h : e.StarsHold now) (hmin : now.min ≤ 59)
    (hs : e.StartsOver) (hs' : e.unstarred.StartsOver) :
    Computes e now (.ok t) ↔ Computes e.unstarred now (.ok t) := by
  rw [Tinjac.prints_iff hs, Tinjac.prints_iff hs', h.arrival_eq hmin,
    h.shows_iff hmin, h.monthFails_iff]

-- =================================================== where they differ

/-- A starred day is the day the carries lead to, and a scan stops
behind the day it starts from: they never choose the same. -/
theorem day_of_same_time (h : e.Shows (e.arrival now) t)
    (h' : e.unstarred.Shows (e.unstarred.arrival now) t) :
    hasFlag e.flags domStar = false := by
  rw [← Bool.not_eq_true]
  intro hstar
  have hdomAt : ∀ mday, e.domAt mday = some mday := by
    intro mday
    unfold domAt
    rw [if_pos hstar]
  obtain ⟨hyear, hmon, -⟩ := h.le
  obtain ⟨hyear', hmon', -⟩ := h'.le
  obtain ⟨mday, hour, min, hdom, -, -, ht⟩ := h
  obtain ⟨mday', hour', min', hdom', -, -, ht'⟩ := h'
  rw [hdomAt] at hdom
  injection hdom with hdom
  have hlater := lt_of_domAt (unstarred_flag (by simp [searchFlags])) hdom'
  have hmday : t.mday = (e.arrival now).mday := by
    rw [ht, hdom]
  have hmday' : t.mday = mday' := by
    rw [ht']
  have hcarry : e.carryMonth now = e.carryDay now := by
    unfold carryMonth
    rw [hdomAt, if_neg (Option.some_ne_none _)]
  by_cases hmonth : e.MonthFails (decide (e.carryMonth now = now))
      (e.carryMonth now).mon
  · -- both start a new year on the first
    have harrival : e.arrival now = now.newYear :=
      arrival_of_fails hmonth
    rw [harrival] at hmday
    rw [unstarred_newYear hmonth] at hlater
    omega
  · have harrival : e.arrival now = e.carryDay now := by
      unfold arrival
      rw [if_neg hmonth, hcarry]
    have hnowMon : (e.carryDay now).mon = now.mon := carryDay_mon
    have hnowYear : (e.carryDay now).year = now.year := carryDay_year
    rw [harrival] at hmday hmon hyear
    have hbehind : (e.carryDay now).mday
        ≤ (e.unstarred.carryDay now).mday := unstarred_carryDay
    unfold arrival at hlater hmon' hyear'
    split at hyear'
    · have hnext : now.newYear.year = now.year + 1 := rfl
      omega
    · next hfound =>
      rw [if_neg hfound] at hlater hmon'
      unfold carryMonth at hlater hmon'
      split at hmon'
      · have hnext : now.nextMonth.mon = now.mon + 1 := rfl
        omega
      · next hsome =>
        rw [if_neg hsome] at hlater
        omega

/-- What both print is in the sets. -/
theorem starsHold_of_same_time (hs : e.StartsOver)
    (hs' : e.unstarred.StartsOver) (h : Computes e now (.ok t))
    (h' : Computes e.unstarred now (.ok t)) : e.StarsHold now := by
  obtain ⟨-, hshows⟩ := (Tinjac.prints_iff hs).mp h
  obtain ⟨hmonth', hshows'⟩ := (Tinjac.prints_iff hs').mp h'
  have hday := day_of_same_time hshows hshows'
  obtain ⟨hyear, hmon, -⟩ := hshows.le
  obtain ⟨hyear', hmon', -⟩ := hshows'.le
  obtain ⟨mday, hour, min, -, hhour, hmin, ht⟩ := hshows
  obtain ⟨mday', hour', min', -, hhour', hmin', ht'⟩ := hshows'
  have hhours : hour = hour' := by
    have hsame := congrArg Tm.hour (ht.symm.trans ht')
    exact hsame
  have hmins : min = min' := by
    have hsame := congrArg Tm.min (ht.symm.trans ht')
    exact hsame
  rw [unstarred_hourAt] at hhour'
  rw [unstarred_minuteAt] at hmin'
  refine ⟨hday, ?_, ?_, ?_⟩
  · intro hstar hnow
    have harrival : e.arrival now = now := by
      unfold arrival
      rw [carryMonth_eq_now.mpr hnow, decide_eq_true rfl, if_neg]
      exact fun hfails => hfails.1 ⟨rfl, hstar⟩
    rw [unstarred_monthFails, not_monthFails_iff, ← hmon', hmon,
      harrival] at hmonth'
    exact hmonth'.resolve_left fun hfirst => absurd hfirst.1 (by simp)
  · intro hstar
    unfold hourAt at hhour
    rw [if_pos hstar] at hhour
    injection hhour with hhour
    rw [hhour, hhours]
    exact (scan_some hhour').2
  · intro hstar
    unfold minuteAt at hmin
    rw [if_pos hstar] at hmin
    injection hmin with hmin
    rw [hmin, hmins]
    exact (scan_some hmin').2.2

-- ============================================================ midnight

/-- The hour shortcut takes 24:00 where the scan takes 00:00 of the day
after: the carry into the hour leads to the hour behind the last, the
scan for the day finds one day more from tomorrow on, hour 0 is in the
hour set, and `ptime_from_tm` takes both times. -/
structure MeetsAtMidnight (ptimeThrows : Tm → Bool) (e : Entry)
    (now : Tm) : Prop where
  day : hasFlag e.flags domStar = false
  hour : (e.arrival now).hour = 24
  midnight : bitTest e.bits hourField.name 0 = true
  tomorrow : bitTest e.bits domField.name now.mday = true
  dayAfter : bitTest e.bits domField.name (now.mday + 1) = true
  inMonth : now.mday + 2 ≤ now.monthLength
  printed : ¬ e.ThrowsAt ptimeThrows (e.arrival now)
  unstarredPrinted :
    ¬ e.unstarred.ThrowsAt ptimeThrows (e.unstarred.arrival now)

/-- `ptime_from_tm` throws on what is found with stars, and on what is
found without. -/
structure BothThrow (ptimeThrows : Tm → Bool) (e : Entry) (now : Tm) :
    Prop where
  throws : e.ThrowsAt ptimeThrows (e.arrival now)
  finds : e.unstarred.FindsDay ∧ e.unstarred.FindsMonth now
  unstarredThrows :
    e.unstarred.ThrowsAt ptimeThrows (e.unstarred.arrival now)

/-- Only the carry into the hour leads behind the last. -/
theorem arrival_midnight (hnow : now.hour ≤ 23)
    (h : (e.arrival now).hour = 24) :
    now.hour = 23 ∧ e.minuteAt now.min = none
      ∧ e.arrival now = now.nextHour ∧ e.carryDay now = now.nextHour
      ∧ e.domAt now.mday ≠ none
      ∧ ¬ e.MonthFails false now.mon := by
  by_cases hmonth : e.MonthFails (decide (e.carryMonth now = now))
      (e.carryMonth now).mon
  · rw [arrival_of_fails hmonth] at h
    cases h
  · have harrival := arrival_of_found hmonth
    rw [harrival] at h
    by_cases hdom : e.domAt (e.carryDay now).mday = none
    · rw [carryMonth_of_none hdom] at h
      cases h
    · have hcarry := carryMonth_of_some hdom
      rw [hcarry] at h
      by_cases hhour : e.hourAt (e.carryHour now).hour = none
      · rw [carryDay_of_none hhour] at h
        cases h
      · have hday := carryDay_of_some hhour
        rw [hday] at h
        by_cases hmin : e.minuteAt now.min = none
        · have hnext := carryHour_of_none hmin
          have hlast : now.hour + 1 = 24 := by
            rw [hnext] at h
            exact h
          rw [hday, hnext] at hcarry hdom
          rw [hcarry, decide_eq_false nextHour_ne] at hmonth
          exact ⟨by omega, hmin, harrival.trans hcarry, hday.trans hnext,
            hdom, hmonth⟩
        · rw [carryHour_of_some hmin] at h
          omega

/-- There the hour scan without a star finds nothing. -/
theorem unstarred_carryDay_midnight (hnow : now.hour ≤ 23)
    (h : (e.arrival now).hour = 24) :
    e.unstarred.carryDay now = now.nextDay := by
  obtain ⟨hlast, hmin, -⟩ := arrival_midnight hnow h
  have hhour : e.unstarred.carryHour now = now.nextHour :=
    carryHour_of_none (unstarred_minute_none hmin)
  refine carryDay_of_none ?_
  rw [hhour, unstarred_hourAt, scan_eq_none]
  intro i hi hle
  have hfirst : now.nextHour.hour = now.hour + 1 := rfl
  omega

/-- So the search goes on from the next day, if that month has one. -/
theorem unstarred_arrival_midnight (hnow : now.hour ≤ 23)
    (h : (e.arrival now).hour = 24)
    (hdom : e.unstarred.domAt (now.mday + 1) ≠ none) :
    e.unstarred.arrival now = now.nextDay := by
  obtain ⟨-, -, -, -, -, hmonth⟩ := arrival_midnight hnow h
  have hday := unstarred_carryDay_midnight hnow h
  have hcarry : e.unstarred.carryMonth now = now.nextDay := by
    rw [← hday]
    refine carryMonth_of_some ?_
    rw [hday]
    exact hdom
  rw [arrival_of_carry hcarry nextDay_ne, if_neg]
  rw [unstarred_monthFails]
  exact hmonth

/-- If no day of that month is set, the search goes on from another month
or from the next year. -/
theorem unstarred_arrival_later (hnow : now.hour ≤ 23)
    (h : (e.arrival now).hour = 24)
    (hdom : e.unstarred.domAt (now.mday + 1) = none) :
    (e.unstarred.arrival now).year = now.year + 1
      ∨ (e.unstarred.arrival now).mon = now.mon + 1 := by
  have hday := unstarred_carryDay_midnight hnow h
  have hcarry : e.unstarred.carryMonth now = now.nextMonth := by
    refine carryMonth_of_none ?_
    rw [hday]
    exact hdom
  rw [arrival_of_carry hcarry nextMonth_ne]
  split
  · exact Or.inl rfl
  · exact Or.inr rfl

/-- So in this month it can only be from the next day. -/
theorem unstarred_arrival_this_month (hnow : now.hour ≤ 23)
    (h : (e.arrival now).hour = 24)
    (hyear : (e.unstarred.arrival now).year ≤ now.year)
    (hmon : (e.unstarred.arrival now).mon ≤ now.mon) :
    e.unstarred.arrival now = now.nextDay := by
  refine unstarred_arrival_midnight hnow h fun hnone => ?_
  rcases unstarred_arrival_later hnow h hnone with hnext | hnext
  · omega
  · omega

/-- The minute is searched for from 0 with stars and without. -/
theorem unstarred_minuteAt_of_none (hmin : e.minuteAt now.min = none)
    (min : Nat) : e.unstarred.minuteAt min = e.minuteAt min := by
  rw [unstarred_minuteAt]
  unfold minuteAt at hmin ⊢
  split at hmin
  · cases hmin
  · next hstar => rw [if_neg hstar]

/-- What is chosen from a place is in the range of the field, but for a
starred hour. -/
theorem Shows.range {p : Tm} (h : e.Shows p t) (hhour : p.hour ≤ 24)
    (hmin : p.min ≤ 59) : t.hour ≤ 24 ∧ t.min ≤ 59
      ∧ (t.hour = 24 → p.hour = 24) := by
  obtain ⟨mday, hour, min, -, hhourAt, hminAt, rfl⟩ := h
  dsimp only
  have hhours : hour ≤ 24 ∧ (hour = 24 → p.hour = 24) := by
    unfold hourAt at hhourAt
    split at hhourAt
    · injection hhourAt with hhourAt
      omega
    · obtain ⟨-, hle, -⟩ := scan_some hhourAt
      omega
  have hmins : min ≤ 59 := by
    unfold minuteAt at hminAt
    split at hminAt
    · injection hminAt with hminAt
      omega
    · exact (scan_some hminAt).2.1
  exact ⟨hhours.1, hmins, hhours.2⟩

/-- Without stars the hour is in its set, and the day is not the
first. -/
theorem unstarred_shows {p : Tm} (h : e.unstarred.Shows p t)
    (hmday : 1 ≤ p.mday) :
    (t.hour ≤ 23 ∧ bitTest e.bits hourField.name t.hour = true)
      ∧ 2 ≤ t.mday ∧ p.mday + 1 ≤ t.mday
      ∧ bitTest e.bits domField.name (t.mday - 1) = true
      ∧ ∀ i, p.mday ≤ i → i < t.mday - 1 →
        bitTest e.bits domField.name i = false := by
  obtain ⟨mday, hour, min, hdom, hhour, -, rfl⟩ := h
  dsimp only
  rw [unstarred_hourAt] at hhour
  rw [unstarred_domAt] at hdom
  obtain ⟨i, hi, rfl⟩ := Option.map_eq_some_iff.mp hdom
  obtain ⟨hfirst, -, hset⟩ := scan_some hi
  refine ⟨(scan_some hhour).2, by omega, by omega, hset, ?_⟩
  intro j hj hlt
  unfold scan at hi
  have hnone := (List.find?_range'_eq_some.mp hi).2.2 j hj hlt
  simpa using hnone

/-- Two times that look the same and are not meet at midnight. -/
theorem midnight_of_same_ptime {t' : Tm} (hnow : now.Valid)
    (h : e.Shows (e.arrival now) t)
    (h' : e.unstarred.Shows (e.unstarred.arrival now) t')
    (hcal : t.OnCalendar) (hcal' : t'.OnCalendar)
    (hsame : t.ptime = t'.ptime) (hne : t ≠ t') :
    hasFlag e.flags domStar = false ∧ (e.arrival now).hour = 24
      ∧ bitTest e.bits hourField.name 0 = true
      ∧ bitTest e.bits domField.name now.mday = true
      ∧ bitTest e.bits domField.name (now.mday + 1) = true
      ∧ now.mday + 2 ≤ now.monthLength := by
  obtain ⟨hyear, hmon, hsec, -⟩ := h.le
  obtain ⟨-, -, hsec', -⟩ := h'.le
  obtain ⟨hhour, hmin, hhours⟩ :=
    h.range (arrival_hour hnow.hour) (arrival_min hnow.min)
  obtain ⟨-, hmin', -⟩ :=
    h'.range (arrival_hour hnow.hour) (arrival_min hnow.min)
  obtain ⟨⟨hhour', hset⟩, htwo, hlater, hset', hleast⟩ :=
    unstarred_shows h' (arrival_mday_pos hnow.mday_pos)
  have hsecs : t.sec = t'.sec := by
    rw [hsec, hsec', arrival_sec, arrival_sec]
  obtain heq | ⟨hmidnight, hzero, -, hday⟩ :=
    (Tm.ptime_eq_iff hcal hcal' hmin hmin' hhour hhour' hsecs).mp hsame
  · exact absurd heq hne
  have hplace := hhours hmidnight
  obtain ⟨hlast, hminNone, harrival, -, hdom, -⟩ :=
    arrival_midnight hnow.hour hplace
  obtain ⟨hyears, hmons, hmdays⟩ := hcal.day_before hcal' htwo hday
  rw [harrival] at hyear hmon
  -- so the scans without stars have stayed in this month
  have hthis : e.unstarred.arrival now = now.nextDay := by
    obtain ⟨hyear', hmon', -⟩ := h'.le
    have hyear0 : now.nextHour.year = now.year := rfl
    have hmon0 : now.nextHour.mon = now.mon := rfl
    exact unstarred_arrival_this_month hnow.hour hplace (by omega) (by omega)
  have hstart : (e.unstarred.arrival now).mday = now.mday + 1 := by
    rw [hthis]
    rfl
  rw [hstart] at hlater hleast
  rw [hzero] at hset
  obtain ⟨mday, hour, min, hdomAt, -, -, ht⟩ := h
  have htmday : t.mday = mday := by
    rw [ht]
  have hhere : now.nextHour.mday = now.mday := rfl
  rw [harrival, hhere] at hdomAt
  have hstar : hasFlag e.flags domStar = false := by
    rw [← Bool.not_eq_true]
    intro hstar
    unfold domAt at hdomAt
    rw [if_pos hstar] at hdomAt
    injection hdomAt with hdomAt
    omega
  rw [domAt_of_noStar hstar, unstarred_domAt] at hdomAt
  obtain ⟨i, hi, rfl⟩ := Option.map_eq_some_iff.mp hdomAt
  obtain ⟨hfirst, -, hbit⟩ := scan_some hi
  obtain rfl : i = now.mday := by
    by_contra hlt
    have hno := hleast i (by omega) (by omega)
    rw [hbit] at hno
    cases hno
  have hdayAfter : t'.mday - 1 = now.mday + 1 := by omega
  rw [hdayAfter] at hset'
  have hlen : t'.monthLength = now.monthLength := by
    unfold Tm.monthLength Tm.calendarYear
    rw [← hyears, ← hmons, hyear, hmon]
    rfl
  have hle := hcal'.mday_le
  rw [hlen] at hle
  exact ⟨hstar, hplace, hset, hbit, hset', by omega⟩

section

variable {ptimeThrows : Tm → Bool}

/-- Where the times meet at midnight, the day after tomorrow is one that
the scan comes to, -/
theorem MeetsAtMidnight.in_scan (hm : e.MeetsAtMidnight ptimeThrows now) :
    now.mday + 1 ≤ 31 := by
  have hle := hm.inMonth
  have hlen := Gregorian.daysIn_le now.calendarYear now.mon
  unfold Tm.monthLength at hle
  omega

/-- the scan from today on takes tomorrow, -/
theorem MeetsAtMidnight.takes_tomorrow
    (hm : e.MeetsAtMidnight ptimeThrows now) :
    e.domAt now.mday = some (now.mday + 1) := by
  have hin : now.mday ≤ 31 := Nat.le_of_succ_le hm.in_scan
  rw [domAt_of_noStar hm.day, unstarred_domAt, scan_here hin hm.tomorrow]
  rfl

/-- and the one from tomorrow on the day after, -/
theorem MeetsAtMidnight.takes_dayAfter
    (hm : e.MeetsAtMidnight ptimeThrows now) :
    e.unstarred.domAt (now.mday + 1) = some (now.mday + 2) := by
  rw [unstarred_domAt, scan_here hm.in_scan hm.dayAfter]
  rfl

/-- from where the search goes on without stars. -/
theorem MeetsAtMidnight.unstarred_arrival
    (hm : e.MeetsAtMidnight ptimeThrows now) (hnow : now.hour ≤ 23) :
    e.unstarred.arrival now = now.nextDay := by
  refine unstarred_arrival_midnight hnow hm.hour ?_
  rw [hm.takes_dayAfter]
  exact Option.some_ne_none _

/-- So a day and a month are found without stars, -/
theorem MeetsAtMidnight.finds (hm : e.MeetsAtMidnight ptimeThrows now)
    (hnow : now.hour ≤ 23) :
    e.unstarred.FindsDay ∧ e.unstarred.FindsMonth now := by
  obtain ⟨-, -, -, -, -, hmonth⟩ := arrival_midnight hnow hm.hour
  refine ⟨Or.inr ⟨now.mday + 1, by omega, hm.in_scan, hm.dayAfter⟩, ?_⟩
  rw [findsMonth_iff, hm.unstarred_arrival hnow, unstarred_monthFails]
  exact hmonth

/-- and the times look the same. -/
theorem MeetsAtMidnight.same_ptime {t' : Tm}
    (hm : e.MeetsAtMidnight ptimeThrows now) (hnow : now.hour ≤ 23)
    (h : e.Shows (e.arrival now) t)
    (h' : e.unstarred.Shows (e.unstarred.arrival now) t') :
    t.ptime = t'.ptime := by
  obtain ⟨-, hminNone, harrival, -, -, -⟩ := arrival_midnight hnow hm.hour
  have hmidnight := hm.hour
  rw [harrival] at h hmidnight
  rw [hm.unstarred_arrival hnow] at h'
  obtain ⟨mday, hour, min, hdom, hhour, hmin, rfl⟩ := h
  obtain ⟨mday', hour', min', hdom', hhour', hmin', rfl⟩ := h'
  have hmday : mday = now.mday + 1 := by
    have hsame : now.nextHour.mday = now.mday := rfl
    rw [hsame, hm.takes_tomorrow] at hdom
    injection hdom with hdom
    exact hdom.symm
  have hmday' : mday' = now.mday + 2 := by
    have hsame : now.nextDay.mday = now.mday + 1 := rfl
    rw [hsame, hm.takes_dayAfter] at hdom'
    injection hdom' with hdom'
    exact hdom'.symm
  have hhours : hour = 24 := by
    rw [hmidnight] at hhour
    unfold hourAt at hhour
    split at hhour
    · injection hhour with hhour
      exact hhour.symm
    · obtain ⟨hfirst, hlast, -⟩ := scan_some hhour
      omega
  have hhours' : hour' = 0 := by
    have hfirst : now.nextDay.hour = 0 := rfl
    rw [hfirst, unstarred_hourAt, scan_here (Nat.zero_le _) hm.midnight]
      at hhour'
    injection hhour' with hhour'
    exact hhour'.symm
  have hmins : min = min' := by
    have hfirst : now.nextHour.min = 0 := rfl
    have hfirst' : now.nextDay.min = 0 := rfl
    rw [hfirst] at hmin
    rw [hfirst', unstarred_minuteAt_of_none hminNone, hmin] at hmin'
    injection hmin'
  rw [hmday, hmday', hhours, hhours', hmins]
  unfold Tm.ptime Tm.day Gregorian.dayNumber Tm.nextHour Tm.nextDay
    Tm.calendarYear
  dsimp only
  omega

end

end Entry

-- ========================================================= the theorem

/-- Where nothing is found, the stars make no difference. -/
theorem computeAlike_of_not_finds {fuel : Nat}
    {getpwnam : CString → Option Passwd} {file : Stream}
    {errorFunc : Bool} {pw : Option Passwd} {h : CHeap} {envp : Nat}
    {fname : String} {r : LoadResult} {e : Entry}
    (hload : loadEntry fuel getpwnam file errorFunc pw h envp fname
      = some r) (he : r.entry = some e) (hs : e.StartsOver)
    (hs' : e.unstarred.StartsOver) {now : Tm} (hnow : now.Valid)
    (hno : ¬ (e.FindsDay ∧ e.FindsMonth now)) :
    ComputeAlike now e e.unstarred := by
  refine ⟨rfl, ?_⟩
  by_cases hbehind : bitTest e.bits monthField.name 12 = true
  · -- one that can give up has no stars
    have hday : ¬ e.FindsDay := fun hday =>
      hno ⟨hday, Or.inl ⟨12, by decide, by decide, hbehind⟩⟩
    have hmonthly := loaded_monthly hload he hbehind hday
    exact (Entry.scansAlike_unstarred hmonthly.flags).computes
  · -- neither stops
    have hbehind := Bool.eq_false_iff.mpr hbehind
    intro res
    refine iff_of_false ?_ ?_
    · exact fun hres => hno
        ((stops_iff_finds hs hbehind hnow.mday_pos).mp ⟨res, hres⟩)
    · intro hres
      refine hno (Entry.finds_of_unstarred ?_)
      exact (stops_iff_finds hs' hbehind hnow.mday_pos).mp ⟨res, hres⟩

/-- If what is found with stars is seen without them, then something is
found without them. -/
theorem computes_of_printAlike {ptimeThrows : Tm → Bool} {e e' : Entry}
    {now t : Tm} (hrows : printRows e = printRows e')
    (h : Computes e now (.ok t)) (halike : PrintAlike ptimeThrows now e e') :
    ∃ t', Computes e' now (.ok t') := by
  unfold PrintAlike at halike
  simp only [shown_iff_computes] at halike
  obtain ⟨res, hres, hshown⟩ := (halike _).mp ⟨_, h, rfl⟩
  rw [← printResult_congr hrows] at hshown
  obtain ⟨t', rfl, -⟩ := ok_of_shown hshown
  exact ⟨t', hres⟩

section

variable {e : Entry} {now t : Tm} {ptimeThrows : Tm → Bool}

/-- What it takes for the same to be printed with stars and without: the
times found are equal, or meet at midnight, or `ptime_from_tm` throws on
both. -/
theorem cause_of_printAlike
    (hthrows : ∀ t, ptimeThrows t = false → t.OnCalendar)
    (hnow : now.Valid) (hs : e.StartsOver) (hs' : e.unstarred.StartsOver)
    (ht : Computes e now (.ok t))
    (halike : PrintAlike ptimeThrows now e e.unstarred) :
    e.StarsHold now ∨ e.MeetsAtMidnight ptimeThrows now
      ∨ e.BothThrow ptimeThrows now := by
  have hrows : printRows e = printRows e.unstarred := rfl
  obtain ⟨t', ht'⟩ := computes_of_printAlike hrows ht halike
  have hshows := ((prints_iff hs).mp ht).2
  have hshows' := ((prints_iff hs').mp ht').2
  obtain ⟨hboth, hsame⟩ := (printAlike_iff hrows ht ht').mp halike
  cases hthrow : ptimeThrows t with
  | true =>
      refine Or.inr (Or.inr ⟨⟨t, hshows, hthrow⟩, ?_, ?_⟩)
      · exact Entry.finds_of_prints hs' hnow.mday_pos ht'
      · exact ⟨t', hshows', hboth.symm.trans hthrow⟩
  | false =>
      have hthrow' : ptimeThrows t' = false := hboth.symm.trans hthrow
      by_cases heq : t = t'
      · rw [← heq] at ht'
        exact Or.inl (Entry.starsHold_of_same_time hs hs' ht ht')
      · obtain ⟨hday, hhour, hzero, hfirst, hnext, hin⟩ :=
          Entry.midnight_of_same_ptime hnow hshows hshows'
            (hthrows t hthrow) (hthrows t' hthrow') (hsame hthrow) heq
        refine Or.inr (Or.inl
          ⟨hday, hhour, hzero, hfirst, hnext, hin, ?_, ?_⟩)
        · rw [hshows.throwsAt_iff, hthrow]
          exact Bool.false_ne_true
        · rw [hshows'.throwsAt_iff, hthrow']
          exact Bool.false_ne_true

/-- And each of the three is enough for the same to be printed. -/
theorem printAlike_of_cause (hnow : now.Valid) (hs : e.StartsOver)
    (hs' : e.unstarred.StartsOver) (ht : Computes e now (.ok t))
    (hcause : e.StarsHold now ∨ e.MeetsAtMidnight ptimeThrows now
      ∨ e.BothThrow ptimeThrows now) :
    PrintAlike ptimeThrows now e e.unstarred := by
  have hrows : printRows e = printRows e.unstarred := rfl
  have hshows := ((prints_iff hs).mp ht).2
  rcases hcause with hold | hmidnight | hboth
  · -- the search finds the same time
    have ht' := (hold.prints_iff hnow.min hs hs').mp ht
    exact (printAlike_iff hrows ht ht').mpr ⟨rfl, fun _ => rfl⟩
  · obtain ⟨t', ht'⟩ := Entry.prints_of_finds hs' hnow.mday_pos
      (hmidnight.finds hnow.hour)
    have hshows' := ((prints_iff hs').mp ht').2
    have hprinted := hmidnight.printed
    have hprinted' := hmidnight.unstarredPrinted
    rw [hshows.throwsAt_iff, Bool.not_eq_true] at hprinted
    rw [hshows'.throwsAt_iff, Bool.not_eq_true] at hprinted'
    exact (printAlike_iff hrows ht ht').mpr
      ⟨hprinted.trans hprinted'.symm,
        fun _ => hmidnight.same_ptime hnow.hour hshows hshows'⟩
  · obtain ⟨t', ht'⟩ := Entry.prints_of_finds hs' hnow.mday_pos hboth.finds
    have hshows' := ((prints_iff hs').mp ht').2
    have hthrow := hshows.throwsAt_iff.mp hboth.throws
    have hthrow' := hshows'.throwsAt_iff.mp hboth.unstarredThrows
    refine (printAlike_iff hrows ht ht').mpr
      ⟨hthrow.trans hthrow'.symm, fun hno => ?_⟩
    rw [hthrow] at hno
    cases hno

end

/-- **The star shortcut.** Where `ptime_from_tm` throws on every day that
the calendar does not have, the flags make no difference to what is
printed iff nothing is found; or the shortcuts take what is in the sets,
and no day; or the times found with stars and without meet at midnight;
or `ptime_from_tm` throws on both. -/
theorem printAlike_unstarred_iff {fuel : Nat}
    {getpwnam : CString → Option Passwd} {file : Stream}
    {errorFunc : Bool} {pw : Option Passwd} {h : CHeap} {envp : Nat}
    {fname : String} {r : LoadResult} {e : Entry}
    (hload : loadEntry fuel getpwnam file errorFunc pw h envp fname
      = some r) (he : r.entry = some e) {now : Tm} (hnow : now.Valid)
    {ptimeThrows : Tm → Bool}
    (hthrows : ∀ t, ptimeThrows t = false → t.OnCalendar) :
    PrintAlike ptimeThrows now e e.unstarred
      ↔ (e.FindsDay ∧ e.FindsMonth now →
          e.StarsHold now ∨ e.MeetsAtMidnight ptimeThrows now
            ∨ e.BothThrow ptimeThrows now) := by
  rcases loaded_startsOver_or_empty hload he with hs | ⟨hempty, hstars⟩
  · have hs' : e.unstarred.StartsOver := hs e.unstarred rfl
    have hs : e.StartsOver := hs e rfl
    by_cases hfinds : e.FindsDay ∧ e.FindsMonth now
    · obtain ⟨t, ht⟩ := Entry.prints_of_finds hs hnow.mday_pos hfinds
      constructor
      · exact fun halike _ =>
          cause_of_printAlike hthrows hnow hs hs' ht halike
      · exact fun hcond =>
          printAlike_of_cause hnow hs hs' ht (hcond hfinds)
    · refine iff_of_true ?_ (fun h => absurd h hfinds)
      exact (computeAlike_of_not_finds hload he hs hs' hnow hfinds).printAlike
  · -- `@reboot`
    have hday := (@empty_runs_on e now hempty hstars).1
    have halike : ComputeAlike now e e.unstarred :=
      ⟨rfl, (Entry.scansAlike_unstarred hstars).computes⟩
    exact iff_of_true halike.printAlike fun h => absurd h.1 hday

/-- The evening of that day, half past eleven. -/
def januaryEvening : Tm := { januaryMorning with hour := 23, min := 30 }

theorem januaryEvening_valid : januaryEvening.Valid :=
  ⟨by decide, by decide, by decide, by decide, by decide, by decide⟩

/-- A job for every hour of the eleventh and the twelfth, asked for late
on the tenth: with stars the search finds 24:00 on the eleventh, without
them 00:00 on the twelfth, and the same is printed. -/
theorem midnight_unstarred :
    ∃ e, loadedFrom "0 * 11,12 * * root true\n" = some e
      ∧ PrintAlike Tm.offCalendar januaryEvening e e.unstarred := by
  have hloaded : ∃ e, e ∈ loadedFrom "0 * 11,12 * * root true\n"
      ∧ hasFlag e.flags domStar = false
      ∧ e.arrival januaryEvening = januaryEvening.nextHour
      ∧ bitTest e.bits hourField.name 0 = true
      ∧ bitTest e.bits domField.name 10 = true
      ∧ bitTest e.bits domField.name 11 = true
      ∧ (e.domAt 10 = some 11 ∧ e.hourAt 24 = some 24
        ∧ e.minuteAt 0 = some 0)
      ∧ e.unstarred.arrival januaryEvening = januaryEvening.nextDay
      ∧ e.unstarred.domAt 11 = some 12 ∧ e.unstarred.hourAt 0 = some 0
      ∧ e.unstarred.minuteAt 0 = some 0 := by
    decide +kernel
  obtain ⟨e, he, hday, harrival, hzero, hfirst, hnext, ⟨hdom, hhour, hmin⟩,
    harrival', hdom', hhour', hmin'⟩ := hloaded
  obtain ⟨r, hr, hre⟩ := Option.bind_eq_some_iff.mp he
  have hshows : e.Shows (e.arrival januaryEvening)
      { januaryEvening.nextHour with mday := 11 } := by
    rw [harrival]
    exact ⟨11, 24, 0, hdom, hhour, hmin, rfl⟩
  have hshows' : e.unstarred.Shows (e.unstarred.arrival januaryEvening)
      { januaryEvening.nextDay with mday := 12 } := by
    rw [harrival']
    exact ⟨12, 0, 0, hdom', hhour', hmin', rfl⟩
  have hmidnight : e.MeetsAtMidnight Tm.offCalendar januaryEvening := by
    refine ⟨hday, ?_, hzero, hfirst, hnext, by decide, ?_, ?_⟩
    · rw [harrival]
      rfl
    · rw [hshows.throwsAt_iff]
      decide
    · rw [hshows'.throwsAt_iff]
      decide
  exact ⟨e, he, (printAlike_unstarred_iff hr hre januaryEvening_valid
    Tm.onCalendar_of_offCalendar).mpr fun _ => Or.inr (Or.inl hmidnight)⟩

/-- With its stars the job for noon is announced for today, without them
for tomorrow. -/
theorem noon_without_stars :
    ¬ (∀ e, loadedFrom "0 12 * * * root true\n" = some e →
      PrintAlike Tm.offCalendar januaryMorning e e.unstarred) := by
  intro hall
  have hnext : ∃ e, e ∈ loadedFrom "0 12 * * * root true\n"
      ∧ nextTime 1 e januaryMorning
        = some (.ok { januaryMorning with hour := 12 })
      ∧ nextTime 1 e.unstarred januaryMorning
        = some (.ok { januaryMorning with hour := 12, mday := 11 }) := by
    decide +kernel
  obtain ⟨e, he, htoday, htomorrow⟩ := hnext
  have hrows : printRows e = printRows e.unstarred := rfl
  obtain ⟨-, hsame⟩ :=
    (printAlike_iff hrows ⟨1, htoday⟩ ⟨1, htomorrow⟩).mp (hall e he)
  exact absurd (hsame (by decide)) (by decide)

end Tinjac
