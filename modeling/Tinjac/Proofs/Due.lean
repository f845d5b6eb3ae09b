/-
When `printTime` is right.

What the search prints is what the scans choose where the carries lead
(`prints_iff`), so whether the answer is due can be read off that place:
`ArrivesWell` says what the entry's sets must hold there. Most of it the
search never looks at. It takes the month it stands in for the one it
found, it takes a star flag for a full set, it does not know how long a
month is, and it does not look at the weekday at all.
`printTime_due_iff` says that there is nothing else: an answer is never
in the past, and what a scan found is in the set.
-/
import Tinjac.Text.Due
import Tinjac.Proofs.Loaded

namespace Tinjac

namespace Entry

/-- What the sets must hold at the place the carries lead to. -/
structure ArrivesWell (e : Entry) (p : Tm) : Prop where
  month : p.mon ≤ 11 ∧ bitTest e.bits monthField.name p.mon = true
  hour : hasFlag e.flags hrStar = true →
    p.hour ≤ 23 ∧ bitTest e.bits hourField.name p.hour = true
  minute : hasFlag e.flags minStar = true →
    bitTest e.bits minuteField.name p.min = true
  starredDay : hasFlag e.flags domStar = true →
    p.mday ≤ p.monthLength
      ∧ bitTest e.bits domField.name (p.mday - 1) = true
      ∧ bitTest e.bits dowField.name p.wday = true
  scannedDay : hasFlag e.flags domStar = false →
    ∀ i, scan e.bits domField p.mday 31 = some i →
      i + 1 ≤ p.monthLength
        ∧ (hasFlag e.flags dowStar = true →
          bitTest e.bits dowField.name { p with mday := i + 1 }.wday
            = true)

/-- The search finds no month or no day: it prints nothing. -/
def PrintsNothing (e : Entry) (now : Tm) : Prop :=
  e.MonthFails (decide (e.arrival now = now)) (e.arrival now).mon
    ∨ e.domAt (e.arrival now).mday = none

variable {e : Entry} {now : Tm}

/-- The five places the carries can lead to. -/
theorem arrival_cases (e : Entry) (now : Tm) :
    e.arrival now = now ∨ e.arrival now = now.nextHour
      ∨ e.arrival now = now.nextDay ∨ e.arrival now = now.nextMonth
      ∨ e.arrival now = now.newYear := by
  unfold arrival
  split
  · exact Or.inr (Or.inr (Or.inr (Or.inr rfl)))
  · unfold carryMonth
    split
    · exact Or.inr (Or.inr (Or.inr (Or.inl rfl)))
    · unfold carryDay
      split
      · exact Or.inr (Or.inr (Or.inl rfl))
      · unfold carryHour
        split
        · exact Or.inr (Or.inl rfl)
        · exact Or.inl rfl

theorem arrival_min (h : now.min ≤ 59) : (e.arrival now).min ≤ 59 := by
  rcases arrival_cases e now with h' | h' | h' | h' | h'
  · rw [h']
    exact h
  · rw [h']
    exact Nat.zero_le _
  · rw [h']
    exact Nat.zero_le _
  · rw [h']
    exact Nat.zero_le _
  · rw [h']
    exact Nat.zero_le _

theorem arrival_hour (h : now.hour ≤ 23) : (e.arrival now).hour ≤ 24 := by
  rcases arrival_cases e now with h' | h' | h' | h' | h'
  · rw [h']
    omega
  · rw [h']
    exact Nat.succ_le_succ h
  · rw [h']
    exact Nat.zero_le _
  · rw [h']
    exact Nat.zero_le _
  · rw [h']
    exact Nat.zero_le _

theorem arrival_sec : (e.arrival now).sec = now.sec := by
  rcases arrival_cases e now with h | h | h | h | h
  · rw [h]
  · rw [h]
    rfl
  · rw [h]
    rfl
  · rw [h]
    rfl
  · rw [h]
    rfl

theorem arrival_mday_pos (h : 1 ≤ now.mday) : 1 ≤ (e.arrival now).mday := by
  rcases arrival_cases e now with h' | h' | h' | h' | h'
  · rw [h']
    exact h
  · rw [h']
    exact h
  · rw [h']
    exact Nat.le_add_left 1 _
  · rw [h']
    exact Nat.le_refl 1
  · rw [h']
    exact Nat.le_refl 1

/-- The scans choose nothing before the place they start from. -/
theorem Shows.le {p t : Tm} (h : e.Shows p t) :
    t.year = p.year ∧ t.mon = p.mon ∧ t.sec = p.sec ∧ p.mday ≤ t.mday
      ∧ p.hour ≤ t.hour ∧ p.min ≤ t.min := by
  obtain ⟨mday, hour, min, hdom, hhour, hmin, rfl⟩ := h
  refine ⟨rfl, rfl, rfl, ?_, ?_, ?_⟩
  · show p.mday ≤ mday
    unfold domAt at hdom
    split at hdom
    · injection hdom with hdom
      omega
    · obtain ⟨i, hi, rfl⟩ := Option.map_eq_some_iff.mp hdom
      exact Nat.le_succ_of_le (scan_some hi).1
  · show p.hour ≤ hour
    unfold hourAt at hhour
    split at hhour
    · injection hhour with hhour
      omega
    · exact (scan_some hhour).1
  · show p.min ≤ min
    unfold minuteAt at hmin
    split at hmin
    · injection hmin with hmin
      omega
    · exact (scan_some hmin).1

/-- Nothing printed is in the past. -/
theorem Shows.notBefore {t : Tm} (h : e.Shows (e.arrival now) t) :
    now.NotBefore t := by
  obtain ⟨hyear, hmon, -, hmday, hhour, hmin⟩ := h.le
  unfold Tm.NotBefore
  rcases arrival_cases e now with h' | h' | h' | h' | h'
  · rw [h'] at hyear hmon hmday hhour hmin
    omega
  · rw [h'] at hyear hmon hmday hhour hmin
    simp only [Tm.nextHour] at hyear hmon hmday hhour hmin
    omega
  · rw [h'] at hyear hmon hmday hhour hmin
    simp only [Tm.nextDay] at hyear hmon hmday hhour hmin
    omega
  · rw [h'] at hyear hmon hmday hhour hmin
    simp only [Tm.nextMonth] at hyear hmon hmday hhour hmin
    omega
  · rw [h'] at hyear hmon hmday hhour hmin
    simp only [Tm.newYear] at hyear hmon hmday hhour hmin
    omega

/-- What the scans choose where the carries lead is due iff the sets
hold what they must there. -/
theorem Shows.due_iff {t : Tm} (hnow : now.Valid)
    (h : e.Shows (e.arrival now) t) :
    Due e now t ↔ e.ArrivesWell (e.arrival now) := by
  have hpast := h.notBefore
  have hmin59 : (e.arrival now).min ≤ 59 := arrival_min hnow.min
  have hmday1 : 1 ≤ (e.arrival now).mday := arrival_mday_pos hnow.mday_pos
  have hsec : (e.arrival now).sec ≤ 60 := by
    rw [arrival_sec]
    exact hnow.sec
  obtain ⟨mday, hour, min, hdom, hhour, hmin, rfl⟩ := h
  generalize e.arrival now = p at *
  unfold domAt at hdom
  unfold hourAt at hhour
  unfold minuteAt at hmin
  constructor
  · intro hdue
    refine ⟨⟨hdue.valid.mon, hdue.month⟩, ?_, ?_, ?_, ?_⟩
    · intro hstar
      rw [if_pos hstar] at hhour
      injection hhour with hhour
      rw [hhour]
      exact ⟨hdue.valid.hour, hdue.hour⟩
    · intro hstar
      rw [if_pos hstar] at hmin
      injection hmin with hmin
      rw [hmin]
      exact hdue.minute
    · intro hstar
      rw [if_pos hstar] at hdom
      injection hdom with hdom
      have hday := hdue.day
      unfold DayMatches at hday
      dsimp only at hday
      rw [if_pos (Or.inl hstar)] at hday
      have hlen := hdue.valid.mday_le
      rw [← hdom] at hday hlen
      exact ⟨hlen, hday.1, hday.2⟩
    · intro hstar i hi
      rw [if_neg (by rw [hstar]; decide), hi] at hdom
      injection hdom with hdom
      have hlen := hdue.valid.mday_le
      have hday := hdue.day
      rw [← hdom] at hlen hday
      refine ⟨hlen, fun hdow => ?_⟩
      unfold DayMatches at hday
      dsimp only at hday
      rw [if_pos (Or.inr hdow)] at hday
      exact hday.2
  · intro hwell
    have hhourOk : hour ≤ 23
        ∧ bitTest e.bits hourField.name hour = true := by
      split at hhour
      · next hstar =>
        injection hhour with hhour
        rw [← hhour]
        exact hwell.hour hstar
      · exact (scan_some hhour).2
    have hminOk : min ≤ 59
        ∧ bitTest e.bits minuteField.name min = true := by
      split at hmin
      · next hstar =>
        injection hmin with hmin
        rw [← hmin]
        exact ⟨hmin59, hwell.minute hstar⟩
      · exact (scan_some hmin).2
    have hdayOk : 1 ≤ mday ∧ mday ≤ p.monthLength
        ∧ e.DayMatches { p with mday := mday, hour := hour, min := min } := by
      unfold DayMatches
      dsimp only
      split at hdom
      · next hstar =>
        injection hdom with hdom
        obtain ⟨hlen, hbit, hdow⟩ := hwell.starredDay hstar
        rw [← hdom, if_pos (Or.inl hstar)]
        exact ⟨hmday1, hlen, hbit, hdow⟩
      · next hstar =>
        obtain ⟨i, hi, rfl⟩ := Option.map_eq_some_iff.mp hdom
        obtain ⟨hlen, hdow⟩ :=
          hwell.scannedDay (Bool.eq_false_iff.mpr hstar) i hi
        refine ⟨Nat.le_add_left 1 i, hlen, ?_⟩
        rw [Nat.add_sub_cancel]
        split
        · next hor =>
          exact ⟨(scan_some hi).2.2, hdow (hor.resolve_left hstar)⟩
        · exact Or.inl (scan_some hi).2.2
    exact
      { valid := ⟨hsec, hminOk.1, hhourOk.1, hwell.month.1, hdayOk.1,
          hdayOk.2.1⟩
        notBefore := hpast
        minute := hminOk.2
        hour := hhourOk.2
        month := hwell.month.2
        day := hdayOk.2.2 }

end Entry

-- =========================================================== printTime

/-- **The answers of `printTime`.** What it prints for an entry that was
loaded, but not from `@reboot`, is a time at which the job is due if and
only if it prints none, or the sets of the entry hold what they must at
the place that the carries lead to. -/
theorem printTime_due_iff {fuel : Nat}
    {getpwnam : CString → Option Passwd} {file : Stream}
    {errorFunc : Bool} {pw : Option Passwd} {h : BlockHeap.Heap Block}
    {envp : Nat} {fname : String} {r : LoadResult} {e : Entry}
    (hload : loadEntry fuel getpwnam file errorFunc pw h envp fname
      = some r) (he : r.entry = some e)
    (hreboot : hasFlag e.flags whenReboot = false) {now : Tm}
    (hnow : now.Valid) :
    (∀ fuel t, nextTime fuel e now = some (.ok t) → Due e now t)
      ↔ e.PrintsNothing now ∨ e.ArrivesWell (e.arrival now) := by
  have hs := startsOver_of_loadEntry hload he hreboot
  constructor
  · intro hall
    by_cases hnothing : e.PrintsNothing now
    · exact Or.inl hnothing
    · -- the search prints, so what it prints is due
      obtain ⟨hmonth, hdom⟩ := not_or.mp hnothing
      obtain ⟨mday, hdom⟩ := Option.ne_none_iff_exists'.mp hdom
      obtain ⟨hhour, hmin⟩ := Entry.arrival_found now hs
      obtain ⟨hour, hhour⟩ := Option.ne_none_iff_exists'.mp hhour
      obtain ⟨min, hmin⟩ := Option.ne_none_iff_exists'.mp hmin
      have hshows : e.Shows (e.arrival now)
          { e.arrival now with mday := mday, hour := hour, min := min } :=
        ⟨mday, hour, min, hdom, hhour, hmin, rfl⟩
      obtain ⟨fuel, hnext⟩ := (prints_iff hs).mpr ⟨hmonth, hshows⟩
      exact Or.inr ((hshows.due_iff hnow).mp (hall fuel _ hnext))
  · intro hcond fuel t hnext
    obtain ⟨hmonth, hshows⟩ := (prints_iff hs).mp ⟨fuel, hnext⟩
    rcases hcond with hnothing | hwell
    · rcases hnothing with hfails | hnone
      · exact absurd hfails hmonth
      · obtain ⟨mday, hour, min, hdom, -⟩ := hshows
        rw [hdom] at hnone
        cases hnone
    · exact (hshows.due_iff hnow).mpr hwell

/-- A morning in January: the tenth in the year 2024, at eight. -/
def januaryMorning : Tm :=
  { sec := 0, min := 0, hour := 8, mday := 10, mon := 0, year := 124 }

theorem januaryMorning_valid : januaryMorning.Valid :=
  ⟨by decide, by decide, by decide, by decide, by decide, by decide⟩

/-- What `load_entry` returns for a system crontab of this text. -/
def loadedFrom (text : String) : Option Entry :=
  (loadEntry 1 rootOnly (Stream.ofBytes (bytes text)) false none freshHeap 0
    "crontab").bind (·.entry)

/-- What `printTime` looks at in the job for every noon, on that
morning: the carries lead nowhere, and the day is starred. -/
structure Noon (e : Entry) : Prop where
  reboot : hasFlag e.flags whenReboot = false
  scannedMinute : hasFlag e.flags minStar = false
  scannedHour : hasFlag e.flags hrStar = false
  starredDay : hasFlag e.flags domStar = true
  months : ∀ i ≤ 11, bitTest e.bits monthField.name i = true
  dom : bitTest e.bits domField.name 9 = true
  dow : bitTest e.bits dowField.name 3 = true
  arrival : e.arrival januaryMorning = januaryMorning
  hour : e.hourAt 8 = some 12
  minute : e.minuteAt 0 = some 0

theorem noon_loaded :
    ∃ e, loadedFrom "0 12 * * * root true\n" = some e ∧ Noon e := by
  have hloaded : ∃ e, e ∈ loadedFrom "0 12 * * * root true\n"
      ∧ hasFlag e.flags whenReboot = false
      ∧ hasFlag e.flags minStar = false ∧ hasFlag e.flags hrStar = false
      ∧ hasFlag e.flags domStar = true
      ∧ (∀ i ≤ 11, bitTest e.bits monthField.name i = true)
      ∧ bitTest e.bits domField.name 9 = true
      ∧ bitTest e.bits dowField.name 3 = true
      ∧ e.arrival januaryMorning = januaryMorning
      ∧ e.hourAt 8 = some 12 ∧ e.minuteAt 0 = some 0 := by
    decide +kernel
  obtain ⟨e, he, h1, h2, h3, h4, h5, h6, h7, h8, h9, h10⟩ := hloaded
  exact ⟨e, he, h1, h2, h3, h4, h5, h6, h7, h8, h9, h10⟩

theorem Noon.arrivesWell {e : Entry} (h : Noon e) :
    e.ArrivesWell januaryMorning where
  month := ⟨by decide, h.months 0 (by decide)⟩
  hour := fun hstar => by
    rw [h.scannedHour] at hstar
    cases hstar
  minute := fun hstar => by
    rw [h.scannedMinute] at hstar
    cases hstar
  starredDay := fun _ => ⟨by decide, h.dom, h.dow⟩
  scannedDay := fun hstar => by
    rw [h.starredDay] at hstar
    cases hstar

/-- Asked for in January, the job for every noon is announced for a time
at which it is due. -/
theorem noon_due :
    ∃ e, loadedFrom "0 12 * * * root true\n" = some e
      ∧ ∀ fuel t, nextTime fuel e januaryMorning = some (.ok t) →
        Due e januaryMorning t := by
  obtain ⟨e, he, hnoon⟩ := noon_loaded
  obtain ⟨r, hr, hre⟩ := Option.bind_eq_some_iff.mp he
  have hwell : e.ArrivesWell (e.arrival januaryMorning) := by
    rw [hnoon.arrival]
    exact hnoon.arrivesWell
  exact ⟨e, he, (printTime_due_iff hr hre hnoon.reboot
    januaryMorning_valid).mpr (Or.inr hwell)⟩

/-- A job for June is announced for January: the search finds the month
and stays in the one it was in. -/
theorem june_announced_in_january :
    ¬ (∀ e, loadedFrom "0 12 * 6 * root true\n" = some e →
      ∀ fuel t, nextTime fuel e januaryMorning = some (.ok t) →
        Due e januaryMorning t) := by
  intro hall
  have hprinted : (loadedFrom "0 12 * 6 * root true\n").map
      (fun e => ((nextTime 1 e januaryMorning).bind Except.toOption).map
        fun t => bitTest e.bits monthField.name t.mon)
      = some (some false) := by
    decide +kernel
  obtain ⟨e, he, hprints⟩ := Option.map_eq_some_iff.mp hprinted
  obtain ⟨t, ht, hmonth⟩ := Option.map_eq_some_iff.mp hprints
  obtain ⟨res, hnext, hres⟩ := Option.bind_eq_some_iff.mp ht
  cases res with
  | error msg => cases hres
  | ok t' =>
      injection hres with hres
      rw [hres] at hnext
      have hdue := (hall e he 1 t hnext).month
      rw [hdue] at hmonth
      cases hmonth

end Tinjac
