/-
When the search of `printTime` stops.

The source puts no bound on the jumps back to `restartm`. Whether they
end is a question about the entry: there must be a day for the scan that
starts over at the first of a month (`Entry.FindsDay`), and a month for
the one that starts over at a new year, or one where the carries leave
the search (`Entry.FindsMonth`). Then the search prints
(`printsNothing_iff`).

Otherwise it runs on for ever, or gives up. Of the four tests that give
up only the one of the day can succeed, and only if the months go one
behind December, as those of the nicknames do (`comes_error`). Then the
first of February is still to come (`Entry.Monthly.due`): a search that
gives up is wrong to.
-/
import Tinjac.Proofs.Alike
import Tinjac.Proofs.Due

namespace Tinjac

open BlockHeap CHeap

-- =============================================== months and days found

namespace Entry

variable {e : Entry} {now : Tm}

/-- A day behind the first of a month is set, or the day is starred. -/
def FindsDay (e : Entry) : Prop :=
  hasFlag e.flags domStar = true
    ∨ ∃ i, 1 ≤ i ∧ i ≤ 31 ∧ bitTest e.bits domField.name i = true

/-- Minute, hour and day are found from `now` on without a carry, so the
first pass is led nowhere else. -/
def FindsNow (e : Entry) (now : Tm) : Prop :=
  e.minuteAt now.min ≠ none ∧ e.hourAt now.hour ≠ none
    ∧ e.domAt now.mday ≠ none

/-- A month behind January is set; or the month is starred, and nothing
is carried; or January is set, it is January, and a day is left in it. -/
def FindsMonth (e : Entry) (now : Tm) : Prop :=
  (∃ i, 1 ≤ i ∧ i ≤ 12 ∧ bitTest e.bits monthField.name i = true)
    ∨ (hasFlag e.flags monStar = true ∧ e.FindsNow now)
    ∨ (bitTest e.bits monthField.name 0 = true ∧ now.mon = 0
      ∧ e.domAt (e.carryDay now).mday ≠ none)

theorem findsDay_iff : e.FindsDay ↔ e.domAt 1 ≠ none := by
  unfold FindsDay domAt
  by_cases hstar : hasFlag e.flags domStar = true
  · rw [if_pos hstar]
    exact iff_of_true (Or.inl hstar) (Option.some_ne_none _)
  · rw [if_neg hstar, ne_eq, Option.map_eq_none_iff, scan_eq_none]
    constructor
    · intro hfinds hnone
      obtain ⟨i, hi, hlast, hset⟩ := hfinds.resolve_left hstar
      rw [hnone i hi hlast] at hset
      cases hset
    · intro hsome
      refine Or.inr ?_
      by_contra hno
      refine hsome fun i hi hlast => ?_
      rw [← Bool.not_eq_true]
      exact fun hset => hno ⟨i, hi, hlast, hset⟩

/-- Where a month scan fails. -/
theorem not_monthFails_iff {first : Bool} {mon : Nat} :
    ¬ e.MonthFails first mon
      ↔ (first = true ∧ hasFlag e.flags monStar = true)
        ∨ ∃ i, mon ≤ i ∧ i ≤ 12
          ∧ bitTest e.bits monthField.name i = true := by
  unfold MonthFails
  rw [scan_eq_none]
  constructor
  · intro hfound
    by_cases hstar : first = true ∧ hasFlag e.flags monStar = true
    · exact Or.inl hstar
    · refine Or.inr ?_
      by_contra hno
      refine hfound ⟨hstar, fun i hi hlast => ?_⟩
      rw [← Bool.not_eq_true]
      exact fun hset => hno ⟨i, hi, hlast, hset⟩
  · intro hfound ⟨hstar, hnone⟩
    obtain ⟨i, hi, hlast, hset⟩ := hfound.resolve_left hstar
    rw [hnone i hi hlast] at hset
    cases hset

theorem carryMonth_eq_now : e.carryMonth now = now ↔ e.FindsNow now := by
  constructor
  · intro hcarry
    have hday : e.carryDay now = now := by
      by_contra hne
      exact carryMonth_ne hne hcarry
    have hhour : e.carryHour now = now := by
      by_contra hne
      exact carryDay_ne hne hday
    refine ⟨?_, ?_, ?_⟩
    · intro hnone
      unfold carryHour at hhour
      rw [if_pos hnone] at hhour
      exact nextHour_ne hhour
    · intro hnone
      unfold carryDay at hday
      rw [hhour, if_pos hnone] at hday
      exact nextDay_ne hday
    · intro hnone
      unfold carryMonth at hcarry
      rw [hday, if_pos hnone] at hcarry
      exact nextMonth_ne hcarry
  · intro ⟨hmin, hhour, hdom⟩
    have hcarryHour : e.carryHour now = now :=
      carryHour_of_some hmin
    have hcarryDay : e.carryDay now = now := by
      unfold carryDay
      rw [hcarryHour, if_neg hhour]
    unfold carryMonth
    rw [hcarryDay, if_neg hdom]

/-- The carries leave it January. -/
theorem carryMonth_january : (e.carryMonth now).mon = 0
    ↔ now.mon = 0 ∧ e.domAt (e.carryDay now).mday ≠ none := by
  unfold carryMonth
  split
  · next hnone =>
    refine iff_of_false ?_ (fun h => h.2 hnone)
    exact Nat.succ_ne_zero _
  · next hsome =>
    rw [carryDay_mon]
    exact (and_iff_left hsome).symm

/-- A month is found where the carries lead. -/
theorem findsMonth_iff :
    e.FindsMonth now
      ↔ ¬ e.MonthFails (decide (e.arrival now = now)) (e.arrival now).mon := by
  unfold arrival
  by_cases hfails : e.MonthFails (decide (e.carryMonth now = now))
      (e.carryMonth now).mon
  · rw [if_pos hfails, decide_eq_false newYear_ne, not_monthFails_iff]
    have hno := mt not_monthFails_iff.mpr (not_not.mpr hfails)
    constructor
    · intro hfinds
      rcases hfinds with hset | ⟨hstar, hnow⟩ | ⟨hset, hjanuary⟩
      · exact Or.inr hset
      · have hcarry := decide_eq_true (carryMonth_eq_now.mpr hnow)
        exact absurd (Or.inl ⟨hcarry, hstar⟩) hno
      · have hmon := carryMonth_january.mpr hjanuary
        exact absurd (Or.inr ⟨0, Nat.le_of_eq hmon, Nat.zero_le _, hset⟩) hno
    · intro hfound
      rcases hfound with ⟨hfirst, -⟩ | hset
      · cases hfirst
      · exact Or.inl hset
  · rw [if_neg hfails]
    refine iff_of_true ?_ hfails
    rcases not_monthFails_iff.mp hfails with ⟨hcarry, hstar⟩ | hset
    · have hnow := carryMonth_eq_now.mp (of_decide_eq_true hcarry)
      exact Or.inr (Or.inl ⟨hstar, hnow⟩)
    · obtain ⟨i, hi, hlast, hset⟩ := hset
      cases i with
      | zero =>
          have hmon : (e.carryMonth now).mon = 0 := Nat.le_zero.mp hi
          exact Or.inr (Or.inr ⟨hset, carryMonth_january.mp hmon⟩)
      | succ i => exact Or.inl ⟨i + 1, Nat.le_add_left 1 i, hlast, hset⟩

/-- **What the search needs** to print. -/
theorem printsNothing_iff (hmday : 1 ≤ now.mday) :
    e.PrintsNothing now ↔ ¬ (e.FindsDay ∧ e.FindsMonth now) := by
  unfold PrintsNothing
  rw [findsDay_iff, findsMonth_iff]
  constructor
  · intro hnothing ⟨hday, hmonth⟩
    rcases hnothing with hfails | hnone
    · exact hmonth hfails
    · rw [arrival_mday hnone] at hnone
      exact hday hnone
  · intro hno
    by_cases hmonth : e.MonthFails (decide (e.arrival now = now))
        (e.arrival now).mon
    · exact Or.inl hmonth
    · refine Or.inr ?_
      by_contra hsome
      refine hno ⟨fun hnone => hsome ?_, hmonth⟩
      exact domAt_later hnone (arrival_mday_pos hmday)

theorem prints_of_finds (hs : e.StartsOver) (hmday : 1 ≤ now.mday)
    (hfinds : e.FindsDay ∧ e.FindsMonth now) :
    ∃ t, Computes e now (.ok t) := by
  have hprints : ¬ e.PrintsNothing now := by
    rw [printsNothing_iff hmday]
    exact not_not.mpr hfinds
  obtain ⟨hmonth, hdom⟩ := not_or.mp hprints
  obtain ⟨mday, hdom⟩ := Option.ne_none_iff_exists'.mp hdom
  obtain ⟨hhour, hmin⟩ := arrival_found now hs
  obtain ⟨hour, hhour⟩ := Option.ne_none_iff_exists'.mp hhour
  obtain ⟨min, hmin⟩ := Option.ne_none_iff_exists'.mp hmin
  exact ⟨_, (prints_iff hs).mpr
    ⟨hmonth, mday, hour, min, hdom, hhour, hmin, rfl⟩⟩

theorem finds_of_prints (hs : e.StartsOver) (hmday : 1 ≤ now.mday) {t : Tm}
    (hprints : Computes e now (.ok t)) : e.FindsDay ∧ e.FindsMonth now := by
  obtain ⟨hmonth, mday, hour, min, hdom, -⟩ := (prints_iff hs).mp hprints
  by_contra hno
  rcases (printsNothing_iff hmday).mpr hno with hfails | hnone
  · exact hmonth hfails
  · rw [hdom] at hnone
    cases hnone

end Entry

-- =========================================================== giving up

section

variable {e : Entry} {start now t : Tm}

/-- The day gives up in January only, and only if the months go one
behind December. -/
theorem comes_error {first : Bool} {msg : String}
    (hfirst : first = true → now.mon ≤ start.mon)
    (h : Comes e start first now (.error msg)) :
    start.mon = 0 ∧ bitTest e.bits monthField.name 12 = true := by
  obtain ⟨fuel, hwalk⟩ := h
  induction fuel generalizing first now with
  | zero => cases hwalk
  | succ fuel ih =>
      rw [walk] at hwalk
      split at hwalk
      · exact ih (by intro h; cases h) hwalk
      · next hmonth =>
        split at hwalk
        · split at hwalk
          · next hgive =>
            rcases Entry.not_monthFails_iff.mp hmonth with ⟨hf, -⟩ | hset
            · have hmon := hfirst hf
              omega
            · obtain ⟨i, hi, hlast, hset⟩ := hset
              obtain rfl : i = 12 := by omega
              exact ⟨by omega, hset⟩
          · exact ih (by intro h; cases h) hwalk
        · exact ih (by intro h; cases h) hwalk
        · exact ih (by intro h; cases h) hwalk
        · cases hwalk

/-- A month scan that always fails is made for ever. -/
theorem not_comes_of_noMonth (hmonth : ∀ first mon, e.MonthFails first mon)
    {first : Bool} (res : Except String Tm) :
    ¬ Comes e start first now res := by
  intro ⟨fuel, hwalk⟩
  induction fuel generalizing first now with
  | zero => cases hwalk
  | succ fuel ih =>
      rw [walk, if_pos (hmonth _ _)] at hwalk
      exact ih hwalk

/-- Without a bit behind December the search stops iff it prints. -/
theorem stops_iff_finds (hs : e.StartsOver)
    (hbehind : bitTest e.bits monthField.name 12 = false)
    (hmday : 1 ≤ now.mday) :
    (∃ res, Computes e now res) ↔ e.FindsDay ∧ e.FindsMonth now := by
  constructor
  · intro ⟨res, hres⟩
    cases res with
    | ok t => exact Entry.finds_of_prints hs hmday hres
    | error msg =>
        obtain ⟨-, hset⟩ :=
          comes_error (fun _ => Nat.le_refl _) (computes_iff_comes.mp hres)
        rw [hset] at hbehind
        cases hbehind
  · intro hfinds
    obtain ⟨t, ht⟩ := Entry.prints_of_finds hs hmday hfinds
    exact ⟨_, ht⟩

end

-- ================================================== the loaded entries

/-- The flags that `printTime` looks at. -/
def searchFlags : List Nat := [minStar, hrStar, domStar, monStar]

/-- What is known of the sets of an entry: minutes and hours are never
empty, whatever the flags, or everything is. -/
theorem loaded_startsOver_or_empty {fuel : Nat}
    {getpwnam : CString → Option Passwd} {file : Stream}
    {errorFunc : Bool} {pw : Option Passwd} {h : CHeap} {envp : Nat}
    {fname : String} {r : LoadResult} {e : Entry}
    (hload : loadEntry fuel getpwnam file errorFunc pw h envp fname
      = some r) (he : r.entry = some e) :
    (∀ e' : Entry, e'.bits = e.bits → e'.StartsOver)
      ∨ (∀ p, e.bits.bit p = false)
        ∧ ∀ flag ∈ searchFlags, hasFlag e.flags flag = false := by
  obtain ⟨b, horigin, hbits⟩ := loadEntry_origin hload he
  rcases horigin with ⟨w, flags, hflags, hnick⟩ | hfields
  · by_cases hreboot : w = bytes "reboot"
    · refine Or.inr ?_
      rw [hreboot] at hnick
      injection hnick with hnick
      injection hnick with hb hfl
      refine ⟨fun p => ?_, ?_⟩
      · rw [hbits, ← hb]
        exact Bitmaps.bit_zero p
      · rw [← hfl]
        rcases hflags with rfl | rfl
        · decide
        · decide
    · refine Or.inl fun e' he' => ?_
      exact nickname_startsOver hnick hreboot (he'.trans hbits)
  · exact Or.inl fun e' he' => hfields.startsOver (he'.trans hbits)

/-- The sets and flags of `@monthly`, as far as a search that gives up
and the first of February go. -/
structure Entry.Monthly (e : Entry) : Prop where
  minute : bitTest e.bits minuteField.name 0 = true
  hour : bitTest e.bits hourField.name 0 = true
  month : bitTest e.bits monthField.name 1 = true
  dom : bitTest e.bits domField.name 0 = true
  dow : ∀ i < 7, bitTest e.bits dowField.name i = true
  flags : ∀ flag ∈ searchFlags, hasFlag e.flags flag = false

/-- Among the nicknames that set the bit behind December, only `@monthly`
sets no day behind the first. -/
theorem nickname_behind : ∀ w ∈ nicknames, ∀ flags ∈ [0, dontLog],
    (setNickname w .zero flags).all (fun r =>
      !bitTest (foldSundays r.1) monthField.name 12
        || bitTest (foldSundays r.1) domField.name 1
        || bitTest (foldSundays r.1) minuteField.name 0
          && bitTest (foldSundays r.1) hourField.name 0
          && bitTest (foldSundays r.1) monthField.name 1
          && bitTest (foldSundays r.1) domField.name 0
          && (List.range 7).all (bitTest (foldSundays r.1) dowField.name)
          && searchFlags.all (fun flag => !hasFlag r.2 flag))
      = true := by
  decide +kernel

theorem loaded_monthly {fuel : Nat}
    {getpwnam : CString → Option Passwd} {file : Stream}
    {errorFunc : Bool} {pw : Option Passwd} {h : CHeap} {envp : Nat}
    {fname : String} {r : LoadResult} {e : Entry}
    (hload : loadEntry fuel getpwnam file errorFunc pw h envp fname
      = some r) (he : r.entry = some e)
    (hbehind : bitTest e.bits monthField.name 12 = true)
    (hday : ¬ e.FindsDay) : e.Monthly := by
  obtain ⟨b, horigin, hbits⟩ := loadEntry_origin hload he
  rcases horigin with ⟨w, flags, hflags, hnick⟩ | hfields
  · have hknown : w ∈ nicknames :=
      setNickname_isSome.mp (Option.isSome_iff_exists.mpr ⟨_, hnick⟩)
    have hsets := nickname_behind w hknown flags (by simpa using hflags)
    have hno : bitTest e.bits domField.name 1 = false := by
      rw [← Bool.not_eq_true]
      exact fun hset => hday (Or.inr ⟨1, by decide, by decide, hset⟩)
    rw [hnick, Option.all_some, ← hbits, hbehind, hno] at hsets
    simp only [Bool.not_true, Bool.or_self, Bool.false_or,
      Bool.and_eq_true, List.all_eq_true, List.mem_range,
      Bool.not_eq_true'] at hsets
    obtain ⟨⟨⟨⟨⟨hmin, hhour⟩, hmonth⟩, hdom⟩, hdow⟩, hstars⟩ := hsets
    exact ⟨hmin, hhour, hmonth, hdom, hdow, hstars⟩
  · have hout : (foldSundays b).bit (8 * monthField.name + 12) = false :=
      hfields.bit_outside (by decide)
    rw [hbits, bitTest_eq, hout] at hbehind
    cases hbehind

/-- The first of February of the same year, at midnight. -/
def Tm.february (t : Tm) : Tm :=
  { sec := 0, min := 0, hour := 0, mday := 1, mon := 1, year := t.year }

/-- In January it is still to come. -/
theorem Entry.Monthly.due {e : Entry} (h : e.Monthly) {now : Tm}
    (hjanuary : now.mon = 0) : Due e now now.february := by
  have hdow : bitTest e.bits dowField.name now.february.wday = true := by
    refine h.dow _ ?_
    unfold Tm.wday Gregorian.weekday
    omega
  have hlen : 1 ≤ now.february.monthLength := by
    show 1 ≤ if Gregorian.isLeap now.february.calendarYear then 29 else 28
    split
    · decide
    · decide
  refine
    { valid := ⟨Nat.zero_le _, Nat.zero_le _, Nat.zero_le _,
        Nat.le_add_left 1 10, Nat.le_refl 1, hlen⟩
      notBefore := Or.inr ⟨rfl, Or.inl ?_⟩
      minute := h.minute
      hour := h.hour
      month := h.month
      day := ?_ }
  · rw [hjanuary]
    exact Nat.zero_lt_one
  · unfold Entry.DayMatches
    dsimp only
    split
    · exact ⟨h.dom, hdow⟩
    · exact Or.inl h.dom

/-- Empty sets are searched for ever. -/
theorem empty_runs_on {e : Entry} {now : Tm}
    (hempty : ∀ p, e.bits.bit p = false)
    (hstars : ∀ flag ∈ searchFlags, hasFlag e.flags flag = false) :
    ¬ e.FindsDay ∧ ∀ res, ¬ Computes e now res := by
  have hbit : ∀ (f : Field) i, bitTest e.bits f.name i = false := by
    intro f i
    rw [bitTest_eq]
    exact hempty _
  refine ⟨?_, fun res => ?_⟩
  · intro hgiven
    rcases hgiven with hstar | ⟨i, -, -, hset⟩
    · rw [hstars domStar (by simp [searchFlags])] at hstar
      cases hstar
    · rw [hbit domField] at hset
      cases hset
  · rw [computes_iff_comes]
    apply not_comes_of_noMonth
    intro first mon
    refine ⟨?_, scan_eq_none.mpr fun i _ _ => hbit monthField i⟩
    rw [hstars monStar (by simp [searchFlags])]
    exact fun h => Bool.noConfusion h.2

-- ====================================================== what it throws

namespace Entry

variable {e : Entry} {now p t : Tm} {ptimeThrows : Tm → Bool}

/-- `ptime_from_tm` throws on the day, hour and minute that the scans
choose from a place. -/
def ThrowsAt (ptimeThrows : Tm → Bool) (e : Entry) (p : Tm) : Prop :=
  ∃ t, e.Shows p t ∧ ptimeThrows t = true

/-- The scans choose one time. -/
theorem Shows.unique {t' : Tm} (h : e.Shows p t) (h' : e.Shows p t') :
    t = t' := by
  obtain ⟨mday, hour, min, hdom, hhour, hmin, rfl⟩ := h
  obtain ⟨mday', hour', min', hdom', hhour', hmin', rfl⟩ := h'
  rw [hdom] at hdom'
  rw [hhour] at hhour'
  rw [hmin] at hmin'
  injection hdom' with hdom'
  injection hhour' with hhour'
  injection hmin' with hmin'
  rw [hdom', hhour', hmin']

theorem Shows.throwsAt_iff (h : e.Shows p t) :
    e.ThrowsAt ptimeThrows p ↔ ptimeThrows t = true := by
  constructor
  · intro ⟨t', h', hthrows⟩
    rw [h.unique h']
    exact hthrows
  · intro hthrows
    exact ⟨t, h, hthrows⟩

end Entry

-- ========================================================= the theorem

/-- The call ends and returns, without an exception: it has printed a
time, or it has given up. And if it gives up then nothing is due any
more. -/
structure StopsWell (ptimeThrows : Tm → Bool) (e : Entry) (now : Tm) :
    Prop where
  returns : ∃ r, Prints ptimeThrows now e r ∧ r.2 = .returned
    ∧ ((∃ t, Line.time t ∈ r.1) ∨ ∃ msg, Line.elog msg ∈ r.1)
  givesUp : ∀ r msg, Prints ptimeThrows now e r → Line.elog msg ∈ r.1 →
    ∀ t, ¬ Due e now t

section

variable {e : Entry} {now t : Tm} {ptimeThrows : Tm → Bool}

/-- Only a search that gives up logs. -/
theorem error_of_elog {res : Except String Tm} {msg : String}
    (h : Line.elog msg ∈ (printResult ptimeThrows now e res).1) :
    res = .error msg := by
  have hrows : Line.elog msg ∉ printRows e ++ [.now now] := by
    simp [printRows, printRow]
  unfold printResult at h
  split at h
  · next msg' =>
    rw [List.mem_append, List.mem_singleton] at h
    injection h.resolve_left hrows with hmsg
    rw [hmsg]
  · split at h
    · exact absurd h hrows
    · rw [List.mem_append, List.mem_singleton] at h
      cases h.resolve_left hrows

/-- A call that returns has not thrown. -/
theorem not_throws_of_returned
    (h : (printResult ptimeThrows now e (.ok t)).2 = .returned) :
    ptimeThrows t = false := by
  rw [← Bool.not_eq_true]
  intro hthrows
  unfold printResult at h
  dsimp only at h
  rw [if_pos hthrows] at h
  cases h

/-- It stops well if the search finds a time that is printed. -/
theorem stopsWell_of_prints (h : Computes e now (.ok t))
    (hthrows : ptimeThrows t = false) : StopsWell ptimeThrows e now := by
  have hresult : printResult ptimeThrows now e (.ok t)
      = (printRows e ++ [.now now] ++ [.time t], .returned) := by
    unfold printResult
    dsimp only
    rw [if_neg (by rw [hthrows]; exact Bool.false_ne_true)]
  refine ⟨⟨_, prints_iff_computes.mpr ⟨_, h, rfl⟩, ?_, ?_⟩, ?_⟩
  · rw [hresult]
  · rw [hresult]
    exact Or.inl ⟨t, List.mem_append_right _ (List.mem_singleton_self _)⟩
  · intro r msg hprints hlog
    obtain ⟨res, hres, hr⟩ := prints_iff_computes.mp hprints
    rw [hr] at hlog
    rw [error_of_elog hlog] at hres
    cases h.unique hres

end

/-- **When `printTime` stops.** It prints a time and returns, or gives up
where nothing is due, if and only if there is a day and a month for the
search to find and `ptime_from_tm` does not throw on what is found. -/
theorem stopsWell_iff {fuel : Nat}
    {getpwnam : CString → Option Passwd} {file : Stream}
    {errorFunc : Bool} {pw : Option Passwd} {h : CHeap} {envp : Nat}
    {fname : String} {r : LoadResult} {e : Entry}
    (hload : loadEntry fuel getpwnam file errorFunc pw h envp fname
      = some r) (he : r.entry = some e) {now : Tm} (hnow : now.Valid)
    (ptimeThrows : Tm → Bool) :
    StopsWell ptimeThrows e now
      ↔ e.FindsDay ∧ e.FindsMonth now
        ∧ ¬ e.ThrowsAt ptimeThrows (e.arrival now) := by
  rcases loaded_startsOver_or_empty hload he with hs | ⟨hempty, hstars⟩
  · have hs := hs e rfl
    constructor
    · intro hwell
      obtain ⟨r, hprints, hend, -⟩ := hwell.returns
      obtain ⟨res, hres, hr⟩ := prints_iff_computes.mp hprints
      rw [hr] at hend
      cases res with
      | ok t =>
          obtain ⟨hday, hmonth⟩ := Entry.finds_of_prints hs hnow.mday_pos hres
          refine ⟨hday, hmonth, ?_⟩
          rw [((prints_iff hs).mp hres).2.throwsAt_iff,
            not_throws_of_returned hend]
          exact Bool.false_ne_true
      | error msg =>
          -- it has given up, so the first of February is still to come
          obtain ⟨hjanuary, hbehind⟩ :=
            comes_error (fun _ => Nat.le_refl _) (computes_iff_comes.mp hres)
          have hlog : Line.elog msg ∈ r.1 := by
            rw [hr]
            exact List.mem_append_right _ (List.mem_singleton_self _)
          have hnever := hwell.givesUp r msg hprints hlog
          have hday : e.FindsDay := by
            by_contra hday
            have hmonthly := loaded_monthly hload he hbehind hday
            exact hnever _ (hmonthly.due hjanuary)
          have hmonth : e.FindsMonth now :=
            Or.inl ⟨12, by decide, by decide, hbehind⟩
          obtain ⟨t, ht⟩ :=
            Entry.prints_of_finds hs hnow.mday_pos ⟨hday, hmonth⟩
          cases ht.unique hres
    · intro ⟨hday, hmonth, hthrows⟩
      obtain ⟨t, ht⟩ := Entry.prints_of_finds hs hnow.mday_pos ⟨hday, hmonth⟩
      rw [((prints_iff hs).mp ht).2.throwsAt_iff, Bool.not_eq_true]
        at hthrows
      exact stopsWell_of_prints ht hthrows
  · -- `@reboot`
    obtain ⟨hday, hnever⟩ := empty_runs_on hempty hstars
    refine iff_of_false ?_ (fun h => hday h.1)
    intro hwell
    obtain ⟨r, hprints, -⟩ := hwell.returns
    obtain ⟨res, hres, -⟩ := prints_iff_computes.mp hprints
    exact hnever res hres

/-- The scans choose this noon. -/
theorem Noon.shows {e : Entry} (h : Noon e) :
    e.Shows januaryMorning { januaryMorning with hour := 12 } := by
  refine ⟨10, 12, 0, ?_, h.hour, h.minute, rfl⟩
  unfold Entry.domAt
  rw [if_pos h.starredDay]
  rfl

/-- Asked for in January, the job for every noon is printed, and the call
returns. -/
theorem noon_stops :
    ∃ e, loadedFrom "0 12 * * * root true\n" = some e
      ∧ StopsWell Tm.offCalendar e januaryMorning := by
  obtain ⟨e, he, hnoon⟩ := noon_loaded
  obtain ⟨r, hr, hre⟩ := Option.bind_eq_some_iff.mp he
  have hday : e.FindsDay := Or.inl hnoon.starredDay
  have hmonth : e.FindsMonth januaryMorning :=
    Or.inl ⟨1, Nat.le_refl 1, by decide, hnoon.months 1 (by decide)⟩
  have hthrows :
      ¬ e.ThrowsAt Tm.offCalendar (e.arrival januaryMorning) := by
    rw [hnoon.arrival, hnoon.shows.throwsAt_iff]
    decide
  exact ⟨e, he, (stopsWell_iff hr hre januaryMorning_valid
    Tm.offCalendar).mpr ⟨hday, hmonth, hthrows⟩⟩

/-- A morning in February: the tenth in the year 2024, at eight. -/
def februaryMorning : Tm := { januaryMorning with mon := 1 }

/-- The search for the first of a month runs on for ever, and a job for
the thirtieth of February ends with an exception. -/
theorem first_of_month_runs_on :
    ¬ (∀ e, loadedFrom "0 0 1 * * root true\n" = some e →
        StopsWell Tm.offCalendar e januaryMorning)
      ∧ ¬ (∀ e, loadedFrom "0 0 30 2 * root true\n" = some e →
        StopsWell Tm.offCalendar e februaryMorning) := by
  constructor
  · intro hall
    have hloaded : ∃ e, e ∈ loadedFrom "0 0 1 * * root true\n"
        ∧ hasFlag e.flags whenReboot = false
        ∧ bitTest e.bits monthField.name 12 = false
        ∧ e.domAt 1 = none := by
      decide +kernel
    obtain ⟨e, he, hreboot, hbehind, hdom⟩ := hloaded
    obtain ⟨r, hr, hre⟩ := Option.bind_eq_some_iff.mp he
    have hs := startsOver_of_loadEntry hr hre hreboot
    obtain ⟨out, hprints, -⟩ := (hall e he).returns
    obtain ⟨res, hres, -⟩ := prints_iff_computes.mp hprints
    have hfinds :=
      (stops_iff_finds hs hbehind (by decide)).mp ⟨res, hres⟩
    exact Entry.findsDay_iff.mp hfinds.1 hdom
  · intro hall
    have hloaded : ∃ e, e ∈ loadedFrom "0 0 30 2 * root true\n"
        ∧ nextTime 2 e februaryMorning = some (.ok
          { sec := 0, min := 0, hour := 0, mday := 30, mon := 1,
            year := 124 }) := by
      decide +kernel
    obtain ⟨e, he, hnext⟩ := hloaded
    obtain ⟨out, hprints, hend, -⟩ := (hall e he).returns
    obtain ⟨res, hres, hout⟩ := prints_iff_computes.mp hprints
    rw [hres.unique ⟨2, hnext⟩] at hout
    rw [hout] at hend
    exact absurd (not_throws_of_returned hend) (by decide)

end Tinjac
