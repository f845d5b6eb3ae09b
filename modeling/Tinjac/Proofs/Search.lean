/-
Where the search of `printTime` arrives.

# The walk

Every pass that jumps back carries: from the minute into the hour, from
the hour into the day, from the day into the month, or it starts a new
year at what it takes for the first month. `walk` is the search with the
carries made explicit and with `tm_then` reduced to its year, which is
all of it that outlives a pass (`search_eq_walk`). Of the four tests
that give up only the one of the day can ever succeed.

# The arrival

A scan that fails from one place fails from every later one, and a scan
that starts over cannot fail when the set is not empty. So each of the
four carries happens at most once before the search prints or runs on
for ever, and the place from which all four scans succeed can be read
off `now` (`Entry.arrival`, `leads_arrival`): what is printed is what the
scans find there (`prints_iff`).
-/
import Tinjac.Model.PrintTime

namespace Tinjac

-- ============================================================ scanning

/-- A scan fails if no bit from `first` to `last` is set. -/
theorem scan_eq_none {bits : Bitmaps} {f : Field} {first last : Nat} :
    scan bits f first last = none
      ↔ ∀ i, first ≤ i → i ≤ last → bitTest bits f.name i = false := by
  unfold scan
  rw [List.find?_eq_none]
  constructor
  · intro h i hfirst hlast
    rw [← Bool.not_eq_true]
    exact h i (List.mem_range'_1.mpr ⟨hfirst, by omega⟩)
  · intro h i hi
    obtain ⟨hfirst, hlast⟩ := List.mem_range'_1.mp hi
    rw [h i hfirst (by omega)]
    decide

/-- What a scan finds is set. -/
theorem scan_some {bits : Bitmaps} {f : Field} {first last i : Nat}
    (h : scan bits f first last = some i) :
    first ≤ i ∧ i ≤ last ∧ bitTest bits f.name i = true := by
  unfold scan at h
  obtain ⟨hfirst, hlast⟩ := List.mem_range'_1.mp (List.mem_of_find?_eq_some h)
  exact ⟨hfirst, by omega, List.find?_some h⟩

/-- A scan that fails, fails from every later place. -/
theorem scan_none_later {bits : Bitmaps} {f : Field}
    {first first' last : Nat} (h : scan bits f first last = none)
    (hle : first ≤ first') : scan bits f first' last = none := by
  rw [scan_eq_none] at h ⊢
  exact fun i hi hlast => h i (Nat.le_trans hle hi) hlast

-- ============================================================ carrying

namespace Tm

/-- The first month, as the search sees it. -/
def newYear (t : Tm) : Tm :=
  { t with mon := 1, mday := 1, hour := 0, min := 0, year := t.year + 1 }

/-- The first minute of the next month. There may be no such month: the
fields only count on. -/
def nextMonth (t : Tm) : Tm :=
  { t with mon := t.mon + 1, mday := 1, hour := 0, min := 0 }

/-- The first minute of the next day. -/
def nextDay (t : Tm) : Tm :=
  { t with mday := t.mday + 1, hour := 0, min := 0 }

/-- The first minute of the next hour. -/
def nextHour (t : Tm) : Tm := { t with hour := t.hour + 1, min := 0 }

end Tm

namespace Entry

/-- The month scan fails from this month on: there is no month in the set,
and the star that would skip the scan is not there or does not count. -/
def MonthFails (e : Entry) (first : Bool) (mon : Nat) : Prop :=
  ¬ (first = true ∧ hasFlag e.flags monStar = true)
    ∧ scan e.bits monthField mon 12 = none

instance (e : Entry) (first : Bool) (mon : Nat) :
    Decidable (e.MonthFails first mon) :=
  inferInstanceAs (Decidable (_ ∧ _))

/-- What the scans choose, standing at a day, an hour, a minute. -/
def domAt (e : Entry) (mday : Nat) : Option Nat :=
  if hasFlag e.flags domStar then some mday
  else (scan e.bits domField mday 31).map (· + 1)

/-- What the scan of the hours finds from an hour on. -/
def hourAt (e : Entry) (hour : Nat) : Option Nat :=
  if hasFlag e.flags hrStar then some hour
  else scan e.bits hourField hour 23

/-- What the scan of the minutes finds from a minute on. -/
def minuteAt (e : Entry) (min : Nat) : Option Nat :=
  if hasFlag e.flags minStar then some min
  else scan e.bits minuteField min 59

/-- If there is no month from one on then there is none from a later one
on. -/
theorem MonthFails.later {e : Entry} {first : Bool} {mon mon' : Nat}
    (h : e.MonthFails first mon) (hle : mon ≤ mon') :
    e.MonthFails false mon' := by
  refine ⟨?_, scan_none_later h.2 hle⟩
  intro hfirst
  exact absurd hfirst.1 (by decide)

/-- If there is no day from one on then there is none from a later one on.
-/
theorem domAt_later {e : Entry} {mday mday' : Nat}
    (h : e.domAt mday = none) (hle : mday ≤ mday') :
    e.domAt mday' = none := by
  unfold domAt at h ⊢
  split at h
  · cases h
  · next hstar =>
    rw [if_neg hstar, Option.map_eq_none_iff]
    exact scan_none_later (Option.map_eq_none_iff.mp h) hle

/-- If there is no hour from one on then there is none from a later one
on. -/
theorem hourAt_later {e : Entry} {hour hour' : Nat}
    (h : e.hourAt hour = none) (hle : hour ≤ hour') :
    e.hourAt hour' = none := by
  unfold hourAt at h ⊢
  split at h
  · cases h
  · next hstar =>
    rw [if_neg hstar]
    exact scan_none_later h hle

end Entry

-- ============================================================ the walk

/-- The message of the scan that can give up. -/
def domMsg : String := "Didn't get a valid Day of Month"

/-- The search, carry by carry, standing at `now`. The year of `now` is
the year that will be printed. -/
def walk (e : Entry) (start : Tm) :
    (fuel : Nat) → (first : Bool) → (now : Tm) → Option (Except String Tm)
  | 0, _, _ => none
  | fuel + 1, first, now =>
      if e.MonthFails first now.mon then walk e start fuel false now.newYear
      else
        match e.domAt now.mday, e.hourAt now.hour, e.minuteAt now.min with
        | none, _, _ =>
            if start.mon + 12 < now.mon + 1 then some (.error domMsg)
            else walk e start fuel false now.nextMonth
        | some _, none, _ => walk e start fuel false now.nextDay
        | some _, some _, none => walk e start fuel false now.nextHour
        | some mday, some hour, some min =>
            some (.ok { now with mday := mday, hour := hour, min := min })

/-- The scan of the months: it starts a new year or keeps the month, but
never moves to the month that it has found. -/
theorem scanMonth_eq (e : Entry) {start : Tm} (first : Bool) {s : Search}
    (hyear : s.tmNow.year = start.year) :
    scanMonth e start first s
      = if e.MonthFails first s.tmNow.mon then
          .error (.restartm
            { tmThen := { s.tmThen with year := s.tmThen.year + 1 }
              tmNow := { s.tmNow with
                mon := 1, mday := 1, hour := 0, min := 0 } })
        else
          .ok { s with tmThen := { s.tmThen with mon := s.tmNow.mon } } := by
  have hlast : bitIndex lastMonth = 12 := by decide
  unfold scanMonth
  dsimp only
  rw [hlast, hyear]
  by_cases hstar : first = true ∧ hasFlag e.flags monStar = true
  · have hno : ¬ e.MonthFails first s.tmNow.mon := fun h => h.1 hstar
    rw [if_pos hstar, if_neg hno]
  · rw [if_neg hstar]
    cases hscan : scan e.bits monthField s.tmNow.mon 12 with
    | none =>
        have hyes : e.MonthFails first s.tmNow.mon := ⟨hstar, hscan⟩
        rw [if_pos hyes, ← hyear, if_neg (by omega)]
        rfl
    | some i =>
        have hno : ¬ e.MonthFails first s.tmNow.mon := by
          intro h
          have hnone := h.2
          rw [hscan] at hnone
          cases hnone
        rw [if_neg hno]

/-- The scan of the days, and the one test of the four that can give up.
-/
theorem scanDom_eq (e : Entry) (start : Tm) (s : Search) :
    scanDom e start s
      = match e.domAt s.tmNow.mday with
        | some mday => .ok { s with tmThen := { s.tmThen with mday := mday } }
        | none =>
            if start.mon + 12 < s.tmNow.mon + 1 then .error (.giveUp domMsg)
            else .error (.restartm { s with tmNow := s.tmNow.nextMonth }) := by
  have hlast : bitIndex lastDom = 31 := by decide
  unfold scanDom Entry.domAt
  rw [hlast]
  by_cases hstar : hasFlag e.flags domStar = true
  · rw [if_pos hstar, if_pos hstar]
  · rw [if_neg hstar, if_neg hstar]
    cases scan e.bits domField s.tmNow.mday 31 with
    | none => rfl
    | some i => rfl

/-- The scan of the hours. -/
theorem scanHour_eq (e : Entry) (start : Tm) (s : Search) :
    scanHour e start s
      = match e.hourAt s.tmNow.hour with
        | some hour => .ok { s with tmThen := { s.tmThen with hour := hour } }
        | none => .error (.restartm { s with tmNow := s.tmNow.nextDay }) := by
  have hlast : bitIndex lastHour = 23 := by decide
  have hfirst : bitIndex firstHour = 0 := by decide
  unfold scanHour Entry.hourAt
  dsimp only
  rw [hlast, hfirst]
  by_cases hstar : hasFlag e.flags hrStar = true
  · rw [if_pos hstar, if_pos hstar]
  · rw [if_neg hstar, if_neg hstar]
    cases scan e.bits hourField s.tmNow.hour 23 with
    | none =>
        dsimp only
        rw [if_neg (by omega)]
        rfl
    | some i => rfl

/-- The scan of the minutes. -/
theorem scanMinute_eq (e : Entry) (start : Tm) (s : Search) :
    scanMinute e start s
      = match e.minuteAt s.tmNow.min with
        | some min => .ok { s with tmThen := { s.tmThen with min := min } }
        | none => .error (.restartm { s with tmNow := s.tmNow.nextHour }) := by
  have hlast : bitIndex lastMinute = 59 := by decide
  have hfirst : bitIndex firstMinute = 0 := by decide
  unfold scanMinute Entry.minuteAt
  dsimp only
  rw [hlast, hfirst]
  by_cases hstar : hasFlag e.flags minStar = true
  · rw [if_pos hstar, if_pos hstar]
  · rw [if_neg hstar, if_neg hstar]
    cases scan e.bits minuteField s.tmNow.min 59 with
    | none =>
        dsimp only
        rw [if_neg (by omega)]
        rfl
    | some i => rfl

/-- What `search` does with the outcome of a pass: it gives up, jumps
back, or has found its time. -/
def afterPass (e : Entry) (start : Tm) (fuel : Nat) :
    Except Jump Search → Option (Except String Tm)
  | .ok s => some (.ok s.tmThen)
  | .error (.giveUp msg) => some (.error msg)
  | .error (.restartm s) => search e start fuel false s

/-- One pass of the search, and what it does behind it. -/
theorem search_succ (e : Entry) (start : Tm) (fuel : Nat) (first : Bool)
    (s : Search) :
    search e start (fuel + 1) first s
      = afterPass e start fuel (searchPass e start first s) := rfl

/-- The search is the walk from where it stands, in the year of
`tm_then`. -/
theorem search_eq_walk (e : Entry) {start : Tm} (fuel : Nat)
    (first : Bool) {s : Search} (hyear : s.tmNow.year = start.year)
    (hsec : s.tmThen.sec = s.tmNow.sec) :
    search e start fuel first s
      = walk e start fuel first { s.tmNow with year := s.tmThen.year } := by
  induction fuel generalizing first s with
  | zero => rfl
  | succ fuel ih =>
      rw [search_succ]
      unfold walk searchPass
      rw [scanMonth_eq e first hyear]
      dsimp only
      by_cases hmonth : e.MonthFails first s.tmNow.mon
      · rw [if_pos hmonth, if_pos hmonth]
        exact ih false hyear hsec
      · rw [if_neg hmonth, if_neg hmonth]
        show afterPass e start fuel (do
          let s ← scanDom e start { s with
            tmThen := { s.tmThen with mon := s.tmNow.mon } }
          let s ← scanHour e start s
          scanMinute e start s) = _
        rw [scanDom_eq]
        dsimp only
        cases hdom : e.domAt s.tmNow.mday with
        | none =>
            dsimp only
            by_cases hgive : start.mon + 12 < s.tmNow.mon + 1
            · rw [if_pos hgive, if_pos hgive]
              rfl
            · rw [if_neg hgive, if_neg hgive]
              exact ih false hyear hsec
        | some mday =>
            show afterPass e start fuel (do
              let s ← scanHour e start { s with
                tmThen := { s.tmThen with
                  mon := s.tmNow.mon, mday := mday } }
              scanMinute e start s) = _
            rw [scanHour_eq]
            dsimp only
            cases hhour : e.hourAt s.tmNow.hour with
            | none => exact ih false hyear hsec
            | some hour =>
                show afterPass e start fuel (scanMinute e start { s with
                  tmThen := { s.tmThen with
                    mon := s.tmNow.mon, mday := mday, hour := hour } }) = _
                rw [scanMinute_eq]
                dsimp only
                cases hmin : e.minuteAt s.tmNow.min with
                | none => exact ih false hyear hsec
                | some min =>
                    dsimp only [afterPass]
                    rw [hsec]

-- =========================================================== the steps

section

variable {e : Entry} {start : Tm}

/-- The walk goes on from one place as it does from another. -/
def Leads (e : Entry) (start : Tm) (first : Bool) (now : Tm)
    (first' : Bool) (now' : Tm) : Prop :=
  ∃ k, ∀ fuel, walk e start (fuel + k) first now
    = walk e start fuel first' now'

/-- The search is where it is. -/
theorem Leads.refl (first : Bool) (now : Tm) :
    Leads e start first now first now :=
  ⟨0, fun _ => rfl⟩

/-- And it goes on from where it has come to. -/
theorem Leads.trans {f1 f2 f3 : Bool} {t1 t2 t3 : Tm}
    (h : Leads e start f1 t1 f2 t2) (h' : Leads e start f2 t2 f3 t3) :
    Leads e start f1 t1 f3 t3 := by
  obtain ⟨k, hk⟩ := h
  obtain ⟨k', hk'⟩ := h'
  refine ⟨k' + k, fun fuel => ?_⟩
  rw [← Nat.add_assoc, hk, hk']

/-- A pass in which the month fails starts a new year. -/
theorem leads_newYear {first : Bool} {now : Tm}
    (hmonth : e.MonthFails first now.mon) :
    Leads e start first now false now.newYear := by
  refine ⟨1, fun fuel => ?_⟩
  rw [walk, if_pos hmonth]

/-- One in which the day fails moves to the next month, unless it has been
through twelve. -/
theorem leads_nextMonth {first : Bool} {now : Tm}
    (hmonth : ¬ e.MonthFails first now.mon)
    (hdom : e.domAt now.mday = none) (hle : now.mon ≤ start.mon + 11) :
    Leads e start first now false now.nextMonth := by
  refine ⟨1, fun fuel => ?_⟩
  rw [walk, if_neg hmonth, hdom]
  dsimp only
  rw [if_neg (by omega)]

/-- One in which the hour fails moves to the next day. -/
theorem leads_nextDay {first : Bool} {now : Tm} {mday : Nat}
    (hmonth : ¬ e.MonthFails first now.mon)
    (hdom : e.domAt now.mday = some mday)
    (hhour : e.hourAt now.hour = none) :
    Leads e start first now false now.nextDay := by
  refine ⟨1, fun fuel => ?_⟩
  rw [walk, if_neg hmonth, hdom, hhour]

/-- And one in which the minute fails to the next hour. -/
theorem leads_nextHour {first : Bool} {now : Tm} {mday hour : Nat}
    (hmonth : ¬ e.MonthFails first now.mon)
    (hdom : e.domAt now.mday = some mday)
    (hhour : e.hourAt now.hour = some hour)
    (hmin : e.minuteAt now.min = none) :
    Leads e start first now false now.nextHour := by
  refine ⟨1, fun fuel => ?_⟩
  rw [walk, if_neg hmonth, hdom, hhour, hmin]

end

-- ========================================================= the arrival

namespace Entry

/-- The carries `now` forces, from the minute up: into the hour, if there
is no minute from there on. -/
def carryHour (e : Entry) (now : Tm) : Tm :=
  if e.minuteAt now.min = none then now.nextHour else now

/-- And into the day, if there is no hour from there on. -/
def carryDay (e : Entry) (now : Tm) : Tm :=
  if e.hourAt (e.carryHour now).hour = none then now.nextDay
  else e.carryHour now

/-- And into the month, if there is no day from there on. -/
def carryMonth (e : Entry) (now : Tm) : Tm :=
  if e.domAt (e.carryDay now).mday = none then now.nextMonth
  else e.carryDay now

/-- Where the carries leave the search: the place it prints from, if it
prints. -/
def arrival (e : Entry) (now : Tm) : Tm :=
  if e.MonthFails (decide (e.carryMonth now = now)) (e.carryMonth now).mon
  then now.newYear else e.carryMonth now

variable {e : Entry} {now : Tm}

/-- Without a minute it is carried into the hour. -/
theorem carryHour_of_none (h : e.minuteAt now.min = none) :
    e.carryHour now = now.nextHour := if_pos h

/-- With one it is not. -/
theorem carryHour_of_some (h : e.minuteAt now.min ≠ none) :
    e.carryHour now = now := if_neg h

/-- Without an hour it is carried into the day. -/
theorem carryDay_of_none (h : e.hourAt (e.carryHour now).hour = none) :
    e.carryDay now = now.nextDay := if_pos h

/-- With one it is not. -/
theorem carryDay_of_some (h : e.hourAt (e.carryHour now).hour ≠ none) :
    e.carryDay now = e.carryHour now := if_neg h

/-- Without a day it is carried into the month. -/
theorem carryMonth_of_none (h : e.domAt (e.carryDay now).mday = none) :
    e.carryMonth now = now.nextMonth := if_pos h

/-- With one it is not. -/
theorem carryMonth_of_some (h : e.domAt (e.carryDay now).mday ≠ none) :
    e.carryMonth now = e.carryDay now := if_neg h

/-- Without a month the search arrives in a new year. -/
theorem arrival_of_fails
    (h : e.MonthFails (decide (e.carryMonth now = now))
      (e.carryMonth now).mon) : e.arrival now = now.newYear := if_pos h

/-- With one it arrives where the carries have led. -/
theorem arrival_of_found
    (h : ¬ e.MonthFails (decide (e.carryMonth now = now))
      (e.carryMonth now).mon) : e.arrival now = e.carryMonth now :=
  if_neg h

/-- Another hour is another time. -/
theorem nextHour_ne : now.nextHour ≠ now := by
  intro h
  have hhour := congrArg Tm.hour h
  simp only [Tm.nextHour] at hhour
  omega

/-- Another day is another time. -/
theorem nextDay_ne : now.nextDay ≠ now := by
  intro h
  have hmday := congrArg Tm.mday h
  simp only [Tm.nextDay] at hmday
  omega

/-- Another month is another time. -/
theorem nextMonth_ne : now.nextMonth ≠ now := by
  intro h
  have hmon := congrArg Tm.mon h
  simp only [Tm.nextMonth] at hmon
  omega

/-- Another year is another time. -/
theorem newYear_ne : now.newYear ≠ now := by
  intro h
  have hyear := congrArg Tm.year h
  simp only [Tm.newYear] at hyear
  omega

/-- No carry takes anything back above it. -/
theorem carryHour_hour : now.hour ≤ (e.carryHour now).hour := by
  unfold carryHour
  split
  · exact Nat.le_succ _
  · exact Nat.le_refl _

/-- The first carry keeps the day. -/
theorem carryHour_mday : (e.carryHour now).mday = now.mday := by
  unfold carryHour
  split
  · rfl
  · rfl

/-- The first carry keeps the month. -/
theorem carryHour_mon : (e.carryHour now).mon = now.mon := by
  unfold carryHour
  split
  · rfl
  · rfl

/-- The second can only count the day on. -/
theorem carryDay_mday : now.mday ≤ (e.carryDay now).mday := by
  unfold carryDay
  split
  · exact Nat.le_succ _
  · rw [carryHour_mday]

/-- The second one keeps the month as well. -/
theorem carryDay_mon : (e.carryDay now).mon = now.mon := by
  unfold carryDay
  split
  · rfl
  · exact carryHour_mon

/-- None of the carries touches the year: not the first, -/
theorem carryHour_year : (e.carryHour now).year = now.year := by
  unfold carryHour
  split
  · rfl
  · rfl

/-- nor does the second carry, -/
theorem carryDay_year : (e.carryDay now).year = now.year := by
  unfold carryDay
  split
  · rfl
  · exact carryHour_year

/-- nor does the third. -/
theorem carryMonth_year : (e.carryMonth now).year = now.year := by
  unfold carryMonth
  split
  · rfl
  · exact carryDay_year

/-- The third can only count the month on. -/
theorem carryMonth_mon : now.mon ≤ (e.carryMonth now).mon := by
  unfold carryMonth
  split
  · exact Nat.le_succ _
  · rw [carryDay_mon]

/-- If something was carried into the hour, the second carry does not undo
it, -/
theorem carryDay_ne (h : e.carryHour now ≠ now) : e.carryDay now ≠ now := by
  unfold carryDay
  split
  · exact nextDay_ne
  · exact h

/-- nor does the third undo what the second did, -/
theorem carryMonth_ne (h : e.carryDay now ≠ now) :
    e.carryMonth now ≠ now := by
  unfold carryMonth
  split
  · exact nextMonth_ne
  · exact h

/-- nor does the new year. -/
theorem arrival_ne (h : e.carryMonth now ≠ now) : e.arrival now ≠ now := by
  unfold arrival
  split
  · exact newYear_ne
  · exact h

/-- From a place a carry led to, the month scan is made again, with or
without a star. -/
theorem arrival_of_carry {p : Tm} (hp : e.carryMonth now = p)
    (hne : p ≠ now) :
    e.arrival now = if e.MonthFails false p.mon then now.newYear else p := by
  unfold arrival
  rw [hp, decide_eq_false hne]

/-- After a carry, a month scan that fails already fails where the
carries lead. -/
theorem arrival_newYear (hne : e.carryMonth now ≠ now)
    (hmonth : e.MonthFails false now.mon) : e.arrival now = now.newYear := by
  rw [arrival_of_carry rfl hne, if_pos (hmonth.later carryMonth_mon)]

/-- The carries that are left, from where the search then stands. -/
theorem leads_of_nextMonth (hp : e.carryMonth now = now.nextMonth) :
    Leads e now false now.nextMonth false (e.arrival now) := by
  rw [arrival_of_carry hp nextMonth_ne]
  split
  · next hmonth => exact leads_newYear hmonth
  · exact Leads.refl _ _

/-- From the next day the search arrives where it would from `now`, since
the minutes and hours start over and cannot fail again. -/
theorem leads_of_nextDay (hp : e.carryDay now = now.nextDay) :
    Leads e now false now.nextDay false (e.arrival now) := by
  cases hdom : e.domAt now.nextDay.mday with
  | none =>
      have hcarry : e.carryMonth now = now.nextMonth := by
        unfold carryMonth
        rw [hp, if_pos hdom]
      by_cases hmonth : e.MonthFails false now.mon
      · rw [arrival_newYear (by rw [hcarry]; exact nextMonth_ne) hmonth]
        exact leads_newYear hmonth
      · have hstep : Leads e now false now.nextDay false now.nextMonth :=
          leads_nextMonth hmonth hdom (Nat.le_add_right _ _)
        exact hstep.trans (leads_of_nextMonth hcarry)
  | some mday =>
      have hcarry : e.carryMonth now = now.nextDay := by
        unfold carryMonth
        rw [hp, hdom, if_neg (by simp)]
      rw [arrival_of_carry hcarry nextDay_ne]
      split
      · next hmonth => exact leads_newYear hmonth
      · exact Leads.refl _ _

/-- From the next hour as well. -/
theorem leads_of_nextHour (hp : e.carryHour now = now.nextHour)
    {mday : Nat} (hdom : e.domAt now.mday = some mday) :
    Leads e now false now.nextHour false (e.arrival now) := by
  cases hhour : e.hourAt now.nextHour.hour with
  | none =>
      have hday : e.carryDay now = now.nextDay := by
        unfold carryDay
        rw [hp, if_pos hhour]
      by_cases hmonth : e.MonthFails false now.mon
      · have hne : e.carryDay now ≠ now := by
          rw [hday]
          exact nextDay_ne
        rw [arrival_newYear (carryMonth_ne hne) hmonth]
        exact leads_newYear hmonth
      · have hstep : Leads e now false now.nextHour false now.nextDay :=
          leads_nextDay hmonth hdom hhour
        exact hstep.trans (leads_of_nextDay hday)
  | some hour =>
      have hcarry : e.carryMonth now = now.nextHour := by
        have hday : e.carryDay now = now.nextHour := by
          unfold carryDay
          rw [hp, hhour, if_neg (by simp)]
        have hdom' : e.domAt now.nextHour.mday = some mday := hdom
        unfold carryMonth
        rw [hday, hdom', if_neg (by simp)]
      rw [arrival_of_carry hcarry nextHour_ne]
      split
      · next hmonth => exact leads_newYear hmonth
      · exact Leads.refl _ _

/-- **The arrival.** Only if nothing is carried, a star still skips the
month scan there. -/
theorem leads_arrival :
    Leads e now true now (decide (e.arrival now = now))
      (e.arrival now) := by
  by_cases hmonth : e.MonthFails true now.mon
  · have harrival : e.arrival now = now.newYear := by
      by_cases hcarry : e.carryMonth now = now
      · unfold arrival
        rw [hcarry, decide_eq_true rfl, if_pos hmonth]
      · exact arrival_newYear hcarry (hmonth.later (Nat.le_refl _))
    rw [harrival, decide_eq_false newYear_ne]
    exact leads_newYear hmonth
  · cases hdom : e.domAt now.mday with
    | none =>
        have hcarry : e.carryMonth now = now.nextMonth :=
          carryMonth_of_none (domAt_later hdom carryDay_mday)
        have hne : e.carryMonth now ≠ now := by
          rw [hcarry]
          exact nextMonth_ne
        rw [decide_eq_false (arrival_ne hne)]
        exact (leads_nextMonth hmonth hdom (Nat.le_add_right _ _)).trans
          (leads_of_nextMonth hcarry)
    | some mday =>
        cases hhour : e.hourAt now.hour with
        | none =>
            have hcarry : e.carryDay now = now.nextDay :=
              carryDay_of_none (hourAt_later hhour carryHour_hour)
            have hne : e.carryDay now ≠ now := by
              rw [hcarry]
              exact nextDay_ne
            rw [decide_eq_false (arrival_ne (carryMonth_ne hne))]
            exact (leads_nextDay hmonth hdom hhour).trans
              (leads_of_nextDay hcarry)
        | some hour =>
            cases hmin : e.minuteAt now.min with
            | none =>
                have hcarry : e.carryHour now = now.nextHour :=
                  carryHour_of_none hmin
                have hne : e.carryHour now ≠ now := by
                  rw [hcarry]
                  exact nextHour_ne
                rw [decide_eq_false
                  (arrival_ne (carryMonth_ne (carryDay_ne hne)))]
                exact (leads_nextHour hmonth hdom hhour hmin).trans
                  (leads_of_nextHour hcarry hdom)
            | some min =>
                have hcarry : e.carryMonth now = now := by
                  have h1 : e.carryHour now = now := by
                    unfold carryHour
                    rw [hmin, if_neg (by simp)]
                  have h2 : e.carryDay now = now := by
                    unfold carryDay
                    rw [h1, hhour, if_neg (by simp)]
                  unfold carryMonth
                  rw [h2, hdom, if_neg (by simp)]
                have harrival : e.arrival now = now := by
                  unfold arrival
                  rw [hcarry, decide_eq_true rfl, if_neg hmonth]
                rw [harrival, decide_eq_true rfl]
                exact Leads.refl _ _

end Entry

-- ===================================================== what is printed

section

variable {e : Entry} {start now t : Tm}

/-- More fuel does not change a result. -/
theorem walk_mono {fuel : Nat} {first : Bool} {r : Except String Tm}
    (h : walk e start fuel first now = some r) (k : Nat) :
    walk e start (fuel + k) first now = some r := by
  induction fuel generalizing first now with
  | zero => cases h
  | succ fuel ih =>
      rw [Nat.succ_add]
      rw [walk] at h ⊢
      split at h
      · next hmonth =>
        rw [if_pos hmonth]
        exact ih h
      · next hmonth =>
        rw [if_neg hmonth]
        split at h
        · split at h
          · next hgive =>
            rw [if_pos hgive]
            exact h
          · next hgive =>
            rw [if_neg hgive]
            exact ih h
        · exact ih h
        · exact ih h
        · exact h

/-- The walk comes to this from here, with some fuel: a time, or the
message with which it gives up. -/
def Comes (e : Entry) (start : Tm) (first : Bool) (now : Tm)
    (r : Except String Tm) : Prop :=
  ∃ fuel, walk e start fuel first now = some r

/-- What the search comes to is what it comes to from where it is led. -/
theorem Leads.comes_iff {first first' : Bool} {now' : Tm}
    {r : Except String Tm} (h : Leads e start first now first' now') :
    Comes e start first now r ↔ Comes e start first' now' r := by
  obtain ⟨k, hk⟩ := h
  constructor
  · intro ⟨fuel, hwalk⟩
    refine ⟨fuel, ?_⟩
    rw [← hk]
    exact walk_mono hwalk k
  · intro ⟨fuel, hwalk⟩
    refine ⟨fuel + k, ?_⟩
    rw [hk]
    exact hwalk

/-- The result of the search, if it has one: a time or a message, with any
fuel that is enough. -/
def Computes (e : Entry) (now : Tm) (r : Except String Tm) : Prop :=
  ∃ fuel, nextTime fuel e now = some r

/-- `nextTime` is the walk from the current time, as a first pass. -/
theorem nextTime_eq_walk (fuel : Nat) (e : Entry) (now : Tm) :
    nextTime fuel e now = walk e now fuel true now := by
  unfold nextTime
  exact search_eq_walk e fuel true rfl rfl

/-- So what it computes is what the walk comes to. -/
theorem computes_iff_comes {r : Except String Tm} :
    Computes e now r ↔ Comes e now true now r := by
  unfold Computes Comes
  simp only [nextTime_eq_walk]

/-- A day scan that fails from the first of a month never ends well. -/
theorem not_comes_of_dom (hdom : e.domAt 1 = none) {first : Bool}
    (hmday : now.mday = 1) : ¬ Comes e start first now (.ok t) := by
  intro ⟨fuel, hwalk⟩
  induction fuel generalizing first now with
  | zero => cases hwalk
  | succ fuel ih =>
      rw [walk] at hwalk
      split at hwalk
      · exact ih rfl hwalk
      · rw [hmday, hdom] at hwalk
        dsimp only at hwalk
        split at hwalk
        · cases hwalk
        · exact ih rfl hwalk

/-- Nor does a month scan that fails from the first month on. -/
theorem not_comes_of_month (hmonth : e.MonthFails false 1)
    (hmon : now.mon = 1) : ¬ Comes e start false now (.ok t) := by
  intro ⟨fuel, hwalk⟩
  induction fuel generalizing now with
  | zero => cases hwalk
  | succ fuel ih =>
      rw [walk, hmon, if_pos hmonth] at hwalk
      exact ih rfl hwalk

/-- Hours and minutes can start over: their sets are not empty. -/
structure Entry.StartsOver (e : Entry) : Prop where
  hour : e.hourAt 0 ≠ none
  minute : e.minuteAt 0 ≠ none

namespace Entry

/-- Where the carries lead, hour and minute are found. -/
theorem arrival_found (now : Tm) (hs : e.StartsOver) :
    e.hourAt (e.arrival now).hour ≠ none
      ∧ e.minuteAt (e.arrival now).min ≠ none := by
  have hmin : e.minuteAt (e.carryHour now).min ≠ none := by
    unfold carryHour
    split
    · exact hs.minute
    · assumption
  have hday : e.hourAt (e.carryDay now).hour ≠ none
      ∧ e.minuteAt (e.carryDay now).min ≠ none := by
    unfold carryDay
    split
    · exact ⟨hs.hour, hs.minute⟩
    · next hhour => exact ⟨hhour, hmin⟩
  have hmonth : e.hourAt (e.carryMonth now).hour ≠ none
      ∧ e.minuteAt (e.carryMonth now).min ≠ none := by
    unfold carryMonth
    split
    · exact ⟨hs.hour, hs.minute⟩
    · exact hday
  unfold arrival
  split
  · exact ⟨hs.hour, hs.minute⟩
  · exact hmonth

/-- A day is only missed there at the first of a month. -/
theorem arrival_mday (hdom : e.domAt (e.arrival now).mday = none) :
    (e.arrival now).mday = 1 := by
  unfold arrival at hdom ⊢
  split
  · rfl
  · next hmonth =>
    rw [if_neg hmonth] at hdom
    unfold carryMonth at hdom ⊢
    split
    · rfl
    · next hfound =>
      rw [if_neg hfound] at hdom
      exact absurd hdom hfound

/-- A month is only missed there at the start of a year. -/
theorem arrival_mon
    (hmonth : e.MonthFails (decide (e.arrival now = now))
      (e.arrival now).mon) : e.arrival now = now.newYear := by
  by_contra hne
  have harrival : e.arrival now = e.carryMonth now := by
    unfold arrival at hne ⊢
    split
    · next hfails =>
      rw [if_pos hfails] at hne
      exact absurd rfl hne
    · rfl
  have hfails := hmonth
  rw [harrival] at hfails
  refine hne ?_
  unfold arrival
  rw [if_pos hfails]

/-- What the scans choose from a place: the hour and minute they find, the
day one late, and the month as it stands. -/
def Shows (e : Entry) (p t : Tm) : Prop :=
  ∃ mday hour min, e.domAt p.mday = some mday
    ∧ e.hourAt p.hour = some hour ∧ e.minuteAt p.min = some min
    ∧ t = { p with mday := mday, hour := hour, min := min }

end Entry

/-- **What is printed** is what the scans choose where the carries lead,
and nothing is printed unless the month and the day are found there. -/
theorem prints_iff (hs : e.StartsOver) :
    Computes e now (.ok t)
      ↔ ¬ e.MonthFails (decide (e.arrival now = now)) (e.arrival now).mon
        ∧ e.Shows (e.arrival now) t := by
  rw [computes_iff_comes, Entry.leads_arrival.comes_iff]
  constructor
  · intro hcomes
    have hmonth : ¬ e.MonthFails (decide (e.arrival now = now))
        (e.arrival now).mon := by
      intro hfails
      have hyear := Entry.arrival_mon hfails
      rw [hyear, decide_eq_false Entry.newYear_ne] at hfails hcomes
      exact not_comes_of_month hfails rfl hcomes
    refine ⟨hmonth, ?_⟩
    cases hdom : e.domAt (e.arrival now).mday with
    | none =>
        have hmday := Entry.arrival_mday hdom
        rw [hmday] at hdom
        exact absurd hcomes (not_comes_of_dom hdom hmday)
    | some mday =>
        obtain ⟨hhour, hmin⟩ := Entry.arrival_found now hs
        obtain ⟨hour, hhour⟩ := Option.ne_none_iff_exists'.mp hhour
        obtain ⟨min, hmin⟩ := Option.ne_none_iff_exists'.mp hmin
        obtain ⟨fuel, hwalk⟩ := hcomes
        cases fuel with
        | zero => cases hwalk
        | succ fuel =>
            rw [walk, if_neg hmonth, hdom, hhour, hmin] at hwalk
            injection hwalk with hwalk
            injection hwalk with hwalk
            exact ⟨mday, hour, min, hdom, hhour, hmin, hwalk.symm⟩
  · intro ⟨hmonth, mday, hour, min, hdom, hhour, hmin, ht⟩
    refine ⟨1, ?_⟩
    rw [walk, if_neg hmonth, hdom, hhour, hmin, ht]

end

end Tinjac
