/-
Two searches side by side.

What is to be seen of a call is what the result of the search looks like
(`shown_iff_computes`): a message, a point in time, or an exception. So
two entries that compute alike are printed alike
(`ComputeAlike.printAlike`), and two that both find a time are iff the
two times look the same (`printAlike_iff`).

`printTime` looks at an entry through four scans. Two entries whose
scans cannot be told apart are announced alike (`ScansAlike.computes`);
two that differ in whether the day is starred never are, since a scan
for a day never stops where it starts (`not_alike_of_domStar`). The
third case is an entry whose day scan always fails: then the search runs
on for ever, unless it gives up (`not_comes_of_noDay`, `comes_giveUp`).
-/
import Mathlib.Data.List.Find
import Tinjac.Proofs.Search
import Tinjac.Text.Printed

namespace Tinjac

-- ===================================================== what is printed

/-- Neither the rows nor the search tell the entries apart. -/
structure ComputeAlike (now : Tm) (e e' : Entry) : Prop where
  rows : printRows e = printRows e'
  search : ∀ res, Computes e now res ↔ Computes e' now res

section

variable {e e' : Entry} {now start t : Tm} {ptimeThrows : Tm → Bool}

/-- The output for a result of the search. -/
def printResult (ptimeThrows : Tm → Bool) (now : Tm) (e : Entry) :
    Except String Tm → List Line × Ending
  | .error msg => (printRows e ++ [.now now] ++ [.elog msg], .returned)
  | .ok tmThen =>
      if ptimeThrows tmThen then (printRows e ++ [.now now], .threw)
      else (printRows e ++ [.now now] ++ [.time tmThen], .returned)

theorem printResult_not_running (r : Except String Tm) :
    (printResult ptimeThrows now e r).2 ≠ .running := by
  unfold printResult
  split
  · exact Ending.noConfusion
  · split
    · exact Ending.noConfusion
    · exact Ending.noConfusion

theorem prints_iff_computes {r : List Line × Ending} :
    Prints ptimeThrows now e r
      ↔ ∃ res, Computes e now res
        ∧ r = printResult ptimeThrows now e res := by
  constructor
  · intro ⟨fuel, hprint, hend⟩
    unfold printTime at hprint
    dsimp only at hprint
    cases hnext : nextTime fuel e now with
    | none =>
        rw [hnext] at hprint
        rw [← hprint] at hend
        exact absurd rfl hend
    | some res =>
        refine ⟨res, ⟨fuel, hnext⟩, ?_⟩
        rw [← hprint, hnext]
        cases res with
        | error msg => rfl
        | ok t => rfl
  · intro ⟨res, ⟨fuel, hnext⟩, hr⟩
    refine ⟨fuel, ?_, ?_⟩
    · unfold printTime
      rw [hr, hnext]
      cases res with
      | error msg => rfl
      | ok t => rfl
    · rw [hr]
      exact printResult_not_running res

/-- A search has one result. -/
theorem Computes.unique {r r' : Except String Tm}
    (h : Computes e now r) (h' : Computes e now r') : r = r' := by
  rw [computes_iff_comes] at h h'
  obtain ⟨fuel, hwalk⟩ := h
  obtain ⟨fuel', hwalk'⟩ := h'
  have hmore := walk_mono hwalk fuel'
  have hmore' := walk_mono hwalk' fuel
  rw [Nat.add_comm, hmore] at hmore'
  injection hmore'

/-- What is to be seen is what the result of the search looks like. -/
theorem shown_iff_computes {out : List (Line ⊕ Int) × Ending} :
    (∃ r, Prints ptimeThrows now e r ∧ shown r = out)
      ↔ ∃ res, Computes e now res
        ∧ shown (printResult ptimeThrows now e res) = out := by
  constructor
  · intro ⟨r, hprints, hout⟩
    obtain ⟨res, hres, hr⟩ := prints_iff_computes.mp hprints
    rw [hr] at hout
    exact ⟨res, hres, hout⟩
  · intro ⟨res, hres, hout⟩
    exact ⟨_, prints_iff_computes.mpr ⟨res, hres, rfl⟩, hout⟩

/-- The output of an entry with the same rows. -/
theorem printResult_congr (hrows : printRows e = printRows e')
    (res : Except String Tm) : printResult ptimeThrows now e res
      = printResult ptimeThrows now e' res := by
  unfold printResult
  rw [hrows]

/-- Entries that compute alike are printed alike. -/
theorem ComputeAlike.printAlike (h : ComputeAlike now e e') :
    PrintAlike ptimeThrows now e e' := by
  intro out
  rw [shown_iff_computes, shown_iff_computes]
  simp only [h.search, printResult_congr h.rows]

/-- What is to be seen before the search. -/
def shownRows (now : Tm) (e : Entry) : List (Line ⊕ Int) :=
  (printRows e ++ [Line.now now]).map Line.shown

/-- A search that gives up logs its message. -/
theorem shown_error (msg : String) :
    shown (printResult ptimeThrows now e (.error msg))
      = (shownRows now e ++ [.inl (.elog msg)], .returned) := by
  unfold shown printResult shownRows
  dsimp only
  rw [@List.map_append _ _ _ _ [Line.elog msg]]
  rfl

/-- A time that `ptime_from_tm` throws on is not seen. -/
theorem shown_threw (h : ptimeThrows t = true) :
    shown (printResult ptimeThrows now e (.ok t))
      = (shownRows now e, .threw) := by
  unfold shown printResult shownRows
  dsimp only
  rw [if_pos h]

/-- Of any other time the point in time is. -/
theorem shown_time (h : ptimeThrows t = false) :
    shown (printResult ptimeThrows now e (.ok t))
      = (shownRows now e ++ [.inr t.ptime], .returned) := by
  have hno : ¬ ptimeThrows t = true := by
    rw [h]
    decide
  unfold shown printResult shownRows
  dsimp only
  rw [if_neg hno, @List.map_append _ _ _ _ [Line.time t]]
  rfl

/-- What looks like a time is a time: `ptime_from_tm` throws on both, or
they are the same point in time. -/
theorem ok_of_shown {res : Except String Tm}
    (h : shown (printResult ptimeThrows now e res)
      = shown (printResult ptimeThrows now e (.ok t))) :
    ∃ t', res = .ok t' ∧ ptimeThrows t' = ptimeThrows t
      ∧ (ptimeThrows t = false → t'.ptime = t.ptime) := by
  cases res with
  | error msg =>
      rw [shown_error] at h
      cases hthrows : ptimeThrows t with
      | true =>
          rw [shown_threw hthrows] at h
          cases congrArg Prod.snd h
      | false =>
          rw [shown_time hthrows] at h
          have hlast := List.append_cancel_left (congrArg Prod.fst h)
          injection hlast with hlast
          cases hlast
  | ok t' =>
      refine ⟨t', rfl, ?_⟩
      cases hthrows : ptimeThrows t with
      | true =>
          rw [shown_threw hthrows] at h
          cases hthrows' : ptimeThrows t' with
          | true => exact ⟨rfl, fun hno => Bool.noConfusion hno⟩
          | false =>
              rw [shown_time hthrows'] at h
              cases congrArg Prod.snd h
      | false =>
          rw [shown_time hthrows] at h
          cases hthrows' : ptimeThrows t' with
          | true =>
              rw [shown_threw hthrows'] at h
              cases congrArg Prod.snd h
          | false =>
              rw [shown_time hthrows'] at h
              have hlast := List.append_cancel_left (congrArg Prod.fst h)
              injection hlast with hlast
              injection hlast with hlast
              exact ⟨rfl, fun _ => hlast⟩

/-- And such times look alike. -/
theorem shown_congr (now : Tm) {t' : Tm}
    (hrows : printRows e = printRows e')
    (hthrows : ptimeThrows t = ptimeThrows t')
    (hsame : ptimeThrows t = false → t.ptime = t'.ptime) :
    shown (printResult ptimeThrows now e (.ok t))
      = shown (printResult ptimeThrows now e' (.ok t')) := by
  rw [printResult_congr hrows]
  cases h : ptimeThrows t with
  | true => rw [shown_threw h, shown_threw (hthrows.symm.trans h)]
  | false =>
      rw [shown_time h, shown_time (hthrows.symm.trans h), hsame h]

/-- **Results side by side.** Two entries with the same rows that both
find a time are printed alike iff `ptime_from_tm` throws on both times
or they are the same point in time. -/
theorem printAlike_iff {t' : Tm} (hrows : printRows e = printRows e')
    (h : Computes e now (.ok t)) (h' : Computes e' now (.ok t')) :
    PrintAlike ptimeThrows now e e'
      ↔ ptimeThrows t = ptimeThrows t'
        ∧ (ptimeThrows t = false → t.ptime = t'.ptime) := by
  unfold PrintAlike
  simp only [shown_iff_computes]
  constructor
  · intro halike
    obtain ⟨res, hres, hshown⟩ := (halike _).mp ⟨_, h, rfl⟩
    rw [hres.unique h', ← printResult_congr hrows] at hshown
    obtain ⟨u, hu, hthrows, hsame⟩ := ok_of_shown hshown
    injection hu with hu
    rw [← hu] at hthrows hsame
    exact ⟨hthrows.symm, fun hno => (hsame hno).symm⟩
  · intro ⟨hthrows, hsame⟩ out
    have hshown := shown_congr now hrows hthrows hsame
    constructor
    · intro ⟨res, hres, hout⟩
      rw [hres.unique h, hshown] at hout
      exact ⟨_, h', hout⟩
    · intro ⟨res, hres, hout⟩
      rw [hres.unique h', ← hshown] at hout
      exact ⟨_, h, hout⟩

-- ========================================================= equal scans

/-- A scan sees no bit behind the last. -/
theorem scan_congr {bits bits' : Bitmaps} {f : Field} {last : Nat}
    (h : ∀ i ≤ last, bitTest bits f.name i = bitTest bits' f.name i)
    {first : Nat} : scan bits f first last = scan bits' f first last := by
  unfold scan
  refine List.find?_congr fun i hi => ?_
  obtain ⟨hfirst, hlast⟩ := List.mem_range'_1.mp hi
  exact h i (by omega)

namespace Entry

/-- No scan tells the two entries apart. -/
structure ScansAlike (e e' : Entry) : Prop where
  month : ∀ first mon, e.MonthFails first mon ↔ e'.MonthFails first mon
  dom : ∀ mday, e.domAt mday = e'.domAt mday
  hour : ∀ hour, e.hourAt hour = e'.hourAt hour
  minute : ∀ min, e.minuteAt min = e'.minuteAt min

theorem ScansAlike.walk (h : e.ScansAlike e') (fuel : Nat)
    (first : Bool) (now : Tm) :
    Tinjac.walk e start fuel first now
      = Tinjac.walk e' start fuel first now := by
  induction fuel generalizing first now with
  | zero => rfl
  | succ fuel ih =>
      rw [Tinjac.walk, Tinjac.walk]
      simp only [h.month, h.dom, h.hour, h.minute, ih]

theorem ScansAlike.computes (h : e.ScansAlike e')
    (res : Except String Tm) : Computes e now res ↔ Computes e' now res := by
  rw [computes_iff_comes, computes_iff_comes]
  unfold Comes
  simp only [h.walk]

theorem hourAt_congr
    (hstar : hasFlag e.flags hrStar = hasFlag e'.flags hrStar)
    (hbits : ∀ i ≤ 23, bitTest e.bits hourField.name i
      = bitTest e'.bits hourField.name i) (hour : Nat) :
    e.hourAt hour = e'.hourAt hour := by
  unfold hourAt
  rw [hstar, scan_congr hbits]

theorem minuteAt_congr
    (hstar : hasFlag e.flags minStar = hasFlag e'.flags minStar)
    (hbits : ∀ i ≤ 59, bitTest e.bits minuteField.name i
      = bitTest e'.bits minuteField.name i) (min : Nat) :
    e.minuteAt min = e'.minuteAt min := by
  unfold minuteAt
  rw [hstar, scan_congr hbits]

/-- Equal flags, and equal bits as far as the scans look. -/
theorem scansAlike_of_bits (hflags : e.flags = e'.flags)
    (hmonth : ∀ i ≤ 12, bitTest e.bits monthField.name i
      = bitTest e'.bits monthField.name i)
    (hdom : ∀ i ≤ 31, bitTest e.bits domField.name i
      = bitTest e'.bits domField.name i)
    (hhour : ∀ i ≤ 23, bitTest e.bits hourField.name i
      = bitTest e'.bits hourField.name i)
    (hmin : ∀ i ≤ 59, bitTest e.bits minuteField.name i
      = bitTest e'.bits minuteField.name i) : e.ScansAlike e' := by
  refine ⟨?_, ?_, ?_, ?_⟩
  · intro first mon
    unfold MonthFails
    rw [hflags, scan_congr hmonth]
  · intro mday
    unfold domAt
    rw [hflags, scan_congr hdom]
  · exact hourAt_congr (by rw [hflags]) hhour
  · exact minuteAt_congr (by rw [hflags]) hmin

-- ======================================================= a starred day

/-- A month that is set does not fail. -/
theorem monthFails_not_of_set {mon : Nat} (first : Bool)
    (hmon : mon ≤ 12)
    (hset : bitTest e.bits monthField.name mon = true) :
    ¬ e.MonthFails first mon := by
  intro hfails
  rw [scan_eq_none.mp hfails.2 mon (Nat.le_refl _) hmon] at hset
  cases hset

/-- A day that is scanned for is never the day the scan starts from. -/
theorem lt_of_domAt {mday mday' : Nat}
    (hstar : hasFlag e.flags domStar = false)
    (h : e.domAt mday = some mday') : mday < mday' := by
  unfold domAt at h
  rw [if_neg (by rw [hstar]; decide)] at h
  obtain ⟨i, hi, rfl⟩ := Option.map_eq_some_iff.mp h
  exact Nat.lt_succ_of_le (scan_some hi).1

/-- An entry whose day is starred announces the day the carries lead to,
and one whose day is not starred announces a later one. -/
theorem not_alike_of_domStar (hs : e.StartsOver) (hs' : e'.StartsOver)
    (hstar : hasFlag e.flags domStar = false)
    (hstar' : hasFlag e'.flags domStar = true)
    (hmonth : ∀ i ≤ 12, bitTest e.bits monthField.name i = true)
    (hmonth' : ∀ i ≤ 11, bitTest e'.bits monthField.name i = true)
    (hhour : ∀ hour, e.hourAt hour = e'.hourAt hour)
    (hmin : ∀ min, e.minuteAt min = e'.minuteAt min)
    (hnow : now.mon ≤ 11) :
    ¬ ∀ res, Computes e now res ↔ Computes e' now res := by
  intro hall
  have hday : e.carryDay now = e'.carryDay now := by
    unfold carryDay carryHour
    rw [hmin, hhour]
  have hmon : (e'.carryDay now).mon = now.mon := carryDay_mon
  have hdom' : ∀ mday, e'.domAt mday = some mday := by
    intro mday
    unfold domAt
    rw [if_pos hstar']
  -- the starred entry arrives where the hour carried it
  have hcarry' : e'.carryMonth now = e'.carryDay now := by
    unfold carryMonth
    rw [hdom', if_neg (by simp)]
  have harrival' : e'.arrival now = e'.carryDay now := by
    unfold arrival
    rw [hcarry', if_neg]
    exact monthFails_not_of_set _ (by omega) (hmonth' _ (by omega))
  obtain ⟨hhour', hmin'⟩ := arrival_found now hs'
  obtain ⟨hour, hhour'⟩ := Option.ne_none_iff_exists'.mp hhour'
  obtain ⟨min, hmin'⟩ := Option.ne_none_iff_exists'.mp hmin'
  have hprints : Computes e' now (.ok { e'.carryDay now with
      mday := (e'.carryDay now).mday, hour := hour, min := min }) := by
    rw [prints_iff hs']
    refine ⟨?_, (e'.carryDay now).mday, hour, min, ?_, hhour', hmin', ?_⟩
    · rw [harrival']
      exact monthFails_not_of_set _ (by omega) (hmonth' _ (by omega))
    · rw [harrival', hdom']
    · rw [harrival']
  -- and the other one elsewhere
  obtain ⟨-, hshows⟩ := (prints_iff hs).mp ((hall _).mpr hprints)
  obtain ⟨mday, hour2, min2, hdom, -, -, ht⟩ := hshows
  have htmday := congrArg Tm.mday ht
  have htmon := congrArg Tm.mon ht
  dsimp only at htmday htmon
  have hcarryMon : (e.carryMonth now).mon ≤ 12 := by
    unfold carryMonth
    split
    · show now.mon + 1 ≤ 12
      omega
    · rw [hday, hmon]
      omega
  have harrival : e.arrival now = e.carryMonth now :=
    arrival_of_found (monthFails_not_of_set _ hcarryMon (hmonth _ hcarryMon))
  rw [harrival] at hdom htmon
  unfold carryMonth at hdom htmon
  rw [hday] at hdom htmon
  split at htmon
  · have hnext : now.nextMonth.mon = now.mon + 1 := rfl
    omega
  · next hsome =>
    rw [if_neg hsome] at hdom
    have hlater := lt_of_domAt hstar hdom
    omega

end Entry

-- ======================================================= no day at all

/-- If no day is ever found, and the month starts over before the search
can give up, it runs on for ever. -/
theorem not_comes_of_noDay {top : Nat}
    (hmonth : ∀ mon, top < mon → e.MonthFails false mon)
    (hdom : ∀ mday, 1 ≤ mday → e.domAt mday = none)
    (htop : top ≤ start.mon + 11) {first : Bool}
    (hmon : now.mon ≤ top + 1) (hfirst : first = true → now.mon ≤ top)
    (hmday : 1 ≤ now.mday) (res : Except String Tm) :
    ¬ Comes e start first now res := by
  intro ⟨fuel, hwalk⟩
  induction fuel generalizing first now with
  | zero => cases hwalk
  | succ fuel ih =>
      rw [walk] at hwalk
      split at hwalk
      · have hone : now.newYear.mon = 1 := rfl
        exact ih (by omega) (by intro h; cases h) (Nat.le_refl 1) hwalk
      · next hfound =>
        have hle : now.mon ≤ top := by
          by_contra hlt
          cases first with
          | true => exact hlt (hfirst rfl)
          | false => exact hfound (hmonth _ (by omega))
        rw [hdom _ hmday] at hwalk
        dsimp only at hwalk
        rw [if_neg (by omega)] at hwalk
        exact ih (Nat.succ_le_succ hle) (by intro h; cases h)
          (Nat.le_refl 1) hwalk

/-- If the months do not start over in time, it gives up. -/
theorem comes_giveUp
    (hmonth : ∀ i ≤ 12, bitTest e.bits monthField.name i = true)
    (hdom : ∀ mday, 1 ≤ mday → e.domAt mday = none)
    (hstart : start.mon = 0) {k : Nat} {first : Bool}
    (hmon : now.mon + k = 12) (hmday : 1 ≤ now.mday) :
    Comes e start first now (.error domMsg) := by
  induction k generalizing first now with
  | zero =>
      have hset := hmonth now.mon (by omega)
      refine ⟨1, ?_⟩
      rw [walk, if_neg (Entry.monthFails_not_of_set _ (by omega) hset),
        hdom _ hmday]
      dsimp only
      rw [if_pos (by omega)]
  | succ k ih =>
      have hset := hmonth now.mon (by omega)
      have hnext : now.nextMonth.mon = now.mon + 1 := rfl
      have hstep : Leads e start first now false now.nextMonth :=
        leads_nextMonth (Entry.monthFails_not_of_set _ (by omega) hset)
          (hdom _ hmday) (by omega)
      exact hstep.comes_iff.mpr (ih (by omega) (Nat.le_refl 1))

end

end Tinjac
