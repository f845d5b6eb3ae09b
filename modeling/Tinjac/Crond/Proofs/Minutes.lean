/-
The minutes crond looks for.

What a turn does depends on how far the clock has come from the virtual
clock (`Served`): up to five minutes are made up one by one; up to three
hours are made up for the jobs without a star only, and the starred ones
are looked for once; a clock that was set back by up to three hours
stops the former until it has caught up; and a clock that leapt is
followed.

So for jobs without a star the minutes `find_jobs` is called for follow
one another, from the start on, without a gap and without one that comes
twice, unless the clock leaps. But what `find_jobs` looks at is
`StartTime`, and all the calls of a turn see the minute crond woke up in
(`Turn.looksAt`). So the minutes it looks at follow one another if and
only if crond is never late (`fixed_minutes`), and a late turn runs the
same jobs several times over (`late_wakeup_repeats`).
-/
import Tinjac.Crond.Proofs.Queue
import Mathlib.Data.List.Chain

namespace Tinjac.Crond

-- ============================================================= one turn

/-- The `n` minutes behind a minute. -/
def minutesAfter (v : Int) : Nat → List Int
  | 0 => []
  | n + 1 => (v + 1) :: minutesAfter (v + 1) n

/-- What a call of `find_jobs` is told. -/
def Call.tick (c : Call) : Int × Bool × Bool :=
  (c.vtime, c.doWild, c.doNonWild)

/-- What a turn looks for, from the virtual clock at `v`, when the clock
shows `t`; and where the virtual clock is left. -/
inductive Served (v t : Int) : Int → List (Int × Bool × Bool) → Prop
  | late (hlt : v < t) (hle : t ≤ v + 5) :
      Served v t t
        ((minutesAfter v (t - v).toNat).map fun i => (i, true, true))
  | missed (n : Nat) (hlt : v + 5 < t) (hle : t ≤ v + 180)
      (hpos : 0 < n) (hn : v + n ≤ t) :
      Served v t (v + n)
        ((t, true, false)
          :: (minutesAfter v n).map fun i => (i, false, true))
  | setBack (hle : t ≤ v) (hge : v - 180 ≤ t) :
      Served v t v [(t, true, false)]
  | leap (hfar : v + 180 < t ∨ t < v - 180) :
      Served v t t [(t, true, true)]

section

variable {m : Machine} {granted : Nat → Bool} {d d' : Daemon}

theorem minutesAfter_step {v t : Int} (h : v < t) :
    minutesAfter v (t - v).toNat
      = (v + 1) :: minutesAfter (v + 1) (t - (v + 1)).toNat := by
  have hn : (t - v).toNat = (t - (v + 1)).toNat + 1 := by omega
  rw [hn]
  rfl

theorem minutesAfter_length (v : Int) (n : Nat) :
    (minutesAfter v n).length = n := by
  induction n generalizing v with
  | zero => rfl
  | succ n ih => exact congrArg (· + 1) (ih (v + 1))

/-- Late minutes are made up one by one, all with the same reading of
the clock. -/
theorem lateMinutes_shows (h : d.virtualTime < d.timeRunning) :
    (lateMinutes m d).calls = d.calls
        ++ (minutesAfter d.virtualTime
            (d.timeRunning - d.virtualTime).toNat).map
          (fun i => d.call i true true)
      ∧ (lateMinutes m d).virtualTime = d.timeRunning
      ∧ (lateMinutes m d).timeRunning = d.timeRunning
      ∧ (lateMinutes m d).startTime = d.startTime
      ∧ (lateMinutes m d).gmtOff = d.gmtOff
      ∧ (lateMinutes m d).db = d.db := by
  fun_induction lateMinutes m d with
  | case1 d hgo ih =>
      obtain ⟨hcalls, hv, ht, hs, hgmt, hdb⟩ := ih hgo
      refine ⟨?_, hv, ht, hs, hgmt, hdb⟩
      rw [minutesAfter_step h, hcalls]
      exact List.append_assoc d.calls [d.call (d.virtualTime + 1) true true] _
  | case2 d hstop =>
      have hstop : ¬ d.virtualTime + 1 < d.timeRunning := hstop
      have ht : d.timeRunning = d.virtualTime + 1 := by omega
      refine ⟨?_, ht.symm, rfl, rfl, rfl, rfl⟩
      rw [ht, minutesAfter_step (by omega), Int.sub_self]
      rfl

/-- Missed minutes are made up one by one, at most up to now. -/
theorem missedMinutes_shows (h : d.virtualTime < d.timeRunning) :
    (missedMinutes m d).timeRunning = d.timeRunning
      ∧ ∃ n cs, 0 < n ∧ d.virtualTime + (n : Nat) ≤ d.timeRunning
        ∧ (missedMinutes m d).virtualTime = d.virtualTime + n
        ∧ (missedMinutes m d).calls = d.calls ++ cs
        ∧ cs.map Call.tick
          = (minutesAfter d.virtualTime n).map fun i => (i, false, true) := by
  have hone : ∀ d, (missedMinute m d).calls
      = d.calls ++ [d.call (d.virtualTime + 1) false true] := by
    intro d
    unfold missedMinute
    rw [setTime_calls]
    rfl
  fun_induction missedMinutes m d with
  | case1 d hgo ih =>
      obtain ⟨hlt, -⟩ := hgo
      obtain ⟨ht, n, cs, hpos, hle, hv, hcs, htick⟩ := ih hlt
      rw [missedMinute_timeRunning] at ht hle
      rw [missedMinute_virtualTime] at hle hv htick
      refine ⟨ht, n + 1, d.call (d.virtualTime + 1) false true :: cs,
        Nat.succ_pos n, ?_, ?_, ?_, ?_⟩
      · omega
      · rw [hv]
        omega
      · rw [hcs, hone, List.append_assoc]
        rfl
      · rw [List.map_cons, htick]
        rfl
  | case2 d hstop =>
      refine ⟨missedMinute_timeRunning m d, 1,
        [d.call (d.virtualTime + 1) false true], Nat.one_pos, ?_, ?_, hone d,
        rfl⟩
      · omega
      · exact missedMinute_virtualTime m d

/-- The four cases, by the minutes that have passed. -/
theorem wakeupKind_cases (n : Int) :
    wakeupKind n = .small ∧ 0 < n ∧ n ≤ 5
      ∨ wakeupKind n = .medium ∧ 5 < n ∧ n ≤ 180
      ∨ wakeupKind n = .negative ∧ n ≤ 0 ∧ -180 ≤ n
      ∨ wakeupKind n = .large ∧ (180 < n ∨ n < -180) := by
  have hcount : (3 * minuteCount : Int) = 180 := rfl
  unfold wakeupKind
  rw [hcount]
  split
  · next hfar => exact Or.inr (Or.inr (Or.inr ⟨rfl, hfar⟩))
  · split
    · exact Or.inr (Or.inl ⟨rfl, by omega, by omega⟩)
    · split
      · exact Or.inl ⟨rfl, by omega, by omega⟩
      · exact Or.inr (Or.inr (Or.inl ⟨rfl, by omega, by omega⟩))

/-- What is done about the time that has passed. -/
theorem catchUp_served (m : Machine) (d : Daemon) :
    (catchUp m d).timeRunning = d.timeRunning
      ∧ ∃ cs, (catchUp m d).calls = d.calls ++ cs
        ∧ Served d.virtualTime d.timeRunning (catchUp m d).virtualTime
          (cs.map Call.tick) := by
  unfold catchUp
  dsimp only
  split
  · next hone =>
    have ht : d.timeRunning = d.virtualTime + 1 := by omega
    have hserved := Served.late (v := d.virtualTime) (t := d.timeRunning)
      (by omega) (by omega)
    rw [hone] at hserved
    refine ⟨rfl, [d.call d.timeRunning true true], rfl, ?_⟩
    rw [ht] at hserved ⊢
    exact hserved
  · rcases wakeupKind_cases (d.timeRunning - d.virtualTime) with
      ⟨hkind, hlt, hle⟩ | ⟨hkind, hlt, hle⟩ | ⟨hkind, hle, hge⟩
        | ⟨hkind, hfar⟩
    · rw [hkind]
      obtain ⟨hcalls, hv, ht, -⟩ :=
        lateMinutes_shows (m := m) (d := d) (by omega)
      refine ⟨ht, _, hcalls, ?_⟩
      rw [hv, List.map_map]
      exact Served.late (by omega) (by omega)
    · rw [hkind]
      obtain ⟨ht, n, cs, hpos, hn, hv, hcs, htick⟩ :=
        missedMinutes_shows (m := m)
          (d := d.findJobs m d.timeRunning true false)
          (show d.virtualTime < d.timeRunning by omega)
      refine ⟨ht, d.call d.timeRunning true false :: cs, ?_, ?_⟩
      · rw [hcs]
        exact List.append_assoc d.calls [d.call d.timeRunning true false] cs
      · rw [hv, List.map_cons, htick]
        exact Served.missed n (by omega) (by omega) hpos hn
    · rw [hkind]
      exact ⟨rfl, [d.call d.timeRunning true false], rfl,
        Served.setBack (by omega) (by omega)⟩
    · rw [hkind]
      exact ⟨rfl, [d.call d.timeRunning true true], rfl,
        Served.leap (by omega)⟩

/-- Waiting for the next minute makes no calls. -/
theorem awaitMinute_shows {fuel : Nat}
    (h : awaitMinute m fuel d = some d') :
    d'.virtualTime = d.virtualTime ∧ d'.calls = d.calls :=
  awaitMinute_keeps h
    (P := fun w => w.virtualTime = d.virtualTime ∧ w.calls = d.calls)
    (fun w hw => ⟨(setTime_virtualTime m false w).trans hw.1,
      (setTime_calls false).trans hw.2⟩)
    ⟨rfl, rfl⟩

/-- One turn of the loop. -/
theorem Turn.served (h : Turn m d d') :
    ∃ cs, d'.calls = d.calls ++ cs
      ∧ Served d.virtualTime d'.timeRunning d'.virtualTime
        (cs.map Call.tick) := by
  obtain ⟨fuel, woken, hwait, rfl⟩ := h.woken
  obtain ⟨hv, hcalls⟩ := awaitMinute_shows hwait
  obtain ⟨ht, cs, hcs, hserved⟩ := catchUp_served m
    (loadDatabase m { woken with timeRunning := woken.clockTime })
  refine ⟨cs, ?_, ?_⟩
  · rw [← hcalls]
    exact hcs
  · rw [← hv]
    show Served woken.virtualTime (catchUp m _).timeRunning _ _
    rw [ht]
    exact hserved

-- ========================================================= fixed minutes

/-- The minutes whose jobs without a star were looked for. -/
def fixedMinutes (cs : List Call) : List Int :=
  (cs.filter Call.doNonWild).map Call.vtime

/-- The minute that follows, or one more than three hours away. -/
def NextMinute (a b : Int) : Prop := b = a + 1 ∨ a + 180 < b ∨ b < a - 180

/-- The minutes lead from `v` to `v'`: each is the one that follows the
last, or the clock has leapt between them. -/
inductive Leads : Int → List Int → Int → Prop
  | here (v : Int) : Leads v [] v
  | next {v w v' : Int} {l : List Int} (h : NextMinute v w)
      (hl : Leads w l v') : Leads v (w :: l) v'

theorem Leads.append {v w v' : Int} {l l' : List Int} (h : Leads v l w)
    (h' : Leads w l' v') : Leads v (l ++ l') v' := by
  induction h with
  | here v => exact h'
  | next hn _ ih => exact Leads.next hn (ih h')

theorem minutesAfter_leads (v : Int) (n : Nat) :
    Leads v (minutesAfter v n) (v + n) := by
  induction n generalizing v with
  | zero =>
      rw [Int.natCast_zero, Int.add_zero]
      exact Leads.here v
  | succ n ih =>
      refine Leads.next (Or.inl rfl) ?_
      have hv : v + (n + 1 : Nat) = v + 1 + n := by omega
      rw [hv]
      exact ih (v + 1)

/-- The minutes among what a turn looks for that are looked for on account
of the jobs without a star. -/
def fixedTicks (ts : List (Int × Bool × Bool)) : List Int :=
  (ts.filter fun t => t.2.2).map Prod.fst

theorem fixedMinutes_eq (cs : List Call) :
    fixedMinutes cs = fixedTicks (cs.map Call.tick) := by
  unfold fixedMinutes fixedTicks
  rw [List.filter_map, List.map_map]
  rfl

theorem fixedMinutes_append (cs cs' : List Call) :
    fixedMinutes (cs ++ cs') = fixedMinutes cs ++ fixedMinutes cs' := by
  unfold fixedMinutes
  rw [List.filter_append, List.map_append]

theorem fixedTicks_all (ms : List Int) (w : Bool) :
    fixedTicks (ms.map fun i => (i, w, true)) = ms := by
  induction ms with
  | nil => rfl
  | cons i ms ih => exact congrArg (i :: ·) ih

/-- A turn leads from the virtual clock to the virtual clock. -/
theorem Served.leads {v t v' : Int} {ts : List (Int × Bool × Bool)}
    (h : Served v t v' ts) : Leads v (fixedTicks ts) v' := by
  cases h with
  | late hlt hle =>
      rw [fixedTicks_all]
      have hleads := minutesAfter_leads v (t - v).toNat
      have ht : v + ((t - v).toNat : Int) = t := by omega
      rw [ht] at hleads
      exact hleads
  | missed n hlt hle hpos hn =>
      have hstar : fixedTicks ((t, true, false)
          :: (minutesAfter v n).map fun i => (i, false, true))
          = minutesAfter v n :=
        fixedTicks_all _ _
      rw [hstar]
      exact minutesAfter_leads v n
  | setBack hle hge => exact Leads.here v
  | leap hfar => exact Leads.next (Or.inr hfar) (Leads.here t)

/-- The minutes `find_jobs` is called for. -/
theorem Reachable.fixedMinutes (h : Reachable m granted d) :
    Leads (start m granted).virtualTime (fixedMinutes d.calls)
      d.virtualTime := by
  induction h with
  | refl =>
      obtain ⟨hnone, -⟩ := start_shows m granted
      rw [hnone]
      exact Leads.here _
  | tail _ hturn ih =>
      obtain ⟨cs, hcs, hserved⟩ := hturn.served
      rw [hcs, fixedMinutes_append, fixedMinutes_eq cs]
      exact ih.append hserved.leads

-- ====================================================== what it looks at

/-- `clockTime` is the minute of `StartTime`. -/
def Daemon.Read (d : Daemon) : Prop :=
  d.clockTime = (d.startTime + d.gmtOff).tdiv 60

theorem setTime_read (m : Machine) (b : Bool) (d : Daemon) :
    (setTime m b d).Read := by
  unfold setTime Daemon.Read
  dsimp only

/-- Every call since `d0` looked at this minute. -/
def LooksAt (d0 : Daemon) (t : Int) (d : Daemon) : Prop :=
  ∃ cs, d.calls = d0.calls ++ cs ∧ ∀ c ∈ cs, c.minute = t

theorem LooksAt.findJobs {d0 : Daemon} {t : Int} (h : LooksAt d0 t d)
    (hread : d.Read) (hnow : d.clockTime = t) (vtime : Int) (w n : Bool) :
    LooksAt d0 t (d.findJobs m vtime w n) := by
  obtain ⟨cs, hcs, hall⟩ := h
  refine ⟨cs ++ [d.call vtime w n], ?_, ?_⟩
  · rw [← List.append_assoc, ← hcs]
    rfl
  · intro c hc
    rcases List.mem_append.mp hc with hc | hc
    · exact hall c hc
    · rw [List.mem_singleton.mp hc]
      exact hread.symm.trans hnow

theorem LooksAt.lateMinutes {d0 : Daemon} {t : Int} (h : LooksAt d0 t d)
    (hread : d.Read) (hnow : d.clockTime = t) :
    LooksAt d0 t (lateMinutes m d) := by
  have hone : ∀ d, LooksAt d0 t d → d.Read → d.clockTime = t →
      LooksAt d0 t (lateMinute m d) := by
    intro d h hread hnow
    have hrun : LooksAt d0 t { jobRunqueue d with
        virtualTime := (jobRunqueue d).virtualTime + 1 } := h
    exact hrun.findJobs hread hnow _ true true
  fun_induction Crond.lateMinutes m d with
  | case1 d _ ih => exact ih (hone d h hread hnow) hread hnow
  | case2 d _ => exact hone d h hread hnow

/-- The clock is read after every call, but the loop goes on only as long
as it shows the same minute. -/
theorem LooksAt.missedMinutes {d0 : Daemon} {t : Int} (h : LooksAt d0 t d)
    (hread : d.Read) (hnow : d.clockTime = t) (ht : d.timeRunning = t) :
    LooksAt d0 t (missedMinutes m d) := by
  have hone : ∀ d, LooksAt d0 t d → d.Read → d.clockTime = t →
      LooksAt d0 t (missedMinute m d) := by
    intro d h hread hnow
    have hrun : LooksAt d0 t { jobRunqueue d with
        virtualTime := (jobRunqueue d).virtualTime + 1 } := h
    obtain ⟨cs, hcs, hall⟩ := hrun.findJobs (m := m) hread hnow
      (d.virtualTime + 1) false true
    refine ⟨cs, ?_, hall⟩
    unfold missedMinute
    rw [setTime_calls]
    exact hcs
  fun_induction Crond.missedMinutes m d with
  | case1 d hgo ih =>
      have hrunning : (missedMinute m d).timeRunning = t :=
        (missedMinute_timeRunning m d).trans ht
      exact ih (hone d h hread hnow) (setTime_read m false _)
        (hgo.2.trans hrunning) hrunning
  | case2 d _ => exact hone d h hread hnow

/-- A turn that is up to five minutes late, to the calls it makes. -/
theorem Turn.late_calls (h : Turn m d d')
    (hlt : d.virtualTime < d'.timeRunning)
    (hle : d'.timeRunning ≤ d.virtualTime + 5) :
    d'.calls = d.calls
      ++ (minutesAfter d.virtualTime
          (d'.timeRunning - d.virtualTime).toNat).map
        fun i => d'.call i true true := by
  obtain ⟨fuel, woken, hwait, rfl⟩ := h.woken
  obtain ⟨hv, hcalls⟩ := awaitMinute_shows hwait
  have hd : (loadDatabase m
      { woken with timeRunning := woken.clockTime }).virtualTime
        = d.virtualTime := hv
  have hc : (loadDatabase m
      { woken with timeRunning := woken.clockTime }).calls = d.calls :=
    hcalls
  generalize loadDatabase m
    { woken with timeRunning := woken.clockTime } = w at *
  obtain ⟨ht, -⟩ := catchUp_served m w
  have htime : (jobRunqueue (catchUp m w)).timeRunning = w.timeRunning := ht
  rw [htime, ← hd] at hlt hle ⊢
  rw [← hc]
  show (catchUp m w).calls = w.calls ++ List.map
    (fun i => (catchUp m w).call i true true) _
  unfold catchUp
  dsimp only
  split
  · next hone =>
    have hw : w.timeRunning = w.virtualTime + 1 := by omega
    rw [hw, minutesAfter_step (by omega), Int.sub_self]
    rfl
  · rcases wakeupKind_cases (w.timeRunning - w.virtualTime) with
      ⟨hkind, -, -⟩ | ⟨-, hmed, -⟩ | ⟨-, hneg, -⟩ | ⟨-, hfar⟩
    · rw [hkind]
      dsimp only
      obtain ⟨hlate, -, -, hstart, hgmt, hdb⟩ :=
        lateMinutes_shows (m := m) hlt
      unfold Daemon.call at hlate ⊢
      rw [hstart, hgmt, hdb]
      exact hlate
    · omega
    · omega
    · omega

/-- What a call picks does not depend on the minute it is made for. -/
theorem call_jobs_vtime (site : Site) (d : Daemon) (v v' : Int)
    (w n : Bool) :
    (d.call v w n).jobs site = (d.call v' w n).jobs site := rfl

/-- **Waking up late.** When crond wakes up `n` minutes after the last
minute it served, for an `n` up to five, it runs what is due in the
minute it woke up in, `n` times over; what was due in the minutes in
between and is not due now is not run. -/
theorem late_wakeup_repeats (hd : Reachable m granted d)
    (hgranted : ∀ n, granted n = true) (hturn : Turn m d d')
    (hlt : d.virtualTime < d'.timeRunning)
    (hle : d'.timeRunning ≤ d.virtualTime + 5) :
    d'.ran = d.ran
      ++ (List.replicate (d'.timeRunning - d.virtualTime).toNat
          ((d'.call d'.timeRunning true true).jobs m.site)).flatten := by
  obtain ⟨hgr, hempty⟩ := hd.idle
  obtain ⟨hsince, hdone⟩ := hturn.since hempty
  obtain ⟨cs, js, hcs, hjs, hpicked⟩ := hsince.ran hdone
  rw [hgr] at hpicked
  have hlate := hturn.late_calls hlt hle
  rw [hcs] at hlate
  rw [hjs, hpicked.all hgranted, List.append_cancel_left hlate]
  congr 1
  rw [List.flatMap_def, List.map_map]
  congr 1
  rw [List.eq_replicate_iff]
  refine ⟨?_, ?_⟩
  · rw [List.length_map, minutesAfter_length]
  · intro js hjs
    obtain ⟨i, -, rfl⟩ := List.mem_map.mp hjs
    exact call_jobs_vtime m.site d' i d'.timeRunning true true

/-- Three minutes late: both jobs are run three times. -/
theorem three_minutes_late :
    ∃ d, turn (greenwichMachine [0, 180]) 1
        (start (greenwichMachine [0, 180]) fun _ => true) = some d
      ∧ d.ran = (start (greenwichMachine [0, 180]) fun _ => true).ran
        ++ (List.replicate 3 ((d.call d.timeRunning true true).jobs
            (greenwichMachine [0, 180]).site)).flatten
      ∧ d.ran.map (fun j => j.e.addr) = [1, 2, 1, 2, 1, 2] := by
  have hran : (turn (greenwichMachine [0, 180]) 1
      (start (greenwichMachine [0, 180]) fun _ => true)).map
        (fun d => (d.timeRunning, d.ran.map fun j => j.e.addr))
      = some (3, [1, 2, 1, 2, 1, 2]) := by
    decide +kernel
  obtain ⟨d, hd, hdran⟩ := Option.map_eq_some_iff.mp hran
  injection hdran with htime haddr
  have hstart : (start (greenwichMachine [0, 180]) fun _ => true).virtualTime
      = 0 := by
    decide +kernel
  have hturn : Turn (greenwichMachine [0, 180])
      (start (greenwichMachine [0, 180]) fun _ => true) d := ⟨1, hd⟩
  have hlate := late_wakeup_repeats Relation.ReflTransGen.refl
    (fun _ => rfl) hturn (by omega) (by omega)
  have hthree : (d.timeRunning
      - (start (greenwichMachine [0, 180]) fun _ => true).virtualTime).toNat
        = 3 := by
    rw [hstart, htime]
    rfl
  rw [hthree] at hlate
  exact ⟨d, hd, hlate, haddr⟩

-- ===================================================== a clock set back

/-- A turn in which the clock shows a minute that was served before. -/
def SetBackTurn (m : Machine) (d d' : Daemon) : Prop :=
  Turn m d d' ∧ d'.timeRunning ≤ d.virtualTime
    ∧ d.virtualTime - 180 ≤ d'.timeRunning

theorem SetBackTurn.calls (h : SetBackTurn m d d') :
    d'.virtualTime = d.virtualTime
      ∧ ∃ c, d'.calls = d.calls ++ [c] ∧ c.doNonWild = false := by
  obtain ⟨hturn, hle, hge⟩ := h
  obtain ⟨cs, hcs, hserved⟩ := hturn.served
  generalize hticks : cs.map Call.tick = ts at hserved
  generalize d'.virtualTime = v' at hserved ⊢
  cases hserved with
  | late hlt _ => omega
  | missed n hlt _ _ _ => omega
  | leap hfar => omega
  | setBack _ _ =>
      obtain ⟨c, rfl⟩ : ∃ c, cs = [c] := by
        rw [← List.length_eq_one_iff, ← List.length_map (f := Call.tick),
          hticks]
        rfl
      injection hticks with htick
      refine ⟨rfl, c, hcs, ?_⟩
      exact congrArg (fun t => t.2.2) htick

/-- What a call picks that is not made for jobs without a star. -/
theorem wild_of_call {site : Site} {c : Call} (hc : c.doNonWild = false)
    {j : Job} (hj : j ∈ c.jobs site) : isWild j.e.entry = true := by
  unfold Call.jobs at hj
  rw [List.mem_filter] at hj
  obtain ⟨-, hw⟩ := hj
  unfold wanted at hw
  rw [hc] at hw
  split at hw
  · cases hw
  · rw [Bool.false_and, Bool.false_or, Bool.and_eq_true,
      Bool.and_eq_true] at hw
    exact hw.2.2

/-- **A clock set back.** As long as the clock shows minutes that were
served before, by up to three hours, nothing but jobs whose minute or
hour starts with a star is run, and the virtual clock waits. -/
theorem set_back_runs_wild (hd : Reachable m granted d)
    (h : Relation.ReflTransGen (SetBackTurn m) d d') :
    d'.virtualTime = d.virtualTime
      ∧ ∃ js, d'.ran = d.ran ++ js ∧ ∀ j ∈ js, isWild j.e.entry = true := by
  obtain ⟨-, hempty⟩ := hd.idle
  have hle : SetBackTurn m ≤ Turn m := fun _ _ hstep => hstep.1
  have hturns : Relation.ReflTransGen (Turn m) d d' :=
    Relation.ReflTransGen.mono hle d d' h
  obtain ⟨hsince, hdone⟩ := turns_since hturns hempty
  obtain ⟨cs, js, hcs, hjs, hpicked⟩ := hsince.ran hdone
  have hback : d'.virtualTime = d.virtualTime
      ∧ ∃ cs, d'.calls = d.calls ++ cs ∧ ∀ c ∈ cs, c.doNonWild = false := by
    clear hturns hsince hdone hcs hjs hpicked
    induction h with
    | refl => exact ⟨rfl, [], (List.append_nil _).symm, by simp⟩
    | tail _ hstep ih =>
        obtain ⟨hv, cs, hcs, hcs'⟩ := ih
        obtain ⟨hv', c, hc, hc'⟩ := hstep.calls
        refine ⟨hv'.trans hv, cs ++ [c], ?_, ?_⟩
        · rw [hc, hcs, List.append_assoc]
        · intro c' hmem
          rcases List.mem_append.mp hmem with hmem | hmem
          · exact hcs' c' hmem
          · rw [List.mem_singleton.mp hmem]
            exact hc'
  obtain ⟨hv, cs', hcs', hnone⟩ := hback
  have hsame : cs' = cs := List.append_cancel_left (hcs'.symm.trans hcs)
  refine ⟨hv, js, hjs, ?_⟩
  intro j hj
  obtain ⟨c, hc, hjc⟩ := List.mem_flatMap.mp (hpicked.sub.subset hj)
  rw [← hsame] at hc
  exact wild_of_call (hnone c hc) hjc

/-- The clock is set back by two minutes: the job without a star is not
run again. -/
theorem two_minutes_back :
    ∃ d, turn (greenwichMachine [180, 60]) 1
        (start (greenwichMachine [180, 60]) fun _ => true) = some d
      ∧ d.virtualTime
        = (start (greenwichMachine [180, 60]) fun _ => true).virtualTime
      ∧ (∃ js, d.ran
          = (start (greenwichMachine [180, 60]) fun _ => true).ran ++ js
        ∧ ∀ j ∈ js, isWild j.e.entry = true)
      ∧ d.ran.map (fun j => j.e.addr) = [1] := by
  have hran : (turn (greenwichMachine [180, 60]) 1
      (start (greenwichMachine [180, 60]) fun _ => true)).map
        (fun d => (d.timeRunning, d.ran.map fun j => j.e.addr))
      = some (1, [1]) := by
    decide +kernel
  obtain ⟨d, hd, hdran⟩ := Option.map_eq_some_iff.mp hran
  injection hdran with htime haddr
  have hstart : (start (greenwichMachine [180, 60]) fun _ => true).virtualTime
      = 3 := by
    decide +kernel
  have hback : SetBackTurn (greenwichMachine [180, 60])
      (start (greenwichMachine [180, 60]) fun _ => true) d :=
    ⟨⟨1, hd⟩, by omega, by omega⟩
  obtain ⟨hv, hjs⟩ := set_back_runs_wild Relation.ReflTransGen.refl
    (Relation.ReflTransGen.single hback)
  exact ⟨d, hd, hv, hjs, haddr⟩

end

end Tinjac.Crond
