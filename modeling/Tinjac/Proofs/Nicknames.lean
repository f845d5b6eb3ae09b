/-
The nicknames and the fields they stand for.

The manual explains `@daily` as `0 0 * * *`, and so on. Both ways of
writing a schedule lead to the same job on the same legal values
(`Nick.values_agree`), but the nicknames pick their star flags by hand
and set one bit more than the field has, and `printTime` looks at both.
So `@yearly` is announced like its fields, the nicknames for every day
never are, and `@monthly`, for which neither search finds a day, is
except in January, where one of them gives up.
-/
import Tinjac.Proofs.Alike
import Tinjac.Proofs.Formats
import Tinjac.Proofs.Due

namespace Tinjac

open Span BlockHeap CHeap

-- =========================================================== nicknames

/-- The nicknames that stand for five fields. -/
inductive Nick
  | yearly | annually | monthly | weekly | daily | midnight | hourly
deriving DecidableEq, Repr

abbrev zero : UInt8 := 48
abbrev one : UInt8 := 49

/-- Five words of one character each. -/
def charWords (c1 c2 c3 c4 c5 : UInt8)
    (h : ∀ c ∈ [c1, c2, c3, c4, c5], isNonblank c = true) : FiveWords where
  w1 := [c1]
  w2 := [c2]
  w3 := [c3]
  w4 := [c4]
  w5 := [c5]
  g1 := [space]
  g2 := [space]
  g3 := [space]
  g4 := [space]
  word1 := ⟨List.cons_ne_nil _ _, by simpa using h c1 (by simp)⟩
  word2 := ⟨List.cons_ne_nil _ _, by simpa using h c2 (by simp)⟩
  word3 := ⟨List.cons_ne_nil _ _, by simpa using h c3 (by simp)⟩
  word4 := ⟨List.cons_ne_nil _ _, by simpa using h c4 (by simp)⟩
  word5 := ⟨List.cons_ne_nil _ _, by simpa using h c5 (by simp)⟩
  gap1 := gap_space
  gap2 := gap_space
  gap3 := gap_space
  gap4 := gap_space

namespace Nick

/-- The nickname, without its `@`. -/
def name : Nick → List UInt8
  | yearly => bytes "yearly"
  | annually => bytes "annually"
  | monthly => bytes "monthly"
  | weekly => bytes "weekly"
  | daily => bytes "daily"
  | midnight => bytes "midnight"
  | hourly => bytes "hourly"

/-- The five fields that a nickname stands for, as the manual has them. -/
def documented : Nick → List UInt8
  | yearly => bytes "0 0 1 1 *"
  | annually => bytes "0 0 1 1 *"
  | monthly => bytes "0 0 1 * *"
  | weekly => bytes "0 0 * * 0"
  | daily => bytes "0 0 * * *"
  | midnight => bytes "0 0 * * *"
  | hourly => bytes "0 * * * *"

def words : Nick → FiveWords
  | yearly => charWords zero zero one one star (by decide +kernel)
  | annually => charWords zero zero one one star (by decide +kernel)
  | monthly => charWords zero zero one star star (by decide +kernel)
  | weekly => charWords zero zero star star zero (by decide +kernel)
  | daily => charWords zero zero star star star (by decide +kernel)
  | midnight => charWords zero zero star star star (by decide +kernel)
  | hourly => charWords zero star star star star (by decide +kernel)

/-- The nickname, as a schedule. -/
def short (n : Nick) : Schedule :=
  .nickname n.name (by cases n <;> decide +kernel)

/-- Its five fields, as a schedule. -/
def long (n : Nick) : Schedule :=
  .five n.words (by cases n <;> decide) (by cases n <;> decide)

theorem long_text (n : Nick) : n.long.text = n.documented := by
  cases n <;> rfl

end Nick

-- ============================================= what is loaded for them

/-- The sets and flags that go into the entry. -/
def Schedule.loaded (s : Schedule) : Bitmaps × Nat :=
  ((s.read 0).map fun r => (foldSundays r.1, r.2)).getD (.zero, 0)

/-- An entry loaded from the schedule: it has the sets and flags, whatever
its job. -/
def Schedule.Loads (s : Schedule) (e : Entry) : Prop :=
  e.bits = s.loaded.1 ∧ e.flags = s.loaded.2

namespace Nick

theorem short_taken (n : Nick) : n.short.Taken := by
  show n.name ∈ nicknames
  cases n <;> decide

theorem long_taken (n : Nick) : n.long.Taken := by
  have hsome : (n.long.read 0).isSome = true := by
    cases n <;> decide +kernel
  exact Schedule.read_isSome.mp hsome

/-- **The legal values** of a nickname are those of its five fields. -/
theorem values_agree (n : Nick) : ∀ f ∈ fields,
    ∀ i ≤ (f.high.toInt - f.low.toInt).toNat,
      bitTest n.short.loaded.1 f.name i
        = bitTest n.long.loaded.1 f.name i := by
  cases n <;> decide +kernel

/-- The nicknames that stand for some hour of every day. -/
def everyDay : Nick → Bool
  | weekly | daily | midnight | hourly => true
  | yearly | annually | monthly => false

/-- The flags of the nicknames: those for every day do not say so. -/
theorem flags_day (n : Nick) : n.everyDay = true →
    hasFlag n.short.loaded.2 domStar = false
      ∧ hasFlag n.long.loaded.2 domStar = true := by
  cases n <;> decide +kernel

theorem flags_time (n : Nick) :
    hasFlag n.short.loaded.2 hrStar = hasFlag n.long.loaded.2 hrStar
      ∧ hasFlag n.short.loaded.2 minStar
        = hasFlag n.long.loaded.2 minStar := by
  cases n <;> decide +kernel

/-- Every month and the one behind are set; the list sets the months. -/
theorem months_set (n : Nick) :
    n.everyDay = true ∨ n = .monthly →
      (∀ i ≤ 12, bitTest n.short.loaded.1 monthField.name i = true)
        ∧ ∀ i ≤ 11, bitTest n.long.loaded.1 monthField.name i = true := by
  cases n <;> decide +kernel

theorem first_minute_and_hour (n : Nick) :
    (bitTest n.short.loaded.1 hourField.name 0 = true
        ∧ bitTest n.short.loaded.1 minuteField.name 0 = true)
      ∧ bitTest n.long.loaded.1 hourField.name 0 = true
        ∧ bitTest n.long.loaded.1 minuteField.name 0 = true := by
  cases n <;> decide +kernel

/-- `@monthly` and its fields set no day behind the first, and star
none. -/
theorem monthly_days : ∀ i ≤ 31, 1 ≤ i →
    bitTest monthly.short.loaded.1 domField.name i = false
      ∧ bitTest monthly.long.loaded.1 domField.name i = false := by
  decide +kernel

theorem monthly_flags : hasFlag monthly.short.loaded.2 domStar = false
    ∧ hasFlag monthly.long.loaded.2 domStar = false
    ∧ bitTest monthly.long.loaded.1 monthField.name 12 = false := by
  decide +kernel

/-- `@yearly` is loaded like its fields, also behind the last value. -/
theorem yearly_bits (n : Nick) : n = .yearly ∨ n = .annually →
    n.short.loaded.2 = n.long.loaded.2
      ∧ (∀ i ≤ 12, bitTest n.short.loaded.1 monthField.name i
        = bitTest n.long.loaded.1 monthField.name i)
      ∧ ∀ i ≤ 31, bitTest n.short.loaded.1 domField.name i
        = bitTest n.long.loaded.1 domField.name i := by
  cases n <;> decide +kernel

/-- A row shows no index above those of its field. -/
theorem row_in_field : ∀ f ∈ fields, ∀ {i : Nat},
    i < bitIndex f.low + (bitIndex f.high - bitIndex f.low) →
      i ≤ (f.high.toInt - f.low.toInt).toNat := by
  rw [forall_fields]
  have h : ∀ f ∈ fields, bitIndex f.low
      + (bitIndex f.high - bitIndex f.low)
      ≤ (f.high.toInt - f.low.toInt).toNat + 1 := by decide
  rw [forall_fields] at h
  obtain ⟨h1, h2, h3, h4, h5⟩ := h
  exact ⟨by omega, by omega, by omega, by omega, by omega⟩

section

variable {n : Nick} {now : Tm} {e e' : Entry}

theorem startsOver (n : Nick) (h : n.short.Loads e)
    (h' : n.long.Loads e') : e.StartsOver ∧ e'.StartsOver := by
  obtain ⟨⟨hhour, hmin⟩, hhour', hmin'⟩ := n.first_minute_and_hour
  rw [← h.1] at hhour hmin
  rw [← h'.1] at hhour' hmin'
  exact ⟨startsOver_of_bits hhour (by decide) hmin (by decide),
    startsOver_of_bits hhour' (by decide) hmin' (by decide)⟩

/-- The rows of digits show legal values. -/
theorem printRows_alike (h : n.short.Loads e) (h' : n.long.Loads e') :
    printRows e = printRows e' := by
  have hrow : ∀ (label : String), ∀ f ∈ fields,
      printRow e label f = printRow e' label f := by
    intro label f hf
    unfold printRow
    rw [h.1, h'.1]
    congr 1
    apply List.map_congr_left
    intro i hi
    obtain ⟨-, hlast⟩ := List.mem_range'_1.mp hi
    exact n.values_agree f hf i (row_in_field f hf hlast)
  unfold printRows
  rw [hrow _ minuteField (by simp [fields]),
    hrow _ hourField (by simp [fields]), hrow _ domField (by simp [fields]),
    hrow _ monthField (by simp [fields]), hrow _ dowField (by simp [fields])]

/-- Hours and minutes are searched alike. -/
theorem time_alike (h : n.short.Loads e) (h' : n.long.Loads e') :
    (∀ hour, e.hourAt hour = e'.hourAt hour)
      ∧ ∀ min, e.minuteAt min = e'.minuteAt min := by
  obtain ⟨hhour, hmin⟩ := n.flags_time
  rw [← h.2, ← h'.2] at hhour hmin
  have hvalues := n.values_agree
  rw [← h.1, ← h'.1] at hvalues
  refine ⟨Entry.hourAt_congr hhour ?_, Entry.minuteAt_congr hmin ?_⟩
  · exact hvalues hourField (by simp [fields])
  · exact hvalues minuteField (by simp [fields])

theorem yearly_alike (hn : n = .yearly ∨ n = .annually)
    (h : n.short.Loads e) (h' : n.long.Loads e') : e.ScansAlike e' := by
  obtain ⟨hflags, hmonth, hdom⟩ := n.yearly_bits hn
  have hvalues := n.values_agree
  rw [← h.1, ← h'.1] at hmonth hdom hvalues
  rw [← h.2, ← h'.2] at hflags
  exact Entry.scansAlike_of_bits hflags hmonth hdom
    (hvalues hourField (by simp [fields]))
    (hvalues minuteField (by simp [fields]))

theorem everyDay_differ (hn : n.everyDay = true) (hnow : now.Valid)
    (h : n.short.Loads e) (h' : n.long.Loads e') :
    ¬ ∀ res, Computes e now res ↔ Computes e' now res := by
  obtain ⟨hs, hs'⟩ := n.startsOver h h'
  obtain ⟨hstar, hstar'⟩ := n.flags_day hn
  obtain ⟨hmonth, hmonth'⟩ := n.months_set (Or.inl hn)
  obtain ⟨hhour, hmin⟩ := time_alike h h'
  rw [← h.1] at hmonth
  rw [← h.2] at hstar
  rw [← h'.1] at hmonth'
  rw [← h'.2] at hstar'
  exact Entry.not_alike_of_domStar hs hs' hstar hstar' hmonth hmonth' hhour
    hmin hnow.mon

/-- No day of the month is ever found for `@monthly`. -/
theorem monthly_noDay (h : monthly.short.Loads e)
    (h' : monthly.long.Loads e') :
    (∀ mday, 1 ≤ mday → e.domAt mday = none)
      ∧ ∀ mday, 1 ≤ mday → e'.domAt mday = none := by
  obtain ⟨hstar, hstar', -⟩ := monthly_flags
  rw [← h.2] at hstar
  rw [← h'.2] at hstar'
  refine ⟨?_, ?_⟩
  · intro mday hmday
    unfold Entry.domAt
    rw [if_neg (by rw [hstar]; decide), Option.map_eq_none_iff,
      scan_eq_none, h.1]
    exact fun i hi hlast => (monthly_days i hlast (by omega)).1
  · intro mday hmday
    unfold Entry.domAt
    rw [if_neg (by rw [hstar']; decide), Option.map_eq_none_iff,
      scan_eq_none, h'.1]
    exact fun i hi hlast => (monthly_days i hlast (by omega)).2

theorem monthly_alike_iff (hnow : now.Valid) (h : monthly.short.Loads e)
    (h' : monthly.long.Loads e') :
    (∀ res, Computes e now res ↔ Computes e' now res) ↔ now.mon ≠ 0 := by
  obtain ⟨hdom, hdom'⟩ := monthly_noDay h h'
  obtain ⟨hset, -⟩ := monthly.months_set (Or.inr rfl)
  rw [← h.1] at hset
  have hmon := hnow.mon
  -- the five fields know no month behind December
  have hmonth' : ∀ mon, 11 < mon → e'.MonthFails false mon := by
    intro mon hlt
    refine ⟨fun hfirst => absurd hfirst.1 (by decide), ?_⟩
    rw [scan_eq_none, h'.1]
    intro i hi hlast
    obtain rfl : i = 12 := by omega
    exact monthly_flags.2.2
  have hmonth : ∀ mon, 12 < mon → e.MonthFails false mon := by
    intro mon hlt
    refine ⟨fun hfirst => absurd hfirst.1 (by decide), ?_⟩
    rw [scan_eq_none]
    intro i hi hlast
    omega
  have hnever' : ∀ res, ¬ Computes e' now res := by
    intro res
    rw [computes_iff_comes]
    exact not_comes_of_noDay hmonth' hdom' (by omega) (by omega)
      (fun _ => hmon) hnow.mday_pos res
  constructor
  · intro hall hjanuary
    have hgives : Computes e now (.error domMsg) := by
      rw [computes_iff_comes]
      have hmonths : now.mon + 12 = 12 := by omega
      exact comes_giveUp hset hdom hjanuary hmonths hnow.mday_pos
    exact hnever' _ ((hall _).mp hgives)
  · intro hlater res
    have hnever : ¬ Computes e now res := by
      rw [computes_iff_comes]
      exact not_comes_of_noDay hmonth hdom (by omega) (by omega)
        (fun _ => by omega) hnow.mday_pos res
    exact iff_of_false hnever (hnever' res)

/-- When a nickname is announced like its fields: the yearly ones always,
the monthly one unless it is January, and the others never. -/
def Announced (n : Nick) (now : Tm) : Prop :=
  n = .yearly ∨ n = .annually ∨ n = .monthly ∧ now.mon ≠ 0

theorem computeAlike_iff_announced (n : Nick) (hnow : now.Valid)
    (h : n.short.Loads e) (h' : n.long.Loads e') :
    ComputeAlike now e e' ↔ n.Announced now := by
  have hsearch : ComputeAlike now e e'
      ↔ ∀ res, Computes e now res ↔ Computes e' now res :=
    ⟨ComputeAlike.search, fun h0 => ⟨printRows_alike h h', h0⟩⟩
  rw [hsearch]
  have hyes : n = .yearly ∨ n = .annually →
      ((∀ res, Computes e now res ↔ Computes e' now res)
        ↔ n.Announced now) := by
    intro hn
    have halike := yearly_alike hn h h'
    exact iff_of_true halike.computes (hn.imp_right Or.inl)
  have hno : n.everyDay = true →
      ((∀ res, Computes e now res ↔ Computes e' now res)
        ↔ n.Announced now) := by
    intro hn
    refine iff_of_false (everyDay_differ hn hnow h h') ?_
    intro hgiven
    rcases hgiven with rfl | rfl | ⟨rfl, -⟩
    · cases hn
    · cases hn
    · cases hn
  cases n with
  | yearly => exact hyes (Or.inl rfl)
  | annually => exact hyes (Or.inr rfl)
  | monthly =>
      rw [monthly_alike_iff hnow h h']
      simp [Announced]
  | weekly => exact hno rfl
  | daily => exact hno rfl
  | midnight => exact hno rfl
  | hourly => exact hno rfl

end

end Nick

-- =========================================================== two calls

/-- One job: command, user, environment, the legal values of the five
sets, and what `printTime` makes of it. -/
structure SameJob (now : Tm) (e e' : Entry) : Prop where
  cmd : e.cmd = e'.cmd
  user : e.pwd = e'.pwd
  environment : e.envp = e'.envp
  values : ∀ f ∈ fields, ∀ i ≤ (f.high.toInt - f.low.toInt).toNat,
    bitTest e.bits f.name i = bitTest e'.bits f.name i
  announced : ComputeAlike now e e'

/-- Both calls reject their line, or both return the same job, on heaps
that are equal. -/
def Interchangeable (now : Tm) (r r' : LoadResult) : Prop :=
  (r.entry = none ∧ r'.entry = none)
    ∨ ∃ e e', r.entry = some e ∧ r'.entry = some e' ∧ r.heap = r'.heap
      ∧ SameJob now e e'

section

variable {getpwnam : CString → Option Passwd} {pw : Option Passwd}
  {h : CHeap} {envp : Nat} {fname : String} {errorFunc : Bool}
  {gap l : List UInt8}

/-- What follows the schedule is a job that `load_entry` takes. -/
def JobFollows (getpwnam : CString → Option Passwd) (pw : Option Passwd)
    (h : CHeap) (envp : Nat) (fname : String) (l : List UInt8) : Prop :=
  ¬ Schedule.EndsEarly l ∧ JobTaken getpwnam pw h envp fname l

/-- The line of a schedule with a job behind it. -/
theorem Schedule.readEntry_follows {s : Schedule} (hs : s.Taken)
    (hgap : Gap gap) (hl : Stops isBlank l)
    (hend : ¬ EndsEarly l) :
    readEntry getpwnam errorFunc pw h envp fname (s.text ++ (gap ++ l))
      = (readJob getpwnam pw h envp fname s.loaded.1 s.loaded.2 l).finish
          errorFunc fname := by
  have hsome : (s.read 0).isSome = true := read_isSome.mpr hs
  obtain ⟨⟨bits, flags⟩, hread⟩ := Option.isSome_iff_exists.mp hsome
  have hloaded : s.loaded = (foldSundays bits, flags) := by
    unfold loaded
    rw [hread]
    rfl
  rw [s.readEntry_taken hgap hl hend hread, hloaded]

theorem Schedule.readEntry_none {s : Schedule} (hs : s.Taken)
    (hgap : Gap gap) (hl : Stops isBlank l)
    (hno : ¬ JobFollows getpwnam pw h envp fname l) :
    (readEntry getpwnam errorFunc pw h envp fname
      (s.text ++ (gap ++ l))).entry = none := by
  by_cases hend : EndsEarly l
  · exact s.readEntry_rejected hs.no_hash hgap hl (Or.inl hend)
  · rw [readEntry_follows hs hgap hl hend]
    apply finish_none
    intro e he
    exact hno ⟨hend, readJob_entry_iff.mp ⟨e, he⟩⟩

/-- **The nicknames.** The line of a nickname and the line of its five
fields are interchangeable, whatever follows, if and only if what follows
is no job, so that both are rejected, or the two are announced alike. -/
theorem nickname_interchangeable_iff (n : Nick) {now : Tm}
    (hnow : now.Valid) (getpwnam : CString → Option Passwd)
    (errorFunc : Bool) (pw : Option Passwd) (h : CHeap) (envp : Nat)
    (fname : String) {c : UInt8} (hc : isBlank c = true)
    (rest : List UInt8) {fuel : Nat} (hfuel : rest.length + 12 ≤ fuel) :
    ∃ r r',
      loadEntry fuel getpwnam
          (Stream.ofBytes ((atSign :: n.name) ++ c :: rest)) errorFunc pw h
          envp fname = some r
        ∧ loadEntry fuel getpwnam
            (Stream.ofBytes (n.documented ++ c :: rest)) errorFunc pw h
            envp fname = some r'
        ∧ (Interchangeable now r r'
          ↔ n.Announced now ∨ ¬ JobFollows getpwnam pw h envp fname
              (rest.dropWhile isBlank)) := by
  have hlen : n.name.length ≤ 8 ∧ n.documented.length = 9 := by
    cases n <;> decide
  have hshort : ((atSign :: n.name) ++ c :: rest).length + 2 ≤ fuel := by
    simp only [List.cons_append, List.length_cons, List.length_append]
    omega
  have hlong : (n.documented ++ c :: rest).length + 2 ≤ fuel := by
    simp only [List.length_cons, List.length_append]
    omega
  obtain ⟨r, hr, hshows⟩ := loadEntry_text getpwnam
    (Stream.ofBytes ((atSign :: n.name) ++ c :: rest)) errorFunc pw h envp
    fname rfl hshort
  obtain ⟨r', hr', hshows'⟩ := loadEntry_text getpwnam
    (Stream.ofBytes (n.documented ++ c :: rest)) errorFunc pw h envp fname
    rfl hlong
  refine ⟨r, r', hr, hr', ?_⟩
  -- the blanks behind the schedule are the gap, and then comes the job
  obtain ⟨gap, l, hgap, hl, hsplit, hdrop⟩ :
      ∃ gap l, Gap gap ∧ Stops isBlank l ∧ c :: rest = gap ++ l
        ∧ rest.dropWhile isBlank = l := by
    refine ⟨c :: rest.takeWhile isBlank, rest.dropWhile isBlank,
      ⟨List.cons_ne_nil _ _, ?_⟩, stops_dropWhile _ _, ?_, rfl⟩
    · intro b hb
      rcases List.mem_cons.mp hb with rfl | hb
      · exact hc
      · exact List.mem_takeWhile_imp hb
    · rw [List.cons_append, List.takeWhile_append_dropWhile]
  have hshort : EntryShows (readEntry getpwnam errorFunc pw h envp fname
      (n.short.text ++ (gap ++ l))) r := by
    rw [← hsplit]
    exact hshows
  have hlong : EntryShows (readEntry getpwnam errorFunc pw h envp fname
      (n.long.text ++ (gap ++ l))) r' := by
    rw [← hsplit, n.long_text]
    exact hshows'
  rw [hdrop]
  unfold Interchangeable
  rw [hshort.entry, hlong.entry, hshort.heap, hlong.heap]
  by_cases hjob : JobFollows getpwnam pw h envp fname l
  · -- both lines are taken, with the same job
    obtain ⟨hend, pw', t', stand, huser, hcmd, envp', h', log, hprep, hg⟩ :=
      hjob
    rw [Schedule.readEntry_follows n.short_taken hgap hl hend,
      Schedule.readEntry_follows n.long_taken hgap hl hend,
      readJob_granted huser hcmd hprep hg,
      readJob_granted huser hcmd hprep hg]
    have hloads : ∀ (s : Schedule) (pwd : Passwd) (cmd : CString),
        s.Loads { pwd := pwd, envp := envp', cmd := cmd,
                  bits := s.loaded.1, flags := s.loaded.2 } :=
      fun _ _ _ => ⟨rfl, rfl⟩
    rw [← n.computeAlike_iff_announced hnow (hloads n.short _ _)
      (hloads n.long _ _)]
    constructor
    · intro hsame
      rcases hsame with ⟨hnone, -⟩ | ⟨e, e', he, he', -, hjob⟩
      · cases hnone
      · injection he with he
        injection he' with he'
        rw [he, he']
        exact Or.inl hjob.announced
    · intro hcond
      refine Or.inr ⟨_, _, rfl, rfl, rfl, rfl, rfl, rfl, n.values_agree, ?_⟩
      refine hcond.resolve_right fun hno => hno ?_
      exact ⟨hend, pw', t', stand, huser, hcmd, envp', h', log, hprep, hg⟩
  · rw [Schedule.readEntry_none n.short_taken hgap hl hjob,
      Schedule.readEntry_none n.long_taken hgap hl hjob]
    exact iff_of_true (Or.inl ⟨rfl, rfl⟩) (Or.inr hjob)

end

/-- `@yearly` behind a user and a command is what its fields are. -/
theorem yearly_interchangeable :
    ∃ r r',
      loadEntry 64 rootOnly
          (Stream.ofBytes ((atSign :: Nick.yearly.name)
            ++ space :: bytes "root true\n")) false none freshHeap 0
          "crontab" = some r
        ∧ loadEntry 64 rootOnly
            (Stream.ofBytes (Nick.yearly.documented
              ++ space :: bytes "root true\n")) false none freshHeap 0
            "crontab" = some r'
        ∧ Interchangeable januaryMorning r r' := by
  have hblank : isBlank space = true := by decide
  have hfuel : (bytes "root true\n").length + 12 ≤ 64 := by decide
  obtain ⟨r, r', hr, hr', hiff⟩ :=
    nickname_interchangeable_iff .yearly januaryMorning_valid rootOnly
      false none freshHeap 0 "crontab" hblank (bytes "root true\n") hfuel
  exact ⟨r, r', hr, hr', hiff.mpr (Or.inl (Or.inl rfl))⟩

/-- `@daily` is announced for the day after tomorrow, its fields for
tomorrow. -/
theorem daily_not_interchangeable :
    ¬ (∀ r r',
      loadEntry 64 rootOnly
          (Stream.ofBytes ((atSign :: Nick.daily.name)
            ++ space :: bytes "root true\n")) false none freshHeap 0
          "crontab" = some r →
      loadEntry 64 rootOnly
          (Stream.ofBytes (Nick.daily.documented
            ++ space :: bytes "root true\n")) false none freshHeap 0
          "crontab" = some r' →
      Interchangeable januaryMorning r r') := by
  intro hall
  have hshort : (loadEntry 64 rootOnly
      (Stream.ofBytes ((atSign :: Nick.daily.name)
        ++ space :: bytes "root true\n")) false none freshHeap 0
      "crontab").map (fun r => r.entry.map (nextTime 3 · januaryMorning))
      = some (some (some (.ok
          { sec := 0, min := 0, hour := 0, mday := 12, mon := 0,
            year := 124 }))) := by
    decide +kernel
  have hlong : (loadEntry 64 rootOnly
      (Stream.ofBytes (Nick.daily.documented
        ++ space :: bytes "root true\n")) false none freshHeap 0
      "crontab").map (fun r => r.entry.map (nextTime 3 · januaryMorning))
      = some (some (some (.ok
          { sec := 0, min := 0, hour := 0, mday := 11, mon := 0,
            year := 124 }))) := by
    decide +kernel
  obtain ⟨r, hr, hentry⟩ := Option.map_eq_some_iff.mp hshort
  obtain ⟨r', hr', hentry'⟩ := Option.map_eq_some_iff.mp hlong
  obtain ⟨e, he, hnext⟩ := Option.map_eq_some_iff.mp hentry
  obtain ⟨e', he', hnext'⟩ := Option.map_eq_some_iff.mp hentry'
  rcases hall r r' hr hr' with ⟨hnone, -⟩ | ⟨e1, e2, h1, h2, -, hjob⟩
  · rw [hnone] at he
    cases he
  · rw [he] at h1
    rw [he'] at h2
    injection h1 with h1
    injection h2 with h2
    subst h1 h2
    -- what one of them computes, the other one computes too
    have hcomputes := (hjob.announced.search _).mp ⟨3, hnext⟩
    have hsame := hcomputes.unique ⟨3, hnext'⟩
    injection hsame with hsame
    have hmday := congrArg Tm.mday hsame
    exact absurd hmday (by decide)

end Tinjac
