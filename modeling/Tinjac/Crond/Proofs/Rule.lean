/-
When crond runs the job of a line.

`find_jobs` tests bits and flags of an entry against a broken-down time.
For the entry of a well-formed line this test is the rule of crontab(5),
read off the line itself (`JobLine.DueAt`): minute, hour and month are
among the values their lists denote, and of the two day fields one must
match, or both if one of them starts with a star. The bits are those
`load_entry` sets here, since the two agree on them
(`loadEntry_ported`).
-/
import Tinjac.Crond.Proofs.Port
import Tinjac.Crond.Proofs.Queue

namespace Tinjac

open Span BlockHeap CHeap

-- ============================================================== the rule

instance (f : Field) (r : Range) (v : Int) : Decidable (r.Denotes f v) :=
  match r with
  | .star step =>
      inferInstanceAs (Decidable (Progression.Steps _ _ (stepMeaning step) v))
  | .single _ => inferInstanceAs (Decidable (v = _))
  | .span _ _ step =>
      inferInstanceAs (Decidable (Progression.Steps _ _ (stepMeaning step) v))

instance {f : Field} (l : FieldList f) : DecidablePred l.Denotes :=
  fun v => inferInstanceAs (Decidable (∃ r ∈ l.ranges, r.Denotes f v))

instance (S : Int → Prop) [DecidablePred S] :
    DecidablePred (SundayClosed S) :=
  fun v => inferInstanceAs (Decidable (S v ∨ (v = 0 ∨ v = 7) ∧ (S 0 ∨ S 7)))

namespace JobLine

/-- The rule of crontab(5) for a line: minute, hour and month match, and
one of the two day fields does, or both if one of them starts with a star.
-/
def DueAt (l : JobLine) (t : Tm) : Prop :=
  l.minute.Denotes t.min ∧ l.hour.Denotes t.hour
    ∧ l.month.Denotes (t.mon + 1)
    ∧ if l.dom.Starred ∨ l.dow.Starred then
        l.dom.Denotes t.mday ∧ SundayClosed l.dow.Denotes t.wday
      else l.dom.Denotes t.mday ∨ SundayClosed l.dow.Denotes t.wday

instance (l : JobLine) : DecidablePred l.DueAt := fun _ =>
  inferInstanceAs (Decidable (_ ∧ _ ∧ _ ∧ ite _ _ _))

/-- The sets of a line, with Sunday under both its numbers. -/
theorem folded_holds (l : JobLine) :
    (foldSundays l.filled).Holds minuteField l.minute.Denotes
      ∧ (foldSundays l.filled).Holds hourField l.hour.Denotes
      ∧ (foldSundays l.filled).Holds domField l.dom.Denotes
      ∧ (foldSundays l.filled).Holds monthField l.month.Denotes
      ∧ (foldSundays l.filled).Holds dowField
        (SundayClosed l.dow.Denotes) := by
  obtain ⟨h1, h2, h3, h4, h5⟩ := l.filled_holds
  exact ⟨holds_foldSundays (by simp [fields]) (by decide) h1,
    holds_foldSundays (by simp [fields]) (by decide) h2,
    holds_foldSundays (by simp [fields]) (by decide) h3,
    holds_foldSundays (by simp [fields]) (by decide) h4,
    holds_foldSundays_dow h5⟩

/-- What crond's `load_entry` makes of a line: an entry with the sets, the
flags, the user and the command that the line is written with. -/
structure Made (l : JobLine) (pw : Passwd) (e : Entry) : Prop where
  bits : e.bits = foldSundays l.filled
  flags : e.flags = l.flags
  pwd : e.pwd = bzeroPasswd pw
  cmd : e.cmd.bytes = l.cmd

/-- The line is loaded as it is written, if there is memory. -/
theorem loaded (l : JobLine) {getpwnam : CString → Option Passwd}
    {pw : Passwd} (hknown : getpwnam (CString.ofBuf l.user) = some pw)
    {h : CHeap} (hgranted : AllGranted h) {file : Stream}
    {more : List UInt8}
    (huse : usefulText file.rest = usefulText (l.text ++ more)) (fuel : Nat)
    (errorFunc : Bool) (envp : Nat) (fname : String) :
    ∃ r e, loadEntry fuel getpwnam file errorFunc none h envp fname = some r
      ∧ r.entry = some e ∧ l.Made pw e ∧ r.file.rest = more := by
  obtain ⟨envp', h', log, hprep, hg'⟩ :=
    hgranted.prepareJob envp pw fname
  have huser : readUser getpwnam none (l.job ++ more)
      = .ok (pw, l.cmd ++ newline :: more,
          l.sep :: (l.cmd ++ newline :: more)) := by
    have hjob : l.job ++ more
        = l.user ++ (l.sep :: (l.cmd ++ newline :: more)) := by
      simp [JobLine.job]
    rw [hjob]
    exact readUser_system l.user_token hknown l.user_short l.sep_blank _
  have hstop : Stops (isToken lineTerms) (newline :: more) :=
    stops_cons.mpr (by decide)
  have hdrop := dropWhile_run l.cmd_token hstop
  have htake := takeWhile_run l.cmd_token hstop
  have hkept : kept l.cmd = l.cmd := by
    have hshort := l.cmd_short
    exact List.take_of_length_le (by unfold maxCommand at hshort ⊢; omega)
  have hread := l.readUseful_text getpwnam h envp fname more
  rw [readJob_granted huser (by rw [hdrop]; exact List.cons_ne_nil _ _)
    hprep (hg' _), hdrop, htake, hkept, ← huse] at hread
  obtain ⟨file', hload, hleft⟩ := loadEntry_entry hread rfl fuel errorFunc
  exact ⟨_, _, hload, rfl,
    ⟨rfl, rfl, rfl, CString.ofBuf_bytes (nul_not_mem_of_token l.cmd_token)⟩,
    hleft⟩

end JobLine

namespace Crond

/-- A value of a field, where its bit is. -/
theorem holds_nat {bits : Bitmaps} {f : Field} {S : Int → Prop}
    (h : bits.Holds f S) {n k : Nat} (hk : (k : Int) = n - f.low.toInt)
    (hlow : f.low.toInt ≤ n) (hhigh : (n : Int) ≤ f.high.toInt) :
    bitTest bits f.name k = true ↔ S n := by
  have hbit := h n hlow hhigh
  have hindex : ((n : Int) - f.low.toInt).toNat = k := by omega
  rw [hindex] at hbit
  exact hbit

/-- The 0-based values of a broken-down time. -/
def ticksOf (t : Tm) : Ticks :=
  { minute := t.min, hour := t.hour, dom := t.mday - 1, month := t.mon
    dow := t.wday }

/-- `maketime` looks at the local time in the job's zone, and at nothing
else. -/
theorem maketime_eq (site : Site) (startTime : Int)
    (tz1 tz2 : Option (List UInt8)) :
    maketime site startTime tz1 tz2
      = ticksOf (site.localtime (maketimeTz tz1 tz2) startTime).tm := rfl

/-- There are seven weekdays, counted from 0, so the weekday of a time is
in the field. -/
theorem wday_le (t : Tm) : t.wday ≤ 6 := by
  unfold Tm.wday Gregorian.weekday
  omega

/-- Any flag but the month's is the same in both. -/
theorem FlagsPorted.other {flags' flags : Nat}
    (h : FlagsPorted flags' flags) {flag : Nat}
    (hflag : hasFlag monStar flag = false) :
    hasFlag flags' flag = hasFlag flags flag := by
  rcases h.same_or with heq | heq
  · rw [heq]
  · rw [heq]
    unfold hasFlag at hflag ⊢
    rw [bne_eq_false_iff_eq] at hflag
    rw [Nat.and_or_distrib_right, hflag, Nat.or_zero]

/-- One of two flags is set if one of them is. -/
theorem hasFlag_either (flags flag flag' : Nat) :
    hasFlag flags (flag ||| flag')
      = (hasFlag flags flag || hasFlag flags flag') := by
  unfold hasFlag
  rw [Nat.and_or_distrib_left, Bool.eq_iff_iff, Bool.or_eq_true,
    bne_iff_ne, bne_iff_ne, bne_iff_ne, ne_eq, Nat.or_eq_zero_iff, not_and_or]

/-- The test of `find_jobs` on the entry of a line. -/
theorem isNow_iff (l : JobLine) {e : Entry}
    (hbits : e.bits = foldSundays l.filled)
    (hdom : hasFlag e.flags domStar = decide l.dom.Starred)
    (hdow : hasFlag e.flags dowStar = decide l.dow.Starred) {t : Tm}
    (ht : t.Valid) : isNow e (ticksOf t) = true ↔ l.DueAt t := by
  obtain ⟨h1, h2, h3, h4, h5⟩ := l.folded_holds
  rw [← hbits] at h1 h2 h3 h4 h5
  have hpos := ht.mday_pos
  have hlen : t.mday ≤ 31 :=
    Nat.le_trans ht.mday_le (Gregorian.daysIn_le _ _)
  have hminute : bitTest e.bits minuteField.name t.min = true
      ↔ l.minute.Denotes t.min :=
    holds_nat h1 (Int.sub_zero _).symm (Int.natCast_nonneg _)
      (Int.ofNat_le.mpr ht.min)
  have hhour : bitTest e.bits hourField.name t.hour = true
      ↔ l.hour.Denotes t.hour :=
    holds_nat h2 (Int.sub_zero _).symm (Int.natCast_nonneg _)
      (Int.ofNat_le.mpr ht.hour)
  have hmday : bitTest e.bits domField.name (t.mday - 1) = true
      ↔ l.dom.Denotes t.mday :=
    holds_nat h3 (Int.ofNat_sub hpos) (Int.ofNat_le.mpr hpos)
      (Int.ofNat_le.mpr hlen)
  have hmonth : bitTest e.bits monthField.name t.mon = true
      ↔ l.month.Denotes (t.mon + 1) := by
    have hle := ht.mon
    have hval := holds_nat (n := t.mon + 1) (k := t.mon) h4
      (by show (t.mon : Int) = (t.mon + 1 : Nat) - 1; omega)
      (by show (1 : Int) ≤ (t.mon + 1 : Nat); omega)
      (by show ((t.mon + 1 : Nat) : Int) ≤ 12; omega)
    rw [hval, Int.natCast_add]
    rfl
  have hwday : bitTest e.bits dowField.name t.wday = true
      ↔ SundayClosed l.dow.Denotes t.wday := by
    have hle := wday_le t
    exact holds_nat h5 (Int.sub_zero _).symm (Int.natCast_nonneg _)
      (by show (t.wday : Int) ≤ 7; omega)
  unfold isNow ticksOf JobLine.DueAt
  dsimp only
  rw [hdom, hdow, Bool.and_eq_true, Bool.and_eq_true, Bool.and_eq_true,
    hminute, hhour, hmonth, and_assoc, and_assoc]
  by_cases hstar : l.dom.Starred ∨ l.dow.Starred
  · have hor : (decide l.dom.Starred || decide l.dow.Starred) = true := by
      rw [Bool.or_eq_true, decide_eq_true_iff, decide_eq_true_iff]
      exact hstar
    rw [if_pos hor, if_pos hstar, Bool.and_eq_true, hmday, hwday, and_comm
      (a := SundayClosed _ _)]
  · have hor : ¬ (decide l.dom.Starred || decide l.dow.Starred) = true := by
      rw [Bool.or_eq_true, decide_eq_true_iff, decide_eq_true_iff]
      exact hstar
    rw [if_neg hor, if_neg hstar, Bool.or_eq_true, hmday, hwday, or_comm]

/-- What crond's `load_entry` makes of a line. -/
structure Made (l : JobLine) (pw : Passwd) (e : Entry) : Prop where
  now : ∀ {t : Tm}, t.Valid → (isNow e (ticksOf t) = true ↔ l.DueAt t)
  wild : isWild e = true ↔ l.minute.Starred ∨ l.hour.Starred
  minStar : hasFlag e.flags minStar = decide l.minute.Starred
  reboot : hasFlag e.flags whenReboot = false
  dontLog : hasFlag e.flags dontLog = l.noLog
  pwd : e.pwd = bzeroPasswd pw
  cmd : e.cmd.bytes = l.cmd

/-- Crond loads what is loaded here, so it loads the line as well. -/
theorem loadEntry_jobLine (l : JobLine)
    {getpwnam : CString → Option Passwd} {pw : Passwd}
    (hknown : getpwnam (CString.ofBuf l.user) = some pw) {h : CHeap}
    (hgranted : AllGranted h) {file : Stream} {more : List UInt8}
    (huse : usefulText file.rest = usefulText (l.text ++ more)) (fuel : Nat)
    (errorFunc : Option (String → String)) (envp : Nat) :
    ∃ r e, loadEntry fuel getpwnam file errorFunc none h envp = some r
      ∧ r.entry = some e ∧ Made l pw e ∧ r.file.rest = more := by
  obtain ⟨r, e, hload, hentry, hmade, hleft⟩ :=
    l.loaded hknown hgranted huse fuel false envp ""
  obtain ⟨r', e', hload', hentry', hsame, hfile, -⟩ :=
    loadEntry_of_entry getpwnam none h envp "" hload hentry errorFunc
  obtain ⟨hlog, hmin, hhr, hdom, -, hdow, hreboot⟩ := l.flags_spec
  rw [← hmade.flags, ← hsame.flags.other (by decide)]
    at hlog hmin hhr hdom hdow hreboot
  refine ⟨r', e', hload', hentry',
    ⟨?_, ?_, hmin, hreboot, hlog, ?_, ?_⟩, ?_⟩
  · intro t ht
    exact isNow_iff l (hsame.bits.trans hmade.bits) hdom hdow ht
  · rw [isWild, hasFlag_either, hmin, hhr, Bool.or_eq_true,
      decide_eq_true_iff, decide_eq_true_iff]
  · rw [hsame.pwd, hmade.pwd]
  · rw [hsame.cmd, hmade.cmd]
  · rw [hfile]
    exact hleft

/-- **When crond runs the job of a line.** The line is loaded, what is
behind it is left for the next call, and at any time `find_jobs` takes
the entry to be due if and only if the time is one of the line's, by the
rule of crontab(5); and it is a wildcard job if its minute or hour starts
with a star. -/
theorem line_is_now (l : JobLine) {getpwnam : CString → Option Passwd}
    {pw : Passwd} (hknown : getpwnam (CString.ofBuf l.user) = some pw)
    {h : CHeap} (hgranted : AllGranted h) {file : Stream}
    {more : List UInt8} (hrest : file.rest = l.text ++ more) (fuel : Nat)
    (errorFunc : Option (String → String)) (envp : Nat) :
    ∃ r e, loadEntry fuel getpwnam file errorFunc none h envp = some r
      ∧ r.entry = some e ∧ r.file.rest = more
      ∧ (∀ (site : Site) (startTime : Int) (tz : Option (List UInt8)),
        (site.localtime (maketimeTz tz site.tz) startTime).tm.Valid →
          (isNow e (maketime site startTime tz site.tz) = true
            ↔ l.DueAt
              (site.localtime (maketimeTz tz site.tz) startTime).tm))
      ∧ (isWild e = true ↔ l.minute.Starred ∨ l.hour.Starred) := by
  obtain ⟨r, e, hload, hentry, hmade, hleft⟩ :=
    loadEntry_jobLine l hknown hgranted (by rw [hrest]) fuel errorFunc envp
  refine ⟨r, e, hload, hentry, hleft, ?_, hmade.wild⟩
  intro site startTime tz ht
  rw [maketime_eq]
  exact hmade.now ht

/-- The line `-*/15 * * jan * root true`, at midnight in Greenwich and a
minute later. -/
theorem quarterLine_is_now :
    ∃ r e, loadEntry 1 rootOnly (Stream.ofBytes quarterLine.text) none none
        freshHeap 0 = some r
      ∧ r.entry = some e ∧ r.file.rest = []
      ∧ isNow e (maketime (greenwichMachine []).site 0 none none) = true
      ∧ isNow e (maketime (greenwichMachine []).site 60 none none) = false
      ∧ isWild e = true := by
  obtain ⟨r, e, hload, hentry, hrest, hnow, hwild⟩ :=
    @line_is_now quarterLine rootOnly rootPasswd (by decide) freshHeap
      (fun _ => rfl) (Stream.ofBytes quarterLine.text) []
      (List.append_nil _).symm 1 none 0
  have hdue : quarterLine.DueAt (greenwich 0).tm := by decide +kernel
  have hnot : ¬ quarterLine.DueAt (greenwich 60).tm := by decide +kernel
  refine ⟨r, e, hload, hentry, hrest, ?_, ?_,
    hwild.mpr (Or.inl (by decide))⟩
  · refine (hnow (greenwichMachine []).site 0 none ?_).mpr hdue
    exact { sec := by decide, min := by decide, hour := by decide
            mon := by decide, mday_pos := by decide, mday_le := by decide }
  · refine Bool.eq_false_iff.mpr fun htrue => hnot ?_
    refine (hnow (greenwichMachine []).site 60 none ?_).mp htrue
    exact { sec := by decide, min := by decide, hour := by decide
            mon := by decide, mday_pos := by decide, mday_le := by decide }

end Crond

end Tinjac
