/-
The user format and the system format of a line.

`s c` read with a password record in hand, and `s u c` read without one,
where `getpwnam` knows `u` by that record: the schedule is read by the
same code, the username takes exactly its token and one blank, and the
rest is the same job on the same heap. So the two agree
(`formats_agree_iff`), with one exception. The check for a missing
command stands before the username is read: in the system format it sees
the username, and an empty command is accepted there.
-/
import Tinjac.Proofs.Job

namespace Tinjac

open Span BlockHeap CHeap

-- =========================================================== two lines

/-- The text of a command, which may be empty. -/
structure CommandText (c : List UInt8) : Prop where
  token : ∀ b ∈ c, isToken lineTerms b = true
  short : c.length < maxCommand
  first : ∀ b, c.head? = some b → isBlank b = false ∧ b ≠ star

/-- The line of a user's crontab. -/
def userLine (s : Schedule) (c : List UInt8) : List UInt8 :=
  s.text ++ ([space] ++ (c ++ [newline]))

/-- The same line of a system crontab. -/
def systemLine (s : Schedule) (u c : List UInt8) : List UInt8 :=
  s.text ++ ([space] ++ (u ++ ([space] ++ (c ++ [newline]))))

/-- Both calls reject their line, or both return the same entry, with
the same environment behind it. -/
def SameOutcome (r r' : LoadResult) : Prop :=
  (r.entry = none ∧ r'.entry = none)
    ∨ ∃ e, r.entry = some e ∧ r'.entry = some e ∧ r.heap = r'.heap

-- ============================================================ comments

theorem newline_not_mem_of_nonblank {w : List UInt8}
    (hw : ∀ c ∈ w, isNonblank c = true) : newline ∉ w := by
  intro h
  exact absurd (hw newline h) (by decide)

theorem newline_not_mem_of_blank {w : List UInt8}
    (hw : ∀ c ∈ w, isBlank c = true) : newline ∉ w := by
  intro h
  exact absurd (hw newline h) (by decide)

theorem newline_not_mem_of_token {terms w : List UInt8}
    (hterms : newline ∈ terms) (hw : ∀ c ∈ w, isToken terms c = true) :
    newline ∉ w := by
  intro h
  have htok := hw newline h
  simp [isToken, strchr, uchar, hterms] at htok

/-- A schedule stands on one line. -/
theorem Schedule.newline_not_mem (s : Schedule) : newline ∉ s.text := by
  cases s with
  | five s hd ha =>
      have h1 := newline_not_mem_of_nonblank s.word1.nonblank
      have h2 := newline_not_mem_of_nonblank s.word2.nonblank
      have h3 := newline_not_mem_of_nonblank s.word3.nonblank
      have h4 := newline_not_mem_of_nonblank s.word4.nonblank
      have h5 := newline_not_mem_of_nonblank s.word5.nonblank
      have h6 := newline_not_mem_of_blank s.gap1.blank
      have h7 := newline_not_mem_of_blank s.gap2.blank
      have h8 := newline_not_mem_of_blank s.gap3.blank
      have h9 := newline_not_mem_of_blank s.gap4.blank
      show newline ∉ s.text
      simp [FiveWords.text, h1, h2, h3, h4, h5, h6, h7, h8, h9]
  | nickname w hw =>
      have hnl := newline_not_mem_of_token (by decide) hw
      show newline ∉ atSign :: w
      rw [List.mem_cons, not_or]
      exact ⟨by decide, hnl⟩

/-- What looks like a comment is skipped, and nothing comes after it. -/
theorem Schedule.readEntry_hash (s : Schedule)
    (hhash : s.text.head? = some hash) {m : List UInt8}
    (hm : newline ∉ m) (getpwnam : CString → Option Passwd)
    (errorFunc : Bool) (pw : Option Passwd) (h : CHeap) (envp : Nat)
    (fname : String) :
    (readEntry getpwnam errorFunc pw h envp fname
      (s.text ++ (m ++ [newline]))).entry = none := by
  have hnl : newline ∉ s.text ++ m := by
    rw [List.mem_append, not_or]
    exact ⟨s.newline_not_mem, hm⟩
  have hrun : ∀ c ∈ s.text ++ m, (c != newline) = true := fun c hc =>
    bne_iff_ne.mpr (ne_of_mem_of_not_mem hc hnl)
  have hdrop : dropLine (s.text ++ (m ++ [newline])) = [] := by
    unfold dropLine
    rw [← List.append_assoc,
      dropWhile_run hrun (stops_cons.mpr (by decide))]
    rfl
  have hign : ignorable (s.text ++ (m ++ [newline])) = true := by
    obtain ⟨c, t, htext, -⟩ := s.text_cons
    rw [htext] at hhash ⊢
    injection hhash with hc
    rw [hc]
    rfl
  unfold readEntry
  rw [usefulText_ignorable hign, hdrop, usefulText_nil]
  rfl

-- ======================================================== the two jobs

section

variable {getpwnam : CString → Option Passwd} {pw : Passwd}
  {u c : List UInt8}

theorem CommandText.stops_line (c : List UInt8) :
    Stops (isToken lineTerms) (newline :: c) :=
  stops_cons.mpr (by decide)

/-- A command text and its newline start with no blank. -/
theorem CommandText.stops_blank (hc : CommandText c) :
    Stops isBlank (c ++ [newline]) := by
  cases c with
  | nil => exact stops_cons.mpr (by decide)
  | cons b c => exact stops_cons.mpr (hc.first b rfl).1

/-- Only an empty command ends the line early. -/
theorem CommandText.endsEarly_iff (hc : CommandText c) :
    Schedule.EndsEarly (c ++ [newline]) ↔ c = [] := by
  cases c with
  | nil => exact ⟨fun _ => rfl, fun _ => Or.inr (Or.inl rfl)⟩
  | cons b c =>
      have hb := hc.token b List.mem_cons_self
      constructor
      · intro h
        rcases h with h | h | h
        · cases h
        · injection h with h
          rw [h] at hb
          exact absurd hb (by decide)
        · injection h with h
          exact absurd h (hc.first b rfl).2
      · intro h
        cases h

variable {po : Option Passwd} {h h' : CHeap} {envp envp' : Nat}
  {fname : String} {errorFunc : Bool} {gap l stand : List UInt8}
  {bits : Bitmaps} {flags : Nat} {log : List String}

/-- A line whose schedule is not taken. -/
theorem Schedule.readEntry_not_taken (s : Schedule) (hno : ¬ s.Taken)
    {m : List UInt8} (hgap : Gap gap) (hm : newline ∉ m)
    (hl : Stops isBlank (m ++ [newline])) :
    (readEntry getpwnam errorFunc po h envp fname
      (s.text ++ (gap ++ (m ++ [newline])))).entry = none := by
  by_cases hhash : s.text.head? = some hash
  · rw [← List.append_assoc gap]
    apply s.readEntry_hash hhash
    rw [List.mem_append, not_or]
    exact ⟨newline_not_mem_of_blank hgap.blank, hm⟩
  · exact s.readEntry_rejected hhash hgap hl (Or.inr hno)

/-- A line whose job runs out of memory. -/
theorem Schedule.readEntry_refused (s : Schedule) (hgap : Gap gap)
    (hl : Stops isBlank l) (hend : ¬ EndsEarly l)
    (hread : s.read 0 = some (bits, flags))
    (huser : readUser getpwnam po l = .ok (pw, c ++ [newline], stand))
    (hno : ¬ JobGranted h envp pw fname) :
    (readEntry getpwnam errorFunc po h envp fname
      (s.text ++ (gap ++ l))).entry = none := by
  rw [s.readEntry_taken hgap hl hend hread]
  exact finish_none (readJob_refused huser hno)

/-- A line that is taken. -/
theorem Schedule.readEntry_accepted (s : Schedule) (hgap : Gap gap)
    (hl : Stops isBlank l) (hend : ¬ EndsEarly l)
    (hread : s.read 0 = some (bits, flags)) (hc : CommandText c)
    (huser : readUser getpwnam po l = .ok (pw, c ++ [newline], stand))
    (hprep : prepareJob h envp pw fname = (.ok envp', h', log))
    (hgranted : h'.granted h'.asked = true) :
    readEntry getpwnam errorFunc po h envp fname (s.text ++ (gap ++ l))
      = { entry := some
            { pwd := bzeroPasswd pw, envp := envp', cmd := CString.ofBuf c,
              bits := foldSundays bits, flags := flags }
          heap := { h' with asked := h'.asked + 1 }, log := log,
          left := [] } := by
  have hdrop : (c ++ [newline]).dropWhile (isToken lineTerms) = [newline] :=
    dropWhile_run hc.token (CommandText.stops_line [])
  have htake : (c ++ [newline]).takeWhile (isToken lineTerms) = c :=
    takeWhile_run hc.token (CommandText.stops_line [])
  have hkept : kept c = c := by
    have hshort := hc.short
    exact List.take_of_length_le (by unfold maxCommand at hshort ⊢; omega)
  have hne : (c ++ [newline]).dropWhile (isToken lineTerms) ≠ [] := by
    rw [hdrop]
    exact List.cons_ne_nil _ _
  rw [s.readEntry_taken hgap hl hend hread,
    readJob_granted huser hne hprep hgranted, hdrop, htake, hkept]
  rfl

end

-- ========================================================= the formats

/-- **Agreement of the formats.** The line of a user and the line of the
system crontab, with a schedule, a user and a command of which the latter
may be empty, have the same outcome if and only if there is a command, or
the schedule is not taken, or memory runs out. -/
theorem formats_agree_iff {getpwnam : CString → Option Passwd}
    (hnames : ∀ n pw, getpwnam n = some pw → n.bytes.length < maxCommand)
    (s : Schedule) {u c : List UInt8} {pw : Passwd} (hu : UserToken u)
    (hknown : getpwnam (CString.ofBuf u) = some pw) (hc : CommandText c)
    (errorFunc : Bool) (h : CHeap) (envp : Nat) (fname : String)
    {fuel : Nat} (hfuel : (systemLine s u c).length + 2 ≤ fuel) :
    ∃ r r',
      loadEntry fuel getpwnam (Stream.ofBytes (userLine s c)) errorFunc
          (some pw) h envp fname = some r
        ∧ loadEntry fuel getpwnam (Stream.ofBytes (systemLine s u c))
            errorFunc none h envp fname = some r'
        ∧ (SameOutcome r r'
          ↔ c ≠ [] ∨ ¬ s.Taken ∨ ¬ JobGranted h envp pw fname) := by
  have hbytes : (CString.ofBuf u).bytes = u :=
    CString.ofBuf_bytes (nul_not_mem_of_token hu.token)
  have hshort : u.length < maxCommand := by
    have hlen := hnames _ _ hknown
    rwa [hbytes] at hlen
  have hfuel' : (userLine s c).length + 2 ≤ fuel := by
    refine Nat.le_trans ?_ hfuel
    simp only [userLine, systemLine, List.length_append]
    omega
  obtain ⟨r, hr, hshows⟩ := loadEntry_text getpwnam
    (Stream.ofBytes (userLine s c)) errorFunc (some pw) h envp fname rfl
    hfuel'
  obtain ⟨r', hr', hshows'⟩ := loadEntry_text getpwnam
    (Stream.ofBytes (systemLine s u c)) errorFunc none h envp fname rfl
    hfuel
  refine ⟨r, r', hr, hr', ?_⟩
  have hu1 : EntryShows (readEntry getpwnam errorFunc (some pw) h envp
    fname (userLine s c)) r := hshows
  have hs1 : EntryShows (readEntry getpwnam errorFunc none h envp fname
    (systemLine s u c)) r' := hshows'
  unfold SameOutcome
  rw [hu1.entry, hs1.entry, hu1.heap, hs1.heap]
  unfold userLine systemLine
  -- what each line stands before, behind its schedule
  have hblank := hc.stops_blank
  have hblank' := hu.stops_blank ([space] ++ (c ++ [newline]))
  have hend' := hu.not_endsEarly ([space] ++ (c ++ [newline]))
  have hsep : isBlank space = true := by decide
  have huser' : readUser getpwnam none
      (u ++ ([space] ++ (c ++ [newline])))
      = .ok (pw, c ++ [newline], space :: (c ++ [newline])) :=
    readUser_system hu hknown hshort hsep (c ++ [newline])
  by_cases htaken : s.Taken
  · have hsome : (s.read 0).isSome = true := Schedule.read_isSome.mpr htaken
    obtain ⟨⟨bits, flags⟩, hread⟩ := Option.isSome_iff_exists.mp hsome
    by_cases hempty : c = []
    · have huser : (readEntry getpwnam errorFunc (some pw) h envp fname
          (s.text ++ ([space] ++ (c ++ [newline])))).entry = none :=
        s.readEntry_rejected htaken.no_hash gap_space hblank
          (Or.inl (hc.endsEarly_iff.mpr hempty))
      by_cases hgranted : JobGranted h envp pw fname
      · -- the system line is accepted with an empty command
        obtain ⟨envp', h', log, hprep, hg⟩ := hgranted
        rw [huser, s.readEntry_accepted gap_space hblank' hend' hread hc
          huser' hprep hg]
        constructor
        · intro hsame
          rcases hsame with ⟨-, hno⟩ | ⟨e, hno, -⟩
          · cases hno
          · cases hno
        · intro hcond
          rcases hcond with hne | hno | hno
          · exact absurd hempty hne
          · exact absurd htaken hno
          · exact absurd ⟨envp', h', log, hprep, hg⟩ hno
      · rw [huser, s.readEntry_refused gap_space hblank' hend' hread huser'
          hgranted]
        exact ⟨fun _ => Or.inr (Or.inr hgranted),
          fun _ => Or.inl ⟨rfl, rfl⟩⟩
    · have hend : ¬ Schedule.EndsEarly (c ++ [newline]) :=
        fun he => hempty (hc.endsEarly_iff.mp he)
      have huser : readUser getpwnam (some pw) (c ++ [newline])
          = .ok (pw, c ++ [newline], c ++ [newline]) := rfl
      refine ⟨fun _ => Or.inl hempty, fun _ => ?_⟩
      by_cases hgranted : JobGranted h envp pw fname
      · obtain ⟨envp', h', log, hprep, hg⟩ := hgranted
        rw [s.readEntry_accepted gap_space hblank hend hread hc huser hprep
            hg,
          s.readEntry_accepted gap_space hblank' hend' hread hc huser'
            hprep hg]
        exact Or.inr ⟨_, rfl, rfl, rfl⟩
      · exact Or.inl
          ⟨s.readEntry_refused gap_space hblank hend hread huser hgranted,
            s.readEntry_refused gap_space hblank' hend' hread huser'
              hgranted⟩
  · have hnl := newline_not_mem_of_token (by decide) hc.token
    have hnlu := newline_not_mem_of_token (by decide) hu.token
    refine ⟨fun _ => Or.inr (Or.inl htaken), fun _ => Or.inl ⟨?_, ?_⟩⟩
    · exact s.readEntry_not_taken htaken gap_space hnl hblank
    · have hm : newline ∉ u ++ ([space] ++ c) := by
        have hspace : newline ≠ space := by decide
        simp [hnl, hnlu, hspace]
      have hsplit : u ++ ([space] ++ (c ++ [newline]))
          = (u ++ ([space] ++ c)) ++ [newline] := by simp
      rw [hsplit] at hblank' ⊢
      exact s.readEntry_not_taken htaken gap_space hm hblank'

/-- The schedule `@daily`, a nickname in the place of the five fields. -/
def dailySchedule : Schedule :=
  .nickname (bytes "daily") (by decide +kernel)

/-- `@daily true` and `@daily root true` have the same outcome. -/
theorem daily_formats_agree :
    ∃ r r',
      loadEntry 64 rootOnly
          (Stream.ofBytes (userLine dailySchedule (bytes "true"))) false
          (some rootPasswd) freshHeap 0 "crontab" = some r
        ∧ loadEntry 64 rootOnly
            (Stream.ofBytes
              (systemLine dailySchedule (bytes "root") (bytes "true")))
            false none freshHeap 0 "crontab" = some r'
        ∧ SameOutcome r r' := by
  have hu : UserToken (bytes "root") :=
    ⟨by decide, by decide +kernel, by decide⟩
  have hknown : rootOnly (CString.ofBuf (bytes "root"))
      = some rootPasswd := by decide
  have hc : CommandText (bytes "true") := by
    refine ⟨by decide +kernel, by decide, fun b hb => ?_⟩
    injection hb with hb
    rw [← hb]
    decide
  have hfuel : (systemLine dailySchedule (bytes "root")
      (bytes "true")).length + 2 ≤ 64 := by decide
  obtain ⟨r, r', hr, hr', hiff⟩ :=
    formats_agree_iff rootOnly_short dailySchedule hu hknown hc false
      freshHeap 0 "crontab" hfuel
  exact ⟨r, r', hr, hr', hiff.mpr (Or.inl (by decide))⟩

/-- `@daily ` is rejected, `@daily root ` is accepted. -/
theorem empty_command_disagrees :
    ¬ (∀ r r',
      loadEntry 64 rootOnly (Stream.ofBytes (userLine dailySchedule []))
          false (some rootPasswd) freshHeap 0 "crontab" = some r →
      loadEntry 64 rootOnly
          (Stream.ofBytes (systemLine dailySchedule (bytes "root") []))
          false none freshHeap 0 "crontab" = some r' →
      SameOutcome r r') := by
  intro hall
  have huser : (loadEntry 64 rootOnly
      (Stream.ofBytes (userLine dailySchedule [])) false
      (some rootPasswd) freshHeap 0 "crontab").map (·.entry.isSome)
      = some false := by decide +kernel
  have hsystem : (loadEntry 64 rootOnly
      (Stream.ofBytes (systemLine dailySchedule (bytes "root") [])) false
      none freshHeap 0 "crontab").map (·.entry.isSome)
      = some true := by decide +kernel
  obtain ⟨r, hr, hnone⟩ := Option.map_eq_some_iff.mp huser
  obtain ⟨r', hr', hsome⟩ := Option.map_eq_some_iff.mp hsystem
  rcases hall r r' hr hr' with ⟨-, hno⟩ | ⟨e, he, -⟩
  · rw [hno] at hsome
    cases hsome
  · rw [he] at hnone
    cases hnone

end Tinjac
