/-
The job that is loaded, and the job that is written.

A line that is accepted is five words, or an `@` and a word, with blanks
behind each, and then the job (`jobText`): here that is said of the
bytes, without the parser. What `load_entry` makes of the job's text
goes through two buffers of `MAX_COMMAND` bytes, which keep what fits
(`kept`): the username that is looked up and the command are cut to
`MAX_COMMAND - 1` bytes, and nobody is told (`job_as_written`). That is
the limit the source speaks of. A NUL ends both tokens as well, so the
line is one without.
-/
import Tinjac.Proofs.Granted

namespace Tinjac

open Span BlockHeap CHeap

-- ====================================================== lines of bytes

/-- The rest of the line a text starts in, up to its newline or the end.
-/
def restOfLine (t : List UInt8) : List UInt8 :=
  t.takeWhile fun c => c != newline

/-- There is no NUL in it. -/
def NoNul (t : List UInt8) : Prop := nul ∉ restOfLine t

/-- The rest of a line, character by character. -/
theorem restOfLine_cons {c : UInt8} (hc : c ≠ newline) (l : List UInt8) :
    restOfLine (c :: l) = c :: restOfLine l := by
  unfold restOfLine
  rw [List.takeWhile_cons, if_pos (bne_iff_ne.mpr hc)]

/-- A line without a NUL has none in front and none behind. -/
theorem NoNul.of_cons {c : UInt8} {l : List UInt8} (h : NoNul (c :: l))
    (hc : c ≠ newline) : c ≠ nul ∧ NoNul l := by
  unfold NoNul at h
  rw [restOfLine_cons hc, List.mem_cons, not_or] at h
  exact ⟨fun hnul => h.1 hnul.symm, h.2⟩

/-- A scanner loop does not leave the line. -/
theorem NoNul.dropWhile {p : UInt8 → Bool} (hp : p newline = false)
    {t : List UInt8} (h : NoNul t) : NoNul (t.dropWhile p) := by
  induction t with
  | nil => exact h
  | cons c l ih =>
      rw [List.dropWhile_cons]
      split
      · next hpc =>
        have hc : c ≠ newline := by
          intro hc
          rw [hc, hp] at hpc
          cases hpc
        exact ih (h.of_cons hc).2
      · exact h

/-- Two scanner loops that agree but for the NUL. -/
theorem scan_congr_of_noNul {p q : UInt8 → Bool}
    (hpq : ∀ c, c ≠ nul → p c = q c) (hp : p newline = false)
    {t : List UInt8} (h : NoNul t) :
    t.takeWhile p = t.takeWhile q ∧ t.dropWhile p = t.dropWhile q := by
  induction t with
  | nil => exact ⟨rfl, rfl⟩
  | cons c l ih =>
      have hsame : p c = q c := by
        by_cases hc : c = newline
        · rw [hc]
          exact hpq newline (by decide)
        · exact hpq c (h.of_cons hc).1
      rw [List.takeWhile_cons, List.takeWhile_cons, List.dropWhile_cons,
        List.dropWhile_cons, ← hsame]
      cases hpc : p c with
      | false => exact ⟨rfl, rfl⟩
      | true =>
          have hc : c ≠ newline := by
            intro hc
            rw [hc, hp] at hpc
            cases hpc
          obtain ⟨htake, hdrop⟩ := ih (h.of_cons hc).2
          rw [if_pos rfl, if_pos rfl, if_pos rfl, if_pos rfl, htake, hdrop]
          exact ⟨rfl, rfl⟩

/-- But for the NUL, which `strchr` finds, a word ends at the first blank.
-/
theorem isToken_word {c : UInt8} (hc : c ≠ nul) :
    isToken wordTerms c = isNonblank c := by
  by_cases hs : c = space ∨ c = tab ∨ c = newline
  · rcases hs with rfl | rfl | rfl
    · rfl
    · rfl
    · rfl
  · rw [not_or, not_or] at hs
    obtain ⟨h1, h2, h3⟩ := hs
    have hterms : wordTerms = [space, tab, newline] := by decide
    have h0 : (c == nul) = false := beq_eq_false_iff_ne.mpr hc
    simp [isToken, strchr, uchar, hterms, isNonblank, bne, h0, h1, h2, h3]

/-- And a command at the newline. -/
theorem isToken_line {c : UInt8} (hc : c ≠ nul) :
    isToken lineTerms c = (c != newline) := by
  have hterms : lineTerms = [newline] := by decide
  by_cases hn : c = newline
  · rw [hn]
    decide
  · have h0 : (c == nul) = false := beq_eq_false_iff_ne.mpr hc
    simp [isToken, strchr, uchar, hterms, bne, h0, hn]

-- ===================================================== what is written

/-- The text behind the `-` option. -/
def afterOption (t : List UInt8) : List UInt8 :=
  if t.head? = some dash then t.tail else t

/-- Behind the dash of the option. -/
theorem afterOption_dash (l : List UInt8) : afterOption (dash :: l) = l := rfl

/-- Where there is no option. -/
theorem afterOption_none {t : List UInt8} (h : t.head? ≠ some dash) :
    afterOption t = t := by
  unfold afterOption
  rw [if_neg h]

/-- The text behind a schedule: the first character that is no blank
behind the word that starts with an `@`, or behind five words. -/
def afterSchedule (t : List UInt8) : List UInt8 :=
  if t.head? = some atSign then skipField t
  else skipField (skipField (skipField (skipField (skipField t))))

/-- The text of the job on the first line of a text that is neither blank
nor a comment. -/
def jobText (t : List UInt8) : List UInt8 :=
  afterSchedule (afterOption (usefulText t))

/-- The entry has the job that is written: the user, if the file names
one, and the command, as `cut` leaves them. -/
def JobIs (cut : List UInt8 → List UInt8)
    (getpwnam : CString → Option Passwd) (pw : Option Passwd)
    (t : List UInt8) (e : Entry) : Prop :=
  match pw with
  | some pw =>
      e.pwd = bzeroPasswd pw ∧ e.cmd.bytes = cut (restOfLine (jobText t))
  | none =>
      (∃ name pw, name.bytes = cut ((jobText t).takeWhile isNonblank)
        ∧ getpwnam name = some pw ∧ e.pwd = bzeroPasswd pw)
        ∧ e.cmd.bytes
          = cut (restOfLine ((jobText t).dropWhile isNonblank).tail)

-- ====================================================== what is parsed

/-- A run without a blank belongs to the field. -/
theorem skipField_run {w t : List UInt8}
    (hw : ∀ c ∈ w, isNonblank c = true) :
    skipField (w ++ t) = skipField t := by
  unfold skipField
  rw [List.dropWhile_append_of_pos hw]

/-- What a field leaves is what is behind its word. -/
theorem readField_left {f : Field} {flag : Nat} {ecode : Ecode}
    {bits b : Bitmaps} {flags fl : Nat} {t next : List UInt8}
    (h : readField f flag ecode bits flags t = .accepted b fl next) :
    next = skipField t := by
  unfold readField at h
  cases hread : readList f t with
  | done rs next' =>
      rw [hread] at h
      injection h with _ _ hnext
      obtain ⟨after, htext, hlist, -, hskip⟩ := readList_done.mp hread
      have hnonblank : ∀ c ∈ listText rs, isNonblank c = true :=
        listText_nonblank fun r hr => (hlist.taken r hr).nonblank
      rw [← hnext, htext, skipField_run hnonblank, hskip]
  | fail left =>
      rw [hread] at h
      cases h
  | eaten next' =>
      rw [hread] at h
      cases h

/-- Behind five fields, wherever in their lists the scans have begun. -/
theorem readFields_left {flags fl : Nat} {b : Bitmaps}
    {t next : List UInt8}
    (h : readFields flags t = .accepted b fl next) :
    next = skipField (skipField (skipField (skipField (skipField t)))) := by
  obtain ⟨_, _, t4, h, h5⟩ := SchedText.bind_accepted h
  obtain ⟨_, _, t3, h, h4⟩ := SchedText.bind_accepted h
  obtain ⟨_, _, t2, h, h3⟩ := SchedText.bind_accepted h
  obtain ⟨_, _, t1, h1, h2⟩ := SchedText.bind_accepted h
  rw [readField_left h5, readField_left h4, readField_left h3,
    readField_left h2, readField_left h1]

/-- Behind a nickname, if the line has no NUL. -/
theorem readNickname_left {flags fl : Nat} {b : Bitmaps}
    {t next : List UInt8} (hnul : NoNul t)
    (h : readNickname flags t = .accepted b fl next) :
    next = skipField t := by
  obtain ⟨-, hdrop⟩ := scan_congr_of_noNul
    (fun c hc => isToken_word hc) (by decide) hnul
  unfold readNickname at h
  dsimp only at h
  rw [hdrop] at h
  split at h
  · cases h
  · split at h
    · cases h
    · injection h with _ _ hnext
      exact hnext.symm

/-- What an accepted schedule leaves, where no NUL ended it early. -/
theorem readSchedule_left {flags fl : Nat} {b : Bitmaps}
    {t next : List UInt8} (hnul : NoNul t)
    (h : readSchedule flags t = .accepted b fl next) :
    next = afterSchedule t := by
  unfold readSchedule at h
  obtain ⟨b', fl', next', hread, heol⟩ := SchedText.bind_accepted h
  have hnext : next = next' := by
    unfold readEol at heol
    split at heol
    · cases heol
    · injection heol with _ _ heol
      exact heol.symm
  rw [hnext]
  unfold afterSchedule
  split at hread
  · next hat =>
    rw [if_pos hat]
    obtain ⟨l, rfl⟩ := List.head?_eq_some_iff.mp hat
    rw [readNickname_left (hnul.of_cons (by decide)).2 hread]
    exact (skipField_run (w := [atSign]) (by decide +kernel)).symm
  · next hat =>
    rw [if_neg hat]
    exact readFields_left hread

/-- Behind a field there is no NUL either. -/
theorem NoNul.skipField {t : List UInt8} (h : NoNul t) :
    NoNul (skipField t) :=
  (h.dropWhile (by decide)).dropWhile (by decide)

/-- Nor is there a NUL behind a whole schedule. -/
theorem NoNul.afterSchedule {t : List UInt8} (h : NoNul t) :
    NoNul (afterSchedule t) := by
  unfold Tinjac.afterSchedule
  split
  · exact h.skipField
  · exact h.skipField.skipField.skipField.skipField.skipField

-- =========================================================== the entry

section

variable {getpwnam : CString → Option Passwd} {pw : Option Passwd}
  {h : CHeap} {envp : Nat} {fname : String} {e : Entry}

/-- The user and the command of an entry, off the text behind the
schedule. -/
theorem readJob_is {bits : Bitmaps} {flags : Nat} {t : List UInt8}
    (he : (readJob getpwnam pw h envp fname bits flags t).verdict
      = .entry e) :
    ∃ pw' t' stand, readUser getpwnam pw t = .ok (pw', t', stand)
      ∧ e.pwd = bzeroPasswd pw'
      ∧ e.cmd.bytes = kept (t'.takeWhile (isToken lineTerms)) := by
  obtain ⟨pw', t', stand, huser, hcmd, envp', h', log, hprep, hgranted⟩ :=
    readJob_entry_iff.mp ⟨e, he⟩
  rw [readJob_granted huser hcmd hprep hgranted] at he
  injection he with he
  subst he
  exact ⟨pw', t', stand, huser, rfl, ofBuf_kept_token lineTerms t'⟩

/-- The whole command of a user's own table. -/
theorem JobIs.own {pw : Passwd} {t : List UInt8}
    (hjob : JobIs id getpwnam (some pw) t e) :
    e.cmd.bytes = restOfLine (jobText t) := hjob.2

/-- The command of a user's own table. -/
theorem readJob_own {pw : Passwd} {bits : Bitmaps} {flags : Nat}
    {t : List UInt8}
    (he : (readJob getpwnam (some pw) h envp fname bits flags t).verdict
      = .entry e) :
    e.cmd.bytes = kept (t.takeWhile (isToken lineTerms)) := by
  obtain ⟨pw', t', stand, huser, -, hcmd⟩ := readJob_is he
  cases huser
  exact hcmd

/-- On a line without NUL the two tokens end where they are written to
end. -/
theorem readJob_jobIs {bits : Bitmaps} {flags : Nat} {t u : List UInt8}
    (hjob : jobText u = t) (hnul : NoNul t)
    (he : (readJob getpwnam pw h envp fname bits flags t).verdict
      = .entry e) : JobIs kept getpwnam pw u e := by
  have hcmd : ∀ {l : List UInt8}, NoNul l →
      l.takeWhile (isToken lineTerms) = restOfLine l := by
    intro l hl
    exact (scan_congr_of_noNul (fun c hc => isToken_line hc)
      (by decide) hl).1
  obtain ⟨pw', t', stand, huser, hpwd, hbytes⟩ := readJob_is he
  unfold JobIs
  rw [hjob]
  unfold readUser at huser
  cases pw with
  | some pw =>
      cases huser
      rw [hcmd hnul] at hbytes
      exact ⟨hpwd, hbytes⟩
  | none =>
      obtain ⟨htake, hdrop⟩ := scan_congr_of_noNul
        (fun c hc => isToken_word hc) (by decide) hnul
      have hname := ofBuf_kept_token wordTerms t
      have hnext := hnul.dropWhile (p := isNonblank) (by decide)
      dsimp only at huser ⊢
      rw [hdrop] at huser
      generalize t.dropWhile isNonblank = next at huser hnext
      split at huser
      · cases huser
      · next hend =>
        rw [not_or] at hend
        split at huser
        · cases huser
        · next hknown =>
          cases huser
          obtain ⟨c, l, rfl⟩ := List.exists_cons_of_ne_nil hend.1
          have hc : c ≠ newline := fun hc => hend.2 (congrArg some hc)
          rw [htake] at hname hknown
          rw [List.tail_cons, hcmd (hnext.of_cons hc).2] at hbytes
          exact ⟨⟨_, _, hname, hknown, hpwd⟩, hbytes⟩

/-- **The job of a line.** If it has no NUL its username and command are
what stands behind the schedule. -/
theorem readLine_jobIs {flags : Nat} {t u : List UInt8}
    (hoption : afterOption (usefulText u) = t) (hnul : NoNul t)
    (he : (readLine getpwnam pw h envp fname flags t).verdict = .entry e) :
    JobIs kept getpwnam pw u e := by
  unfold readLine at he
  cases hsched : readSchedule flags t with
  | rejected ecode left =>
      rw [hsched] at he
      cases he
  | accepted bits fl next =>
      rw [hsched] at he
      have hnext := readSchedule_left hnul hsched
      have hjob : jobText u = next := by
        unfold jobText
        rw [hoption, hnext]
      refine readJob_jobIs hjob ?_ he
      rw [hnext]
      exact hnul.afterSchedule

/-- The job that is loaded is the job that is written, cut to the
buffers: on every stream on which an entry is returned for a line without
NUL bytes, the user looked up is the whole username token and the command
the whole rest of the line, or the first `MAX_COMMAND - 1` bytes of
them. -/
theorem job_as_written {fuel : Nat} {file : Stream} {errorFunc : Bool}
    {r : LoadResult}
    (hload : loadEntry fuel getpwnam file errorFunc pw h envp fname = some r)
    (he : r.entry = some e) (hnul : NoNul (usefulText file.rest)) :
    JobIs kept getpwnam pw file.rest e := by
  have hentry := entry_of_loadEntry hload he
  unfold readUseful at hentry
  cases hu : usefulText file.rest with
  | nil =>
      rw [hu] at hentry
      cases hentry
  | cons c t =>
      rw [hu] at hentry hnul
      dsimp only at hentry
      split at hentry
      · next hdash =>
        split at hentry
        · split at hentry
          · cases hentry
          · refine readLine_jobIs ?_ (hnul.of_cons ?_).2 hentry
            · rw [hu, hdash]
              rfl
            · rw [hdash]
              decide
        · cases hentry
      · next hdash =>
        refine readLine_jobIs ?_ hnul hentry
        have hhead : (c :: t).head? ≠ some dash :=
          fun hc => hdash (Option.some.inj hc)
        rw [hu]
        unfold afterOption
        rw [if_neg hhead]

end

/-- A line with a user and a command. -/
theorem short_job_as_written :
    ∃ r e, loadEntry 0 rootOnly (Stream.ofBytes (bytes "@daily root true\n"))
          true none freshHeap 0 "crontab" = some r
      ∧ r.entry = some e
      ∧ JobIs kept rootOnly none (bytes "@daily root true\n") e := by
  have hsome : ((loadEntry 0 rootOnly
      (Stream.ofBytes (bytes "@daily root true\n")) true none freshHeap 0
      "crontab").bind (·.entry)).isSome = true := by
    decide +kernel
  obtain ⟨e, he⟩ := Option.isSome_iff_exists.mp hsome
  obtain ⟨r, hload, hentry⟩ := Option.bind_eq_some_iff.mp he
  have hnul : NoNul (usefulText (bytes "@daily root true\n")) := by
    unfold NoNul
    decide +kernel
  exact ⟨r, e, hload, hentry, job_as_written hload hentry hnul⟩

-- ================================================= a line that is long

/-- A command of `MAX_COMMAND` bytes. -/
def longCommand : List UInt8 := List.replicate maxCommand 120

/-- A line with that command, for a user's own table. -/
def longLine : List UInt8 :=
  (atSign :: bytes "daily") ++ ([space] ++ (longCommand ++ [newline]))

/-- `daily` is a word: no terminator is in it. -/
theorem daily_token : ∀ c ∈ bytes "daily", isToken wordTerms c = true := by
  decide +kernel

/-- The long line is a nickname, a blank and a command. -/
theorem longLine_eq : longLine
    = (Schedule.nickname (bytes "daily") daily_token).text
      ++ ([space] ++ (longCommand ++ [newline])) := rfl

/-- The long command is made of one character. -/
theorem longCommand_mem {c : UInt8} (hc : c ∈ longCommand) : c = 120 :=
  (List.mem_replicate.mp hc).2

/-- The long command begins with the character that it is made of. -/
theorem longCommand_cons (l : List UInt8) :
    ∃ t, longCommand ++ l = 120 :: t := by
  have hlen : maxCommand = (maxCommand - 1) + 1 := by decide
  refine ⟨List.replicate (maxCommand - 1) 120 ++ l, ?_⟩
  unfold longCommand
  rw [hlen, List.replicate_succ, List.cons_append, ← hlen]

/-- So no blank is skipped in front of it. -/
theorem longCommand_stops (l : List UInt8) :
    Stops isBlank (longCommand ++ l) := by
  obtain ⟨t, ht⟩ := longCommand_cons l
  rw [ht]
  exact stops_cons.mpr (by decide)

/-- It is the job of the line. -/
theorem longLine_jobText :
    jobText longLine = longCommand ++ [newline] := by
  have hgap : Gap [space] := gap_space
  have huseful : usefulText longLine = longLine :=
    usefulText_cons (by decide) (by decide) _
  unfold jobText
  rw [huseful]
  show skipField longLine = _
  exact skipField_gap (by decide +kernel) hgap (longCommand_stops [newline])

/-- And all of the line behind the schedule. -/
theorem longLine_rest :
    restOfLine (longCommand ++ [newline]) = longCommand := by
  refine takeWhile_run ?_ (stops_cons.mpr (by decide))
  intro c hc
  rw [longCommand_mem hc]
  decide

/-- A text whose line is accepted, as a stream. -/
theorem loadEntry_ofBytes {getpwnam : CString → Option Passwd}
    {errorFunc : Bool} {pw : Option Passwd} {h : CHeap} {envp : Nat}
    {fname : String} {t : List UInt8} {e : Entry}
    (he : (readEntry getpwnam errorFunc pw h envp fname t).entry = some e)
    (fuel : Nat) :
    ∃ r, loadEntry fuel getpwnam (Stream.ofBytes t) errorFunc pw h envp fname
        = some r ∧ r.entry = some e := by
  obtain ⟨file', hload, -⟩ :=
    @loadEntry_entry _ (Stream.ofBytes t) _ _ _ _ _ _ rfl
      (finish_entry.mp he) fuel errorFunc
  exact ⟨_, hload, rfl⟩

/-- The line is accepted, with one byte of its command missing. -/
theorem long_command_cut :
    ∃ r e, loadEntry 0 rootOnly (Stream.ofBytes longLine) true
          (some rootPasswd) freshHeap 0 "crontab" = some r
      ∧ r.entry = some e
      ∧ ¬ JobIs id rootOnly (some rootPasswd) longLine e := by
  have hgranted : AllGranted freshHeap := fun _ => rfl
  obtain ⟨envp', h', log, hprep, hg⟩ :=
    hgranted.jobGranted 0 rootPasswd "crontab"
  have hgap : Gap [space] := gap_space
  have hstop : (longCommand ++ [newline]).dropWhile (isToken lineTerms)
      ≠ [] := dropWhile_ne_nil ⟨newline, by simp, by decide⟩
  have hend : ¬ Schedule.EndsEarly (longCommand ++ [newline]) := by
    obtain ⟨t, ht⟩ := longCommand_cons [newline]
    rw [ht]
    intro hgiven
    rcases hgiven with h | h | h
    · cases h
    · cases h
    · cases h
  obtain ⟨⟨bits, flags⟩, hread⟩ := Option.isSome_iff_exists.mp
    (show ((Schedule.nickname (bytes "daily") daily_token).read 0).isSome
      = true by decide)
  have hline : readEntry rootOnly true (some rootPasswd) freshHeap 0
      "crontab" longLine
      = (readJob rootOnly (some rootPasswd) freshHeap 0 "crontab"
          (foldSundays bits) flags (longCommand ++ [newline])).finish
          true "crontab" := by
    rw [longLine_eq]
    exact Schedule.readEntry_taken _ hgap (longCommand_stops [newline]) hend
      hread
  have htaken : JobTaken rootOnly (some rootPasswd) freshHeap 0 "crontab"
      (longCommand ++ [newline]) :=
    ⟨rootPasswd, _, _, rfl, hstop, envp', h', log, hprep, hg⟩
  obtain ⟨e, he⟩ : ∃ e, (readJob rootOnly (some rootPasswd) freshHeap 0
      "crontab" (foldSundays bits) flags (longCommand ++ [newline])).verdict
      = .entry e := readJob_entry_iff.mpr htaken
  have hentry : (readEntry rootOnly true (some rootPasswd) freshHeap 0
      "crontab" longLine).entry = some e := by
    rw [hline]
    exact finish_entry.mpr he
  obtain ⟨r, hload, hr⟩ := loadEntry_ofBytes hentry 0
  refine ⟨r, e, hload, hr, ?_⟩
  intro hjob
  have hcmd := readJob_own he
  have hwhole : e.cmd.bytes = longCommand := by
    rw [← longLine_rest, ← longLine_jobText]
    exact hjob.own
  have hlen := congrArg List.length (hcmd.symm.trans hwhole)
  unfold kept at hlen
  rw [List.length_take, longCommand, List.length_replicate] at hlen
  unfold maxCommand at hlen
  omega

end Tinjac
