/-
Which files lose no entry.

`NothingLost` says what a report owes a file: command, schedule and user
of every line that is accepted on its own, in order and once each, and
an error for every other line that is neither blank nor a comment.
`parseCrontab` pays it to files of at most one such line
(`nothingLost_iff`): the jobs of a report are those of at most one entry
(`reportEntry_jobs`), and the error of a line is never among its lines
(`fileReport_remarks`).
-/
import Tinjac.Proofs.OneFile

namespace Tinjac

open BlockHeap CHeap

-- ======================================================== a line alone

/-- What `load_entry` makes of a line on its own, with memory to
spare. -/
def loadAlone (sys : System) (fname : String) (l : List UInt8) :
    Option Entry :=
  (loadEntry (l.length + 2) sys.getpwnam (Stream.ofBytes l) false none
    freshHeap 0 fname).bind (·.entry)

theorem loadAlone_iff {sys : System} {fname : String} {l : List UInt8}
    {e : Entry} :
    loadAlone sys fname l = some e
      ↔ (readUseful sys.getpwnam none freshHeap 0 fname
          (usefulText l)).verdict = .entry e := by
  obtain ⟨r, hload, hshows⟩ := loadEntry_text sys.getpwnam
    (Stream.ofBytes l) false none freshHeap 0 fname rfl (Nat.le_refl _)
  have hload : loadEntry (l.length + 2) sys.getpwnam (Stream.ofBytes l)
      false none freshHeap 0 fname = some r := hload
  unfold loadAlone
  rw [hload, Option.bind_some, hshows.entry]
  exact finish_entry

section

variable {getpwnam : CString → Option Passwd} {pw : Option Passwd}
  {h h' : CHeap} {envp envp' : Nat} {fname fname' : String}

/-- The entry of a line, whatever the heap it is read into. -/
theorem entry_unique {t : List UInt8} {e e' : Entry}
    (hv : (readUseful getpwnam pw h envp fname t).verdict = .entry e)
    (hv' : (readUseful getpwnam pw h' envp' fname' t).verdict
      = .entry e') : e' = { e with envp := e'.envp } := by
  obtain ⟨hopt, next, hs, pw1, t1, stand, huser, hcmd, q, g, log, hprep,
    hg⟩ := readUseful_entry_iff.mp ⟨e, hv⟩
  obtain ⟨-, next', hs', pw2, t2, stand', huser', -, q', g', log', hprep',
    hg'⟩ := readUseful_entry_iff.mp ⟨e', hv'⟩
  rw [← hs.unique hs', huser] at huser'
  cases huser'
  obtain ⟨bits, flags, hjob⟩ := @readUseful_job getpwnam pw t next hopt hs
  rw [hjob, readJob_granted huser hcmd hprep hg] at hv
  rw [hjob, readJob_granted huser hcmd hprep' hg'] at hv'
  injection hv with hv
  injection hv' with hv'
  rw [← hv, ← hv']

/-- A line that is taken with some heap is taken with any that has the
memory. -/
theorem LineTaken.granted {t : List UInt8}
    (htaken : LineTaken getpwnam pw h envp fname t) (hg : AllGranted h') :
    LineTaken getpwnam pw h' envp' fname' t := by
  obtain ⟨hopt, next, hs, pw', t', stand, huser, hcmd, -⟩ := htaken
  exact ⟨hopt, next, hs, pw', t', stand, huser, hcmd,
    hg.jobGranted envp' pw' fname'⟩

/-- The first line is what is read of a file. -/
theorem readUseful_first {bs l : List UInt8} {ls : List (List UInt8)}
    (hlines : entryLines bs = l :: ls) :
    SameReturn (readUseful getpwnam pw h envp fname (usefulText bs))
      (readUseful getpwnam pw h envp fname (usefulText l)) := by
  rw [← entryLines_skip] at hlines
  rcases skipIgnorable_cases bs with hnil | huse
  · rw [hnil, entryLines_nil] at hlines
    cases hlines
  · rw [entryLines_useful huse] at hlines
    injection hlines with hl _
    rw [← hl, ← usefulText_skip]
    exact readUseful_alone huse

theorem usefulText_noLines {bs : List UInt8} (hlines : entryLines bs = []) :
    usefulText bs = [] := by
  rw [← entryLines_skip] at hlines
  rcases skipIgnorable_cases bs with hnil | huse
  · unfold usefulText
    rw [hnil]
    rfl
  · rw [entryLines_useful huse] at hlines
    cases hlines

end

-- ======================================================== what is owed

/-- Every entry line is reported, or an error logged for it. -/
structure NothingLost (sys : System) (fname : String) (bs : List UInt8)
    (output : List Line) : Prop where
  jobs : output.filter Line.isJob
    = (entryLines bs).flatMap fun l =>
        ((loadAlone sys fname l).map jobLines).getD []
  errors : ∃ ecodes : List Ecode,
    ecodes.length
        = ((entryLines bs).filter fun l =>
            (loadAlone sys fname l).isNone).length
      ∧ (ecodes.map fun ecode => Line.elog (errorMsg ecode fname)).Sublist
          output

section

variable {sys : System} {fname : String} {bs : List UInt8}
  {output : List Line}

/-- Without errors in the report no line was rejected. -/
theorem NothingLost.accepted (hlost : NothingLost sys fname bs output)
    (hremarks : ∀ m, .elog m ∈ output → Remark m) :
    ∀ l ∈ entryLines bs, ∃ e, loadAlone sys fname l = some e := by
  obtain ⟨ecodes, hlen, hsub⟩ := hlost.errors
  intro l hl
  cases hload : loadAlone sys fname l with
  | some e => exact ⟨e, rfl⟩
  | none =>
      have hmem : l ∈ (entryLines bs).filter fun l =>
          (loadAlone sys fname l).isNone := by
        rw [List.mem_filter, hload]
        exact ⟨hl, rfl⟩
      have hpos := List.length_pos_of_mem hmem
      rw [← hlen] at hpos
      obtain ⟨ecode, hecode⟩ := List.exists_mem_of_length_pos hpos
      have helog := hsub.subset (List.mem_map_of_mem hecode)
      exact absurd (hremarks _ helog) (errorMsg_not_remark ecode fname)

theorem jobLines_length (e : Entry) : (jobLines e).length = 7 := rfl

/-- A report without jobs and errors owed nothing. -/
theorem NothingLost.quiet (hlost : NothingLost sys fname bs output)
    (hquiet : ∀ x ∈ output, x.Quiet) : entryLines bs = [] := by
  have haccepted := hlost.accepted fun m hm => (hquiet _ hm).2 m rfl
  have hnone : output.filter Line.isJob = [] := by
    rw [List.filter_eq_nil_iff]
    intro x hx
    rw [(hquiet x hx).1]
    decide
  cases hlines : entryLines bs with
  | nil => rfl
  | cons l ls =>
      obtain ⟨e, he⟩ := haccepted l (by rw [hlines]; exact List.mem_cons_self)
      have hjobs := hlost.jobs
      rw [hnone, hlines, List.flatMap_cons, he] at hjobs
      cases hjobs

/-- A report of at most one job owed at most one. -/
theorem NothingLost.sole (hlost : NothingLost sys fname bs output)
    (hremarks : ∀ m, .elog m ∈ output → Remark m)
    (hlen : (output.filter Line.isJob).length ≤ 7) {l : List UInt8}
    {ls : List (List UInt8)} (hlines : entryLines bs = l :: ls) :
    ls = [] ∧ ∃ e, loadAlone sys fname l = some e
      ∧ output.filter Line.isJob = jobLines e := by
  have haccepted := hlost.accepted hremarks
  have hjobs := hlost.jobs
  rw [hlines] at haccepted
  obtain ⟨e, he⟩ := haccepted l List.mem_cons_self
  rw [hlines, List.flatMap_cons, he] at hjobs
  have hjobs : output.filter Line.isJob = jobLines e
      ++ ls.flatMap fun l =>
        ((loadAlone sys fname l).map jobLines).getD [] := hjobs
  cases ls with
  | nil =>
      rw [List.flatMap_nil, List.append_nil] at hjobs
      exact ⟨rfl, e, he, hjobs⟩
  | cons l' ls =>
      obtain ⟨e', he'⟩ :=
        haccepted l' (List.mem_cons_of_mem l List.mem_cons_self)
      rw [List.flatMap_cons, he'] at hjobs
      have hjobs : output.filter Line.isJob = jobLines e
          ++ (jobLines e' ++ ls.flatMap fun l =>
            ((loadAlone sys fname l).map jobLines).getD []) := hjobs
      rw [hjobs, List.length_append, List.length_append, jobLines_length,
        jobLines_length] at hlen
      omega

/-- What is owed to a file without entry lines. -/
theorem nothingLost_nil (hlines : entryLines bs = [])
    (hjobs : output.filter Line.isJob = []) :
    NothingLost sys fname bs output := by
  refine ⟨?_, [], ?_, List.nil_sublist output⟩
  · rw [hlines, hjobs]
    rfl
  · rw [hlines]
    rfl

/-- What is owed to a file with one job. -/
theorem nothingLost_one {l : List UInt8} {e : Entry}
    (hlines : entryLines bs = [l]) (he : loadAlone sys fname l = some e)
    (hjobs : output.filter Line.isJob = jobLines e) :
    NothingLost sys fname bs output := by
  refine ⟨?_, [], ?_, List.nil_sublist output⟩
  · rw [hlines, hjobs, List.flatMap_cons, he]
    simp
  · rw [hlines, List.filter_cons_of_neg]
    · rfl
    · rw [he]
      exact Bool.false_ne_true

end

-- ========================================================== the report

section

variable {sys : System} {p : Process} {file : DirEntry} {bs : List UInt8}

theorem filter_elogs (log : List String) :
    (log.map Line.elog).filter Line.isJob = [] := by
  rw [List.filter_eq_nil_iff]
  intro x hx
  obtain ⟨m, -, rfl⟩ := List.mem_map.mp hx
  exact Bool.false_ne_true

/-- No error of a line is ever reported. -/
theorem fileReport_remarks {fuel : Nat} {log : List String}
    {entry : Option Entry} (hlog : ∀ m ∈ log, Remark m) {m : String}
    (hm : .elog m ∈ (fileReport fuel sys log entry).output) : Remark m := by
  have hlogged : .elog m ∈ log.map Line.elog → Remark m := by
    intro hm
    obtain ⟨m', hm', heq⟩ := List.mem_map.mp hm
    injection heq with heq
    rw [← heq]
    exact hlog m' hm'
  cases entry with
  | none => exact hlogged hm
  | some e =>
      rcases List.mem_append.mp hm with hm | hm
      · exact hlogged hm
      · exact reportEntry_remarks hm

theorem fileReport_jobs (fuel : Nat) (log : List String)
    (entry : Option Entry) :
    (fileReport fuel sys log entry).output.filter Line.isJob
      = match entry with
        | none => []
        | some e => (reportEntry fuel sys e).output.filter Line.isJob := by
  cases entry with
  | none => exact filter_elogs log
  | some e =>
      show (log.map Line.elog ++ _).filter Line.isJob = _
      rw [List.filter_append, filter_elogs, List.nil_append]

/-- A report is about one job at most. -/
theorem fileReport_jobs_length (fuel : Nat) (log : List String)
    (entry : Option Entry) :
    ((fileReport fuel sys log entry).output.filter Line.isJob).length
      ≤ 7 := by
  rw [fileReport_jobs]
  cases entry with
  | none => exact Nat.zero_le 7
  | some e =>
      dsimp only
      rw [reportEntry_jobs]
      split
      · exact Nat.le_refl 7
      · exact Nat.le_succ 6

/-- Without an error function nothing is added to what was logged. -/
theorem readEntry_log_eq {h : CHeap} {envp : Nat} :
    (readEntry sys.getpwnam false none h envp file.path bs).log
      = (readUseful sys.getpwnam none h envp file.path
          (usefulText bs)).log := by
  unfold readEntry BodyText.finish
  split
  · rfl
  · rfl
  · exact if_neg (fun hc => Bool.noConfusion hc.2)

/-- What `load_entry` logs in a system crontab. -/
theorem readEntry_remarks {h : CHeap} {envp : Nat} :
    ∀ m ∈ (readEntry sys.getpwnam false none h envp file.path bs).log,
      Remark m := by
  intro m hm
  rw [readEntry_log_eq] at hm
  unfold Remark
  rw [envMessages_open (readUseful_logs hm)]
  decide

/-- A file that is not read is passed over in silence. -/
theorem parseCrontab_unserved (hcontent : file.content = .bytes bs)
    (hno : ∀ envp h, ¬ Served p file envp h) (fuel : Nat) :
    ∀ x ∈ (parseCrontab fuel sys p file).1.output, x.Quiet := by
  unfold parseCrontab
  by_cases hfds : p.fds = 0
  · rw [openFile_mfile hfds]
    intro x hx
    rw [List.mem_singleton.mp hx]
    apply quiet_elog
    unfold Remark
    rw [String.append_assoc, String.append_assoc,
      opening_append (by decide)]
    decide
  · rw [openFile_bytes hcontent hfds]
    dsimp only
    by_cases hfdopen : file.fdopens = true
    · rw [if_pos hfdopen]
      cases hinit : envInit p.heap with
      | mk r h =>
          cases r with
          | some envp => exact absurd ⟨hfds, hfdopen, hinit⟩ (hno envp h)
          | none =>
              intro x hx
              cases hx
    · rw [if_neg hfdopen]
      intro x hx
      rw [List.mem_singleton.mp hx]
      apply quiet_elog
      unfold Remark
      rw [String.append_assoc, opening_append (by decide)]
      decide

/-- The file is served, its one job is taken, and the report on that is
completed. -/
def SoleJob (sys : System) (p : Process) (file : DirEntry)
    (bs : List UInt8) : Prop :=
  ∃ l e envp h, entryLines bs = [l] ∧ loadAlone sys file.path l = some e
    ∧ Served p file envp h
    ∧ LineTaken sys.getpwnam none h envp file.path (usefulText l)
    ∧ e.Reports sys.ptimeThrows sys.now

/-- From some fuel on nothing is lost: the report of the file is that of
its useful lines. -/
def Pays (sys : System) (p : Process) (file : DirEntry)
    (bs : List UInt8) : Prop :=
  ∃ enough, ∀ fuel, enough ≤ fuel →
    NothingLost sys file.path bs (parseCrontab fuel sys p file).1.output

theorem readEntry_entry {h : CHeap} {envp : Nat} {e : Entry} :
    (readEntry sys.getpwnam false none h envp file.path bs).entry = some e
      ↔ (readUseful sys.getpwnam none h envp file.path
          (usefulText bs)).verdict = .entry e :=
  finish_entry

theorem pays_of_noLines (hcontent : file.content = .bytes bs)
    (hlines : entryLines bs = []) : Pays sys p file bs := by
  refine ⟨bs.length + 2, fun fuel hfuel => ?_⟩
  apply nothingLost_nil hlines
  by_cases hserved : ∃ envp h, Served p file envp h
  · obtain ⟨envp, h, hserved⟩ := hserved
    obtain ⟨ln, hread⟩ :=
      @parseCrontab_read sys p file bs envp h hcontent hserved fuel hfuel
    have hentry :
        (readEntry sys.getpwnam false none h envp file.path bs).entry
          = none := by
      unfold readEntry
      rw [usefulText_noLines hlines]
      rfl
    rw [hread, fileReport_jobs, hentry]
  · have hquiet := @parseCrontab_unserved sys p file bs hcontent
      (fun envp h hs => hserved ⟨envp, h, hs⟩) fuel
    rw [List.filter_eq_nil_iff]
    intro x hx
    rw [(hquiet x hx).1]
    exact Bool.false_ne_true

/-- Enough fuel for a search is enough for good. -/
theorem printTime_mono {fuel fuel' : Nat} {throws : Tm → Bool} {now : Tm}
    {e : Entry} (h : (printTime fuel throws now e).2 = .returned)
    (hle : fuel ≤ fuel') : (printTime fuel' throws now e).2 = .returned := by
  obtain ⟨res, hres, hback⟩ := printTime_ending.mp h
  refine printTime_ending.mpr ⟨res, ?_, hback⟩
  obtain ⟨k, rfl⟩ := Nat.exists_eq_add_of_le hle
  rw [nextTime_eq_walk] at hres ⊢
  exact walk_mono hres k

/-- The report of what was read of a file. -/
theorem reports_read {h : CHeap} {envp : Nat} {e : Entry}
    (he : (readEntry sys.getpwnam false none h envp file.path bs).entry
      = some e) (hnow : sys.now.Valid) :
    (∃ fuel, (printTime fuel sys.ptimeThrows sys.now e).2 = .returned)
      ↔ e.Reports sys.ptimeThrows sys.now := by
  obtain ⟨r, hload, hshows⟩ := loadEntry_text sys.getpwnam
    (Stream.ofBytes bs) false none h envp file.path rfl (Nat.le_refl _)
  exact reports_iff hload (hshows.entry.trans he) hnow

theorem pays_of_soleJob (hcontent : file.content = .bytes bs)
    (hnow : sys.now.Valid) (hsole : SoleJob sys p file bs) :
    Pays sys p file bs := by
  obtain ⟨l, e, envp, h, hlines, he, hserved, htaken, hreports⟩ := hsole
  -- the entry as it is read, with its environment elsewhere
  obtain ⟨e', hv⟩ := readUseful_entry_iff.mpr htaken
  have hsame := entry_unique (loadAlone_iff.mp he) hv
  rw [← (readUseful_first hlines).verdict, ← readEntry_entry] at hv
  have hreports' : e'.Reports sys.ptimeThrows sys.now := by
    rw [hsame]
    exact hreports
  obtain ⟨enough, hreturned⟩ := (reports_read hv hnow).mpr hreports'
  refine ⟨max enough (bs.length + 2), fun fuel hfuel => ?_⟩
  apply nothingLost_one hlines he
  obtain ⟨ln, hread⟩ := @parseCrontab_read sys p file bs envp h hcontent
    hserved fuel (Nat.le_trans (Nat.le_max_right _ _) hfuel)
  have hreturned := printTime_mono hreturned
    (Nat.le_trans (Nat.le_max_left _ _) hfuel)
  rw [hread, fileReport_jobs, hv]
  dsimp only
  rw [reportEntry_jobs, if_pos hreturned, hsame]
  rfl

theorem soleJob_of_pays (hcontent : file.content = .bytes bs)
    (hnow : sys.now.Valid) (hpays : Pays sys p file bs)
    {l : List UInt8} {ls : List (List UInt8)}
    (hlines : entryLines bs = l :: ls) : SoleJob sys p file bs := by
  obtain ⟨enough, hpays⟩ := hpays
  have hlost := hpays (max enough (bs.length + 2)) (Nat.le_max_left _ _)
  by_cases hserved : ∃ envp h, Served p file envp h
  case neg =>
    have hnil := hlost.quiet (parseCrontab_unserved hcontent
      (fun envp h hs => hserved ⟨envp, h, hs⟩) _)
    rw [hnil] at hlines
    cases hlines
  obtain ⟨envp, h, hserved⟩ := hserved
  obtain ⟨ln, hread⟩ := @parseCrontab_read sys p file bs envp h hcontent
    hserved _ (Nat.le_max_right enough (bs.length + 2))
  rw [hread] at hlost
  obtain ⟨rfl, e, he, howed⟩ := hlost.sole
    (fun _ => fileReport_remarks readEntry_remarks)
    (fileReport_jobs_length _ _ _) hlines
  rw [fileReport_jobs] at howed
  cases hentry : (readEntry sys.getpwnam false none h envp file.path
      bs).entry with
  | none =>
      rw [hentry] at howed
      cases howed
  | some e' =>
      rw [hentry] at howed
      dsimp only at howed
      rw [reportEntry_jobs] at howed
      -- without its user a job is one line short
      have hreturned : (printTime (max enough (bs.length + 2))
          sys.ptimeThrows sys.now e').2 = .returned := by
        by_contra hno
        rw [if_neg hno] at howed
        have hshort := congrArg List.length howed
        rw [jobLines_length] at hshort
        exact absurd hshort (show ¬ 6 = 7 by decide)
      have hreports := (reports_read hentry hnow).mp ⟨_, hreturned⟩
      have hv := readEntry_entry.mp hentry
      rw [(readUseful_first hlines).verdict] at hv
      have hsame := entry_unique hv (loadAlone_iff.mp he)
      refine ⟨l, e, envp, h, hlines, he, hserved,
        readUseful_entry_iff.mp ⟨e', hv⟩, ?_⟩
      rw [hsame]
      exact hreports

/-- **Which files lose no entry.** Those without entry lines, and those
whose only entry line is taken and its report completed: `parseCrontab`
calls `load_entry` once. -/
theorem nothingLost_iff (hcontent : file.content = .bytes bs)
    (hnow : sys.now.Valid) :
    Pays sys p file bs ↔ entryLines bs = [] ∨ SoleJob sys p file bs := by
  constructor
  · intro hpays
    cases hlines : entryLines bs with
    | nil => exact Or.inl rfl
    | cons l ls =>
        exact Or.inr (soleJob_of_pays hcontent hnow hpays hlines)
  · intro hcase
    rcases hcase with hlines | hsole
    · exact pays_of_noLines hcontent hlines
    · exact pays_of_soleJob hcontent hnow hsole

end

-- ======================================================== two crontabs

/-- A system with one user, on a January morning. -/
def rootSystem : System :=
  { getpwnam := rootOnly, now := januaryMorning,
    ptimeThrows := fun _ => false }

/-- A process that has opened nothing. -/
def startProcess (fds : Nat) : Process :=
  { fds := fds, heap := BlockHeap.Heap.empty fun _ => true,
    lineNumber := 0 }

/-- A file that can be opened. -/
def textFile (path : String) (bs : List UInt8) : DirEntry :=
  { path := path, regular := true, content := .bytes bs, fdopens := true }

theorem startProcess_served {n : Nat} (path : String) (bs : List UInt8) :
    Served (startProcess (n + 1)) (textFile path bs) 0 freshHeap :=
  ⟨Nat.succ_ne_zero n, rfl, rfl⟩

/-- The one job of a file is reported, and nothing is lost. -/
theorem noon_job_reported :
    Pays rootSystem (startProcess 1)
      (textFile "noon" (bytes "# noon\n0 12 * * * root true\n"))
      (bytes "# noon\n0 12 * * * root true\n") := by
  apply (nothingLost_iff rfl januaryMorning_valid).mpr
  refine Or.inr ?_
  have hlines : entryLines (bytes "# noon\n0 12 * * * root true\n")
      = [bytes "0 12 * * * root true\n"] := by
    decide +kernel
  have hfacts : (loadAlone rootSystem "noon"
        (bytes "0 12 * * * root true\n")).map (fun e =>
          (hasFlag e.flags whenReboot, hasFlag e.flags domStar,
            bitTest e.bits monthField.name 1))
      = some (false, true, true) := by
    decide +kernel
  obtain ⟨e, he, hfacts⟩ := Option.map_eq_some_iff.mp hfacts
  injection hfacts with hreboot hfacts
  injection hfacts with hstar hmonth
  obtain ⟨r, hload, hre⟩ := Option.bind_eq_some_iff.mp he
  have hs := startsOver_of_loadEntry hload hre hreboot
  have hfinds : e.FindsDay ∧ e.FindsMonth januaryMorning :=
    ⟨Or.inl hstar, Or.inl ⟨1, by decide, by decide, hmonth⟩⟩
  obtain ⟨t, ht⟩ := Entry.prints_of_finds hs (by decide) hfinds
  refine ⟨_, e, 0, freshHeap, hlines, he, startProcess_served _ _, ?_, ?_⟩
  · have htaken := readUseful_entry_iff.mp ⟨e, loadAlone_iff.mp he⟩
    exact htaken.granted fun _ => rfl
  · exact Or.inl ⟨hfinds.1, hfinds.2, t, ((prints_iff hs).mp ht).2, rfl⟩

/-- A file with two jobs, one behind the other. -/
def twoJobs : List UInt8 :=
  bytes "0 12 * * * root true\n0 13 * * * root false\n"

/-- Two jobs in one file: the second one is lost. -/
theorem second_job_lost :
    ¬ Pays rootSystem (startProcess 1) (textFile "jobs" twoJobs)
      twoJobs := by
  have hlines : entryLines twoJobs
      = [bytes "0 12 * * * root true\n", bytes "0 13 * * * root false\n"] := by
    decide +kernel
  intro hpays
  obtain ⟨l, e, envp, h, hone, -⟩ :=
    soleJob_of_pays rfl januaryMorning_valid hpays hlines
  rw [hlines] at hone
  cases hone

end Tinjac
