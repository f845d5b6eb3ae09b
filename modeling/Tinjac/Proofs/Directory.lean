/-
The files of a directory, one after the other.

# One file

The job of a file is the entry of its first line (`DirEntry.job`). As
long as a descriptor and memory are left `parseCrontab` returns from a
file unless its job is one whose report is never completed (`Stalls`,
`Ready.returned_iff`); without a descriptor it reports that, and nothing
of the file.

# Many files

The loop of `setPath` is a batch (`setPathLoop_eq_run`). What a file is
reported as is disturbed by the files before it in two ways: one of them
stalls, or they have used up the descriptors, since none is ever closed.
Nothing else of them shows (`independent_iff`).
-/
import Tinjac.Lib.Batch
import Tinjac.Proofs.SameReport

namespace Tinjac

open BlockHeap CHeap

-- =================================================== the job of a file

/-- The entry a file is loaded with, if it is read. -/
def DirEntry.job (sys : System) (file : DirEntry) : Option Entry :=
  match file.content with
  | .removed => none
  | .unreadable => none
  | .bytes bs =>
      if file.fdopens then
        (entryLines bs).head?.bind (loadAlone sys file.path)
      else none

/-- The report on the job of the file is never completed. -/
def Stalls (sys : System) (file : DirEntry) : Prop :=
  file.regular = true
    ∧ ∃ e, file.job sys = some e ∧ ¬ e.Reports sys.ptimeThrows sys.now

section

variable {sys : System} {file : DirEntry} {bs : List UInt8} {e : Entry}

theorem freshHeap_blank : Blank freshHeap 0 := by
  have hinit : envInit (BlockHeap.Heap.empty fun _ => true)
      = (some 0, freshHeap) := rfl
  exact .of_envInit (fun _ => rfl) hinit

/-- What a file is loaded with is what its first line is. -/
theorem readEntry_fresh :
    (readEntry sys.getpwnam false none freshHeap 0 file.path bs).entry
      = (entryLines bs).head?.bind (loadAlone sys file.path) := by
  apply Option.ext
  intro e
  rw [readEntry_entry]
  cases hlines : entryLines bs with
  | nil =>
      rw [usefulText_noLines hlines]
      refine iff_of_false ?_ ?_
      · exact fun h => by cases h
      · exact fun h => by cases h
  | cons l ls =>
      rw [(readUseful_first hlines).verdict, List.head?_cons,
        Option.bind_some]
      exact loadAlone_iff.symm

theorem job_bytes (hcontent : file.content = .bytes bs)
    (hfdopen : file.fdopens = true) :
    file.job sys
      = (readEntry sys.getpwnam false none freshHeap 0 file.path
          bs).entry := by
  unfold DirEntry.job
  rw [hcontent, readEntry_fresh]
  dsimp only
  rw [if_pos hfdopen]

/-- Whether the report of a line's entry is completed. -/
theorem loadAlone_reports {fname : String} {l : List UInt8}
    (he : loadAlone sys fname l = some e) (hnow : sys.now.Valid) :
    (∃ fuel, (printTime fuel sys.ptimeThrows sys.now e).2 = .returned)
      ↔ e.Reports sys.ptimeThrows sys.now := by
  obtain ⟨r, hload, hre⟩ := Option.bind_eq_some_iff.mp he
  exact reports_iff hload hre hnow

theorem job_reports (he : file.job sys = some e) (hnow : sys.now.Valid) :
    (∃ fuel, (printTime fuel sys.ptimeThrows sys.now e).2 = .returned)
      ↔ e.Reports sys.ptimeThrows sys.now := by
  unfold DirEntry.job at he
  split at he
  · cases he
  · cases he
  · split at he
    · obtain ⟨l, -, he⟩ := Option.bind_eq_some_iff.mp he
      exact loadAlone_reports he hnow
    · cases he

/-- The fuel is enough to read the file, and to search for the next time
of its job where that ends. -/
structure DirEntry.Enough (fuel : Nat) (sys : System)
    (file : DirEntry) : Prop where
  reads : file.content.Reads fuel
  searches : ∀ e, file.job sys = some e →
    e.Reports sys.ptimeThrows sys.now →
    (printTime fuel sys.ptimeThrows sys.now e).2 = .returned

theorem Content.exists_reads (content : Content) :
    ∃ enough, ∀ fuel, enough ≤ fuel → content.Reads fuel := by
  cases content with
  | removed => exact ⟨0, fun fuel _ bs h => by cases h⟩
  | unreadable => exact ⟨0, fun fuel _ bs h => by cases h⟩
  | bytes bs =>
      refine ⟨bs.length + 2, fun fuel hfuel bs' h => ?_⟩
      injection h with h
      rw [← h]
      exact hfuel

theorem DirEntry.exists_enough (sys : System) (hnow : sys.now.Valid)
    (file : DirEntry) :
    ∃ enough, ∀ fuel, enough ≤ fuel → file.Enough fuel sys := by
  obtain ⟨n, hreads⟩ := file.content.exists_reads
  by_cases hends : ∃ e, file.job sys = some e
      ∧ e.Reports sys.ptimeThrows sys.now
  · obtain ⟨e, he, hreports⟩ := hends
    obtain ⟨m, hreturned⟩ := (job_reports he hnow).mpr hreports
    refine ⟨max n m, fun fuel hfuel => ⟨?_, ?_⟩⟩
    · exact hreads fuel (Nat.le_trans (Nat.le_max_left n m) hfuel)
    · intro e' he' _
      rw [he] at he'
      injection he' with he'
      rw [← he']
      exact printTime_mono hreturned
        (Nat.le_trans (Nat.le_max_right n m) hfuel)
  · refine ⟨n, fun fuel hfuel => ⟨hreads fuel hfuel, ?_⟩⟩
    intro e he hreports
    exact absurd ⟨e, he, hreports⟩ hends

theorem exists_enough (sys : System) (hnow : sys.now.Valid)
    (files : List DirEntry) :
    ∃ enough, ∀ fuel, enough ≤ fuel →
      ∀ file ∈ files, file.Enough fuel sys := by
  induction files with
  | nil => exact ⟨0, fun _ _ _ hfile => by cases hfile⟩
  | cons file files ih =>
      obtain ⟨n, hfile⟩ := file.exists_enough sys hnow
      obtain ⟨m, hfiles⟩ := ih
      refine ⟨max n m, fun fuel hfuel g hg => ?_⟩
      rcases List.mem_cons.mp hg with rfl | hg
      · exact hfile fuel (Nat.le_trans (Nat.le_max_left n m) hfuel)
      · exact hfiles fuel (Nat.le_trans (Nat.le_max_right n m) hfuel) g hg

-- ==================================================== what is reported

variable {p : Process} {fuel : Nat}

/-- The report of a file that is read. -/
theorem Ready.report (hp : Ready p) (hcontent : file.content = .bytes bs)
    (hfdopen : file.fdopens = true) (hfuel : file.content.Reads fuel) :
    ∃ log, (∀ m ∈ log, m ∈ envMessages file.path)
      ∧ (parseCrontab fuel sys p file).1
        = fileReport fuel sys log (file.job sys) := by
  obtain ⟨envp, h, hserved, hb⟩ := hp.served hfdopen
  obtain ⟨ln, hread⟩ := @parseCrontab_read sys p file bs envp h hcontent
    hserved fuel (hfuel bs hcontent)
  refine ⟨(readEntry sys.getpwnam false none h envp file.path bs).log,
    ?_, ?_⟩
  · intro m hm
    rw [readEntry_log_eq] at hm
    exact readUseful_logs hm
  · rw [hread, job_bytes hcontent hfdopen]
    exact (hb.readEntry_entry freshHeap_blank).fileReport fuel sys _

/-- **When `parseCrontab` returns.** With a descriptor and memory to
spare, and enough fuel, it returns from a file unless the report of the
file's job stalls. -/
theorem Ready.returned_iff (hp : Ready p) (hreg : file.regular = true)
    (hnow : sys.now.Valid) (henough : file.Enough fuel sys) :
    (parseCrontab fuel sys p file).1.ending = .returned
      ↔ ¬ Stalls sys file := by
  by_cases hread : ∃ bs, file.content = .bytes bs ∧ file.fdopens = true
  · obtain ⟨bs, hcontent, hfdopen⟩ := hread
    obtain ⟨log, -, hreport⟩ :=
      @Ready.report sys file bs p fuel hp hcontent hfdopen henough.reads
    rw [hreport]
    cases hjob : file.job sys with
    | none =>
        refine iff_of_true rfl ?_
        intro ⟨_, e, he, _⟩
        rw [hjob] at he
        cases he
    | some e =>
        have hending : (fileReport fuel sys log (some e)).ending
            = (printTime fuel sys.ptimeThrows sys.now e).2 :=
          reportEntry_ending fuel sys e
        rw [hending]
        constructor
        · intro hreturned
          have hreports := (job_reports hjob hnow).mp ⟨fuel, hreturned⟩
          intro ⟨_, e', he', hno⟩
          rw [hjob] at he'
          injection he' with he'
          rw [he'] at hreports
          exact hno hreports
        · intro hstalls
          apply henough.searches e hjob
          by_contra hno
          exact hstalls ⟨hreg, e, hjob, hno⟩
  · -- nothing is read of the file
    have hjob : file.job sys = none := by
      unfold DirEntry.job
      split
      · rfl
      · rfl
      · next bs hcontent =>
        exact if_neg fun hfdopen => hread ⟨bs, hcontent, hfdopen⟩
    refine iff_of_true ?_ ?_
    · unfold parseCrontab openFile
      rw [if_neg hp.fds]
      cases hcontent : file.content with
      | removed => rfl
      | unreadable => rfl
      | bytes bs =>
          dsimp only
          rw [if_neg fun hfdopen => hread ⟨bs, hcontent, hfdopen⟩]
    · intro ⟨_, e, he, _⟩
      rw [hjob] at he
      cases he

/-- The message that no file can be opened. -/
def mfileMsg (fname : String) : String :=
  "Can't open " ++ fname ++ ": " ++ strerror .mfile

theorem cantOpen_ne (fname : String) {errno : Errno}
    (hne : errno ≠ .mfile) :
    "Can't open " ++ fname ++ ": " ++ strerror errno ≠ mfileMsg fname := by
  intro h
  have h := congrArg String.toList h
  unfold mfileMsg at h
  simp only [String.toList_append] at h
  have h := List.append_cancel_left h
  revert h
  cases errno with
  | noent => decide
  | acces => decide
  | mfile => exact absurd rfl hne

theorem ne_mfileMsg {m fname : String} (hm : opening m ≠ ['C', 'a']) :
    m ≠ mfileMsg fname := by
  intro heq
  apply hm
  rw [heq, mfileMsg, String.append_assoc, String.append_assoc,
    opening_append (by decide)]
  rfl

/-- The report of a file that is read does not start with it. -/
theorem fileReport_head {log : List String} {entry : Option Entry}
    {fname : String} (hlog : ∀ m ∈ log, m ∈ envMessages fname) :
    (fileReport fuel sys log entry).output.head?
      ≠ some (.elog (mfileMsg fname)) := by
  cases log with
  | cons m log =>
      have hhead : (fileReport fuel sys (m :: log) entry).output.head?
          = some (.elog m) := by
        cases entry with
        | none => rfl
        | some e => rfl
      rw [hhead]
      intro h
      injection h with h
      injection h with h
      refine ne_mfileMsg ?_ h
      rw [envMessages_open (hlog m List.mem_cons_self)]
      decide
  | nil =>
      cases entry with
      | none => exact fun h => by cases h
      | some e =>
          -- the command is printed first
          have hhead : (fileReport fuel sys [] (some e)).output.head?
              = some (.command e.cmd) := by
            show (reportEntry fuel sys e).output.head? = _
            unfold reportEntry
            dsimp only
            split
            · rfl
            · rfl
          rw [hhead]
          exact fun h => by cases h

theorem Ready.head_ne (hp : Ready p) (hfuel : file.content.Reads fuel) :
    (parseCrontab fuel sys p file).1.output.head?
      ≠ some (.elog (mfileMsg file.path)) := by
  cases hcontent : file.content with
  | removed =>
      unfold parseCrontab openFile
      rw [if_neg hp.fds, hcontent]
      intro h
      injection h with h
      injection h with h
      exact cantOpen_ne file.path (by decide) h
  | unreadable =>
      unfold parseCrontab openFile
      rw [if_neg hp.fds, hcontent]
      intro h
      injection h with h
      injection h with h
      exact cantOpen_ne file.path (by decide) h
  | bytes bs =>
      by_cases hfdopen : file.fdopens = true
      · obtain ⟨log, hlog, hreport⟩ :=
          @Ready.report sys file bs p fuel hp hcontent hfdopen hfuel
        rw [hreport]
        exact fileReport_head hlog
      · unfold parseCrontab
        rw [openFile_bytes hcontent hp.fds]
        dsimp only
        rw [if_neg hfdopen]
        intro h
        injection h with h
        injection h with h
        refine ne_mfileMsg ?_ h
        rw [String.append_assoc, opening_append (by decide)]
        decide

/-- **A file that could be opened** is not reported as one that could
not. -/
theorem Ready.ne_mfile (hp : Ready p) (hfuel : file.content.Reads fuel)
    {q : Process} (hq : q.fds = 0) :
    (parseCrontab fuel sys p file).1 ≠ (parseCrontab fuel sys q file).1 := by
  rw [parseCrontab_mfile hq]
  intro h
  exact hp.head_ne hfuel (by rw [h]; rfl)

end

-- ========================================================== many files

/-- A turn of the loop of `setPath`. -/
def fileStep (fuel : Nat) (sys : System) (p : Process)
    (file : DirEntry) : (String × Report) × Process :=
  if file.regular then
    let (report, p) := parseCrontab fuel sys p file
    ((file.path, report), p)
  else ((file.path, { output := [], ending := .returned }), p)

/-- The loop goes on after this: the file was passed over, or its report
has returned. -/
def GoesOn (r : String × Report) : Prop := r.2.ending = .returned

instance : DecidablePred GoesOn :=
  fun r => inferInstanceAs (Decidable (r.2.ending = .returned))

/-- How many descriptors the files take: one for each that can be opened,
since none of them is closed. -/
def opened (files : List DirEntry) : Nat :=
  files.countP fun file => file.regular && file.content.opens

/-- The files before one do not disturb it: none of them stalls, and they
leave a descriptor, unless there was none to begin with. -/
def Undisturbed (sys : System) (p : Process)
    (before : List DirEntry) : Prop :=
  p.fds = 0 ∨ opened before < p.fds ∧ ∀ g ∈ before, ¬ Stalls sys g

section

variable {sys : System} {p : Process} {fuel : Nat} {file : DirEntry}
  {before : List DirEntry}

/-- The loop is a batch. -/
theorem setPathLoop_eq_run (p : Process) (files : List DirEntry) :
    setPathLoop fuel sys p files
      = Batch.run (fileStep fuel sys) GoesOn p files := by
  induction files generalizing p with
  | nil => rfl
  | cons file files ih =>
      unfold setPathLoop Batch.run
      by_cases hreg : file.regular = true
      · have hstep : fileStep fuel sys p file
            = ((file.path, (parseCrontab fuel sys p file).1),
              (parseCrontab fuel sys p file).2) := if_pos hreg
        rw [if_pos hreg, hstep]
        dsimp only
        by_cases hback : (parseCrontab fuel sys p file).1.ending = .returned
        · have hgoes : GoesOn (file.path, (parseCrontab fuel sys p file).1) :=
            hback
          rw [if_pos hback, if_pos hgoes, ih]
        · have hstops :
              ¬ GoesOn (file.path, (parseCrontab fuel sys p file).1) := hback
          rw [if_neg hback, if_neg hstops]
      · have hstep : fileStep fuel sys p file
            = ((file.path, { output := [], ending := .returned }), p) :=
          if_neg hreg
        have hgoes : GoesOn
            (file.path, { output := [], ending := .returned }) := rfl
        rw [if_neg hreg, hstep]
        dsimp only
        rw [if_pos hgoes, ih]

theorem opened_cons (file : DirEntry) (files : List DirEntry) :
    opened (file :: files) = opened [file] + opened files := by
  unfold opened
  rw [List.countP_cons, List.countP_singleton]
  exact Nat.add_comm _ _

theorem fileStep_process (hg : AllGranted p.heap) :
    AllGranted (fileStep fuel sys p file).2.heap
      ∧ (fileStep fuel sys p file).2.fds = p.fds - opened [file] := by
  unfold fileStep opened
  rw [List.countP_singleton]
  by_cases hreg : file.regular = true
  · rw [if_pos hreg, hreg, Bool.true_and]
    exact parseCrontab_process hg fuel
  · rw [if_neg hreg, Bool.eq_false_iff.mpr hreg, Bool.false_and]
    exact ⟨hg, rfl⟩

/-- What is left behind the files before one. -/
theorem after_process (hg : AllGranted p.heap) :
    AllGranted (Batch.after (fileStep fuel sys) p before).heap
      ∧ (Batch.after (fileStep fuel sys) p before).fds
        = p.fds - opened before := by
  induction before generalizing p with
  | nil => exact ⟨hg, rfl⟩
  | cons g before ih =>
      obtain ⟨hg', hfds⟩ := @fileStep_process sys p fuel g hg
      obtain ⟨hafter, hleft⟩ := ih hg'
      rw [Batch.after_cons, opened_cons]
      refine ⟨hafter, ?_⟩
      rw [hleft, hfds]
      omega

theorem fileStep_goesOn (hp : Ready p) (hnow : sys.now.Valid)
    (henough : file.Enough fuel sys) :
    GoesOn (fileStep fuel sys p file).1 ↔ ¬ Stalls sys file := by
  unfold fileStep GoesOn
  by_cases hreg : file.regular = true
  · rw [if_pos hreg]
    exact hp.returned_iff hreg hnow henough
  · rw [if_neg hreg]
    exact iff_of_true rfl fun hstalls => hreg hstalls.1

/-- **When the loop gets past** files it has descriptors for. -/
theorem allBack_iff (hg : AllGranted p.heap) (hnow : sys.now.Valid)
    (henough : ∀ g ∈ before, g.Enough fuel sys)
    (hleft : opened before < p.fds) :
    Batch.AllBack (fileStep fuel sys) GoesOn p before
      ↔ ∀ g ∈ before, ¬ Stalls sys g := by
  induction before generalizing p with
  | nil => exact iff_of_true trivial fun g hmem => by cases hmem
  | cons g before ih =>
      rw [opened_cons] at hleft
      have hp : Ready p := ⟨by omega, hg⟩
      obtain ⟨hg', hfds⟩ := @fileStep_process sys p fuel g hg
      have hrest := ih hg'
        (fun f hf => henough f (List.mem_cons_of_mem g hf)) (by omega)
      rw [Batch.allBack_cons, hrest, List.forall_mem_cons,
        fileStep_goesOn hp hnow (henough g List.mem_cons_self)]

/-- Without descriptors the loop gets past every file. -/
theorem mfile_run (hfds : p.fds = 0) :
    Batch.AllBack (fileStep fuel sys) GoesOn p before
      ∧ Batch.after (fileStep fuel sys) p before = p := by
  induction before with
  | nil => exact ⟨trivial, rfl⟩
  | cons g before ih =>
      have hstep : GoesOn (fileStep fuel sys p g).1
          ∧ (fileStep fuel sys p g).2 = p := by
        unfold fileStep
        split
        · rw [parseCrontab_mfile hfds]
          exact ⟨rfl, rfl⟩
        · exact ⟨rfl, rfl⟩
      rw [Batch.allBack_cons, Batch.after_cons, hstep.2]
      exact ⟨⟨hstep.1, ih.1⟩, ih.2⟩

/-- What a file is reported as, behind others and alone. -/
theorem setPath_same_iff (hg : AllGranted p.heap) (hnow : sys.now.Valid)
    (hreg : file.regular = true) (after : List DirEntry)
    (henough : ∀ g ∈ file :: before, g.Enough fuel sys) :
    (setPath fuel sys p (some (before ++ file :: after))).2[before.length]?
        = (setPath fuel sys p (some [file])).2[0]?
      ↔ Undisturbed sys p before := by
  have hreport : ∀ q, (fileStep fuel sys q file).1
      = (file.path, (parseCrontab fuel sys q file).1) := by
    intro q
    unfold fileStep
    rw [if_pos hreg]
  have hreads := (henough file List.mem_cons_self).reads
  have hothers : ∀ g ∈ before, g.Enough fuel sys :=
    fun g hmem => henough g (List.mem_cons_of_mem file hmem)
  obtain ⟨hg', hfds'⟩ := @after_process sys p fuel before hg
  show (setPathLoop fuel sys p (before ++ file :: after))[before.length]?
    = (setPathLoop fuel sys p [file])[0]? ↔ _
  rw [setPathLoop_eq_run, setPathLoop_eq_run, Batch.run_at_alone_iff]
  by_cases hnone : p.fds = 0
  · obtain ⟨hback, hsame⟩ := @mfile_run sys p fuel before hnone
    rw [hsame]
    exact iff_of_true ⟨hback, rfl⟩ (Or.inl hnone)
  have hp : Ready p := ⟨hnone, hg⟩
  by_cases hleft : opened before < p.fds
  · have hq : Ready (Batch.after (fileStep fuel sys) p before) :=
      ⟨by omega, hg'⟩
    have hsame := @parseCrontab_same sys file p _ hp hq fuel hreads
    rw [allBack_iff hg hnow hothers hleft, hreport, hreport, hsame]
    constructor
    · intro h
      exact Or.inr ⟨hleft, h.1⟩
    · intro h
      rcases h with h | ⟨-, h⟩
      · exact absurd h hnone
      · exact ⟨h, rfl⟩
  · refine iff_of_false ?_ ?_
    · intro ⟨_, hsame⟩
      rw [hreport, hreport] at hsame
      injection hsame with _ hsame
      exact hp.ne_mfile hreads (by omega) hsame
    · intro h
      rcases h with h | ⟨h, -⟩
      · exact hnone h
      · exact hleft h

end

-- ======================================================== independence

/-- With enough fuel every regular file is reported as if it were the
only one. -/
def Independent (sys : System) (p : Process)
    (files : List DirEntry) : Prop :=
  ∀ before file after, files = before ++ file :: after →
    file.regular = true →
    ∃ enough, ∀ fuel, enough ≤ fuel →
      (setPath fuel sys p (some files)).2[before.length]?
        = (setPath fuel sys p (some [file])).2[0]?

/-- One file of a directory. -/
theorem reported_alone_iff {sys : System} {p : Process}
    (hg : AllGranted p.heap) (hnow : sys.now.Valid)
    (before after : List DirEntry) {file : DirEntry}
    (hreg : file.regular = true) :
    (∃ enough, ∀ fuel, enough ≤ fuel →
        (setPath fuel sys p
            (some (before ++ file :: after))).2[before.length]?
          = (setPath fuel sys p (some [file])).2[0]?)
      ↔ Undisturbed sys p before := by
  obtain ⟨n, hn⟩ := exists_enough sys hnow (file :: before)
  constructor
  · intro ⟨m, hm⟩
    exact (setPath_same_iff hg hnow hreg after
      (hn (max n m) (Nat.le_max_left n m))).mp
      (hm (max n m) (Nat.le_max_right n m))
  · intro h
    refine ⟨n, fun fuel hfuel => ?_⟩
    exact (setPath_same_iff hg hnow hreg after (hn fuel hfuel)).mpr h

/-- **When the files of a directory do not affect each other.** If and
only if each regular file among them is undisturbed by those before it:
none of these stalls, and they leave a descriptor for it, unless there was
none to begin with. -/
theorem independent_iff {sys : System} {p : Process}
    (hg : AllGranted p.heap) (hnow : sys.now.Valid)
    (files : List DirEntry) :
    Independent sys p files
      ↔ ∀ before file after, files = before ++ file :: after →
        file.regular = true → Undisturbed sys p before := by
  constructor
  · intro h before file after hfiles hreg
    have hone := h before file after hfiles hreg
    rw [hfiles] at hone
    exact (reported_alone_iff hg hnow before after hreg).mp hone
  · intro h before file after hfiles hreg
    have hone := h before file after hfiles hreg
    rw [hfiles]
    exact (reported_alone_iff hg hnow before after hreg).mpr hone

/-- A file without jobs, which costs a descriptor all the same. -/
def remarkFile : DirEntry := textFile "remark" (bytes "# nothing\n")

/-- A file with a job that is to be run at boot time. -/
def rebootFile : DirEntry := textFile "reboot" (bytes "@reboot root true\n")

/-- A file with a job at noon. -/
def noonFile : DirEntry := textFile "noon" (bytes "0 12 * * * root true\n")

theorem startProcess_granted (n : Nat) : AllGranted (startProcess n).heap :=
  fun _ => rfl

/-- A comment and a job, with descriptors for both. -/
theorem noon_behind_remark :
    Independent rootSystem (startProcess 2) [remarkFile, noonFile] := by
  apply (independent_iff (startProcess_granted 2) januaryMorning_valid
    [remarkFile, noonFile]).mpr
  intro before file after hfiles hreg
  cases before with
  | nil => exact Or.inr ⟨by decide, fun g hmem => by cases hmem⟩
  | cons f before =>
      injection hfiles with hf hfiles
      cases before with
      | nil =>
          rw [← hf]
          refine Or.inr ⟨by decide, fun g hmem => ?_⟩
          rw [List.mem_singleton.mp hmem]
          have hjob : (remarkFile.job rootSystem).isNone = true := by
            decide +kernel
          intro ⟨_, e, he, _⟩
          rw [he] at hjob
          cases hjob
      | cons f' before =>
          injection hfiles with _ hfiles
          exact absurd hfiles (by simp)

theorem rebootFile_stalls : Stalls rootSystem rebootFile := by
  have hfacts : (rebootFile.job rootSystem).map (fun e =>
      (e.domAt 1, bitTest e.bits monthField.name 12))
      = some (none, false) := by
    decide +kernel
  obtain ⟨e, he, hfacts⟩ := Option.map_eq_some_iff.mp hfacts
  injection hfacts with hdom hmonth
  refine ⟨rfl, e, he, ?_⟩
  intro hreports
  rcases hreports with ⟨hday, -⟩ | ⟨-, hset, -⟩
  · exact Entry.findsDay_iff.mp hday hdom
  · rw [hmonth] at hset
    cases hset

/-- The job at noon is lost behind a file that took the last descriptor,
and behind one that is searched for ever. -/
theorem noon_lost_behind :
    ¬ Independent rootSystem (startProcess 1) [remarkFile, noonFile]
      ∧ ¬ Independent rootSystem (startProcess 2)
        [rebootFile, noonFile] := by
  constructor
  · intro h
    have hnoon := (reported_alone_iff (startProcess_granted 1)
      januaryMorning_valid [remarkFile] [] rfl).mp
      (h [remarkFile] noonFile [] rfl rfl)
    rcases hnoon with hnone | ⟨hleft, -⟩
    · cases hnone
    · exact absurd hleft (by decide)
  · intro h
    have hnoon := (reported_alone_iff (startProcess_granted 2)
      januaryMorning_valid [rebootFile] [] rfl).mp
      (h [rebootFile] noonFile [] rfl rfl)
    rcases hnoon with hnone | ⟨-, hstalls⟩
    · cases hnone
    · exact hstalls rebootFile List.mem_cons_self rebootFile_stalls

end Tinjac
