/-
What the report of a file depends on.

Each file is read with an environment that `env_init` has just made, so
as long as memory is left a job finds the same empty environment in
every process (`Blank`). What is logged and what is printed then do not
show the heap (`parseCrontab_same`): the only thing a file takes from the
next is a descriptor (`parseCrontab_process`).
-/
import Tinjac.Proofs.NothingLost

namespace Tinjac

open BlockHeap BlockHeap.Heap CHeap

-- ======================================================= the heap kept

/-- Where nothing but blocks changed, memory is still to spare. -/
theorem AllGranted.frame {h h' : CHeap} {S : Nat → Prop}
    (hg : AllGranted h) (hf : Frame h h' S) : AllGranted h' := by
  intro k
  rw [hf.granted]
  exact hg k

theorem AllGranted.envInit {h : CHeap} (hg : AllGranted h) :
    ∃ envp h', Tinjac.envInit h = (some envp, h') ∧ AllGranted h'
      ∧ Rep h' envp [] [] := by
  rcases envInit_spec h with ⟨-, -, -, k, hno⟩ | ⟨envp, h', heq, hrep, hf, -⟩
  · rw [hg k] at hno
    cases hno
  · exact ⟨envp, h', heq, hg.frame hf, hrep⟩

/-- `load_entry` changes nothing but blocks of its own. -/
theorem loadEntry_frame {fuel : Nat} {getpwnam : CString → Option Passwd}
    {file : Stream} {errorFunc : Bool} {pw : Option Passwd} {h : CHeap}
    {envp : Nat} {fname : String} {r : LoadResult}
    (hbuilt : EnvBuilt h envp)
    (hload : loadEntry fuel getpwnam file errorFunc pw h envp fname
      = some r) : Frame h r.heap fun _ => False := by
  have howns := @loadBody_owns getpwnam pw h envp fname hbuilt file
  rw [(loadEntry_body hload).1]
  exact howns.kept.2

-- =============================================== the empty environment

/-- An environment just made, and memory to spare. -/
structure Blank (h : CHeap) (envp : Nat) : Prop where
  built : EnvBuilt h envp
  granted : AllGranted h
  unset : ∀ n, envGet h n envp = none

theorem Blank.of_envInit {h h' : CHeap} {envp : Nat} (hg : AllGranted h)
    (hinit : envInit h = (some envp, h')) : Blank h' envp := by
  obtain ⟨p, h1, heq, hg1, hrep⟩ := hg.envInit
  rw [hinit] at heq
  injection heq with hp hh
  injection hp with hp
  subst hp hh
  refine ⟨.init hinit, hg1, fun n => ?_⟩
  rw [envGet_find hrep]
  rfl

section

variable {getpwnam : CString → Option Passwd} {pw : Option Passwd}
  {h h' : CHeap} {envp envp' : Nat}

theorem Blank.prepareJob (hb : Blank h envp) (pw : Passwd)
    (fname : String) :
    ∃ q h1, Tinjac.prepareJob h envp pw fname
        = (.ok q, h1, jobLog pw fname fun _ => none)
      ∧ AllGranted h1 := by
  have hg : AllGranted { h with asked := h.asked + 1 } := hb.granted
  have hunset : (fun m => envGet { h with asked := h.asked + 1 } m envp)
      = fun _ => none := funext hb.unset
  obtain ⟨q, h1, hload, hg1⟩ :=
    loadEnv_log hb.built.request hg pw fname
  refine ⟨q, h1, ?_, hg1⟩
  unfold Tinjac.prepareJob
  rw [hb.granted.pwDup pw]
  dsimp only
  rw [hload, hunset]

/-- What the reading of a job logs, if nothing is set in its environment:
the variables that do not fit. -/
theorem Blank.readJob_log (hb : Blank h envp) (fname : String)
    (bits : Bitmaps) (flags : Nat) (t : List UInt8) :
    (readJob getpwnam pw h envp fname bits flags t).log
      = match readUser getpwnam pw t with
        | .error _ => []
        | .ok (pw, _, _) => jobLog pw fname fun _ => none := by
  unfold readJob
  cases readUser getpwnam pw t with
  | error r => rfl
  | ok r =>
      obtain ⟨pw', t', stand⟩ := r
      obtain ⟨q, h1, hprep, hg1⟩ := hb.prepareJob pw' fname
      dsimp only
      rw [hprep]
      dsimp only
      split
      · rfl
      · unfold request
        dsimp only
        rw [if_pos (hg1 h1.asked)]

theorem Blank.readLine_log (hb : Blank h envp) (hb' : Blank h' envp')
    (fname : String) (flags : Nat) (t : List UInt8) :
    (readLine getpwnam pw h envp fname flags t).log
      = (readLine getpwnam pw h' envp' fname flags t).log := by
  unfold readLine
  split
  · rw [hb.readJob_log, hb'.readJob_log]
  · rfl

theorem Blank.readUseful_log (hb : Blank h envp) (hb' : Blank h' envp')
    (fname : String) (t : List UInt8) :
    (readUseful getpwnam pw h envp fname t).log
      = (readUseful getpwnam pw h' envp' fname t).log := by
  unfold readUseful
  split
  · rfl
  · split
    · split
      · split
        · rfl
        · exact hb.readLine_log hb' fname _ _
      · rfl
    · exact hb.readLine_log hb' fname _ _

end

-- ===================================================== the same report

section

variable {sys : System} {file : DirEntry} {bs : List UInt8}
  {h h' : CHeap} {envp envp' : Nat}

/-- Two calls of `load_entry` returned the same, but for the address of
the environment. -/
inductive SameEntry : Option Entry → Option Entry → Prop
  | none : SameEntry none none
  | some (e : Entry) (envp : Nat) :
      SameEntry (some e) (some { e with envp := envp })

theorem Blank.readEntry_entry (hb : Blank h envp) (hb' : Blank h' envp') :
    SameEntry
      (readEntry sys.getpwnam false none h envp file.path bs).entry
      (readEntry sys.getpwnam false none h' envp' file.path bs).entry := by
  have htaken : ∀ {h h' : CHeap} {envp envp' : Nat} {e : Entry},
      AllGranted h' →
      (readEntry sys.getpwnam false none h envp file.path bs).entry
        = some e →
      ∃ e', (readEntry sys.getpwnam false none h' envp' file.path
        bs).entry = some e' := by
    intro h h' envp envp' e hg he
    have hline := readUseful_entry_iff.mp ⟨e, Tinjac.readEntry_entry.mp he⟩
    obtain ⟨e', hv⟩ := readUseful_entry_iff.mpr (hline.granted hg)
    exact ⟨e', Tinjac.readEntry_entry.mpr hv⟩
  cases hentry : (readEntry sys.getpwnam false none h envp file.path
      bs).entry with
  | none =>
      cases hentry' : (readEntry sys.getpwnam false none h' envp' file.path
          bs).entry with
      | none => exact .none
      | some e' =>
          obtain ⟨e, he⟩ := htaken hb.granted hentry'
          rw [hentry] at he
          cases he
  | some e =>
      obtain ⟨e', he'⟩ := htaken hb'.granted hentry
      have hsame := entry_unique (Tinjac.readEntry_entry.mp hentry)
        (Tinjac.readEntry_entry.mp he')
      rw [he', hsame]
      exact .some e e'.envp

theorem Blank.readEntry_log (hb : Blank h envp) (hb' : Blank h' envp') :
    (readEntry sys.getpwnam false none h envp file.path bs).log
      = (readEntry sys.getpwnam false none h' envp' file.path bs).log := by
  rw [readEntry_log_eq, readEntry_log_eq, hb.readUseful_log hb']

/-- Where the environment is does not show in the report of a job. -/
theorem reportEntry_envp (fuel : Nat) (sys : System) (e : Entry)
    (envp : Nat) :
    reportEntry fuel sys { e with envp := envp }
      = reportEntry fuel sys e := by
  have hscans : Entry.ScansAlike { e with envp := envp } e :=
    ⟨fun _ _ => Iff.rfl, fun _ => rfl, fun _ => rfl, fun _ => rfl⟩
  have hnext : nextTime fuel { e with envp := envp } sys.now
      = nextTime fuel e sys.now := by
    rw [nextTime_eq_walk, nextTime_eq_walk]
    exact hscans.walk fuel true sys.now
  unfold reportEntry printTime
  rw [hnext]
  rfl

theorem SameEntry.fileReport {r r' : Option Entry} (hr : SameEntry r r')
    (fuel : Nat) (sys : System) (log : List String) :
    fileReport fuel sys log r = fileReport fuel sys log r' := by
  cases hr with
  | none => rfl
  | some e envp =>
      unfold Tinjac.fileReport
      dsimp only
      rw [reportEntry_envp fuel sys e envp]

/-- A process with a descriptor and memory to spare: what it reads it
reports as any other would. -/
structure Ready (p : Process) : Prop where
  fds : p.fds ≠ 0
  granted : AllGranted p.heap

variable {p q : Process}

theorem Ready.served (hp : Ready p) (hfdopen : file.fdopens = true) :
    ∃ envp h, Served p file envp h ∧ Blank h envp := by
  obtain ⟨envp, h, hinit, -⟩ := hp.granted.envInit
  exact ⟨envp, h, ⟨hp.fds, hfdopen, hinit⟩, .of_envInit hp.granted hinit⟩

/-- The fuel is enough to read the file. -/
def Content.Reads (fuel : Nat) (content : Content) : Prop :=
  ∀ bs, content = .bytes bs → bs.length + 2 ≤ fuel

/-- **The report of a file** is the same in every process that is
ready. -/
theorem parseCrontab_same (hp : Ready p) (hq : Ready q) {fuel : Nat}
    (hfuel : file.content.Reads fuel) :
    (parseCrontab fuel sys p file).1 = (parseCrontab fuel sys q file).1 := by
  cases hcontent : file.content with
  | removed =>
      unfold parseCrontab openFile
      rw [if_neg hp.fds, if_neg hq.fds, hcontent]
  | unreadable =>
      unfold parseCrontab openFile
      rw [if_neg hp.fds, if_neg hq.fds, hcontent]
  | bytes bs =>
      by_cases hfdopen : file.fdopens = true
      · obtain ⟨envp, h, hserved, hb⟩ := hp.served hfdopen
        obtain ⟨envp', h', hserved', hb'⟩ := hq.served hfdopen
        obtain ⟨ln, hread⟩ := @parseCrontab_read sys p file bs envp h
          hcontent hserved fuel (hfuel bs hcontent)
        obtain ⟨ln', hread'⟩ := @parseCrontab_read sys q file bs envp' h'
          hcontent hserved' fuel (hfuel bs hcontent)
        rw [hread, hread', hb.readEntry_log hb']
        exact (hb.readEntry_entry hb').fileReport fuel sys _
      · unfold parseCrontab
        rw [openFile_bytes hcontent hp.fds, openFile_bytes hcontent hq.fds]
        dsimp only
        rw [if_neg hfdopen, if_neg hfdopen]

-- ======================================================= what it costs

/-- Opening the path takes a descriptor. -/
def Content.opens : Content → Bool
  | .bytes _ => true
  | .removed => false
  | .unreadable => false

/-- **What a file takes from the next**: the descriptor that is never
closed. -/
theorem parseCrontab_process (hg : AllGranted p.heap) (fuel : Nat) :
    AllGranted (parseCrontab fuel sys p file).2.heap
      ∧ (parseCrontab fuel sys p file).2.fds
        = p.fds - if file.content.opens then 1 else 0 := by
  unfold parseCrontab
  by_cases hfds : p.fds = 0
  · rw [openFile_mfile hfds]
    refine ⟨hg, ?_⟩
    show p.fds = p.fds - _
    rw [hfds, Nat.zero_sub]
  cases hcontent : file.content with
  | removed =>
      unfold openFile
      rw [if_neg hfds, hcontent]
      exact ⟨hg, rfl⟩
  | unreadable =>
      unfold openFile
      rw [if_neg hfds, hcontent]
      exact ⟨hg, rfl⟩
  | bytes bs =>
      rw [openFile_bytes hcontent hfds]
      dsimp only
      split
      · obtain ⟨envp, h, hinit, hg', -⟩ := hg.envInit
        rw [hinit]
        dsimp only
        cases hload : loadEntry fuel sys.getpwnam
            (fdopen bs p.lineNumber) false none h envp file.path with
        | none => exact ⟨hg', rfl⟩
        | some r =>
            have hheap := hg'.frame (loadEntry_frame (.init hinit) hload)
            dsimp only
            split
            · exact ⟨hheap, rfl⟩
            · exact ⟨hheap, rfl⟩
      · exact ⟨hg, rfl⟩

/-- Without a descriptor left no file is opened. -/
theorem parseCrontab_mfile (hfds : p.fds = 0) (fuel : Nat) :
    parseCrontab fuel sys p file
      = ({ output := [.elog ("Can't open " ++ file.path ++ ": "
             ++ strerror .mfile)],
           ending := .returned }, p) := by
  unfold parseCrontab
  rw [openFile_mfile hfds]

end

end Tinjac
