/-
What `load_entry` logs while it makes up an environment.

A message says that a variable cannot be set; it is logged whether or
not memory is left. So the messages are among five (`loadEnv_logs`), and
where every allocation is granted they are a function of the user and of
the environment the job's is made from (`jobLog`): the heap itself does
not show in them.
-/
import Tinjac.Proofs.Granted
import Tinjac.Proofs.JobEnv

namespace Tinjac

open BlockHeap CHeap

-- ======================================================== the messages

/-- The messages of the five variables. -/
def envMessages (fname : String) : List String :=
  ["ERROR: can't set SHELL in " ++ fname,
   "ERROR: can't set HOME in " ++ fname,
   "ERROR can't set PATH in " ++ fname,
   "ERROR can't set LOGNAME in " ++ fname,
   "ERROR can't set USER in " ++ fname]

/-- What setting a variable logs. -/
def varLog (name value : List UInt8) (msg : String) : List String :=
  if FitsEnvstr name value then [] else [msg]

section

variable {s : EnvState} (name value : List UInt8) (msg : String)

/-- An assignment logs a message if its string does not fit. -/
theorem setVar_log :
    (setVar name value msg s).log = s.log ++ varLog name value msg := by
  unfold setVar varLog
  rcases glueStrings_cases maxEnvstr name value equals with
    ⟨hfits, hglue⟩ | ⟨hlong, buf, hglue, -⟩
  · have hyes : FitsEnvstr name value := hfits
    rw [hglue, if_pos hyes, List.append_nil]
    dsimp only
    split
    · rfl
    · rfl
  · have hno : ¬ FitsEnvstr name value := Nat.not_le.mpr hlong
    rw [hglue, if_neg hno]

/-- One that is only made where there is no value logs nothing where there
is one. -/
theorem defaultVar_log :
    (defaultVar name value msg s).log
      = s.log ++ (if envGet s.heap name s.envp = none
          then varLog name value msg else []) := by
  unfold defaultVar
  split
  · exact setVar_log name value msg
  · exact (List.append_nil s.log).symm

/-- Only these messages were logged, whatever has failed. -/
def EnvState.Logs (msgs : List String) (s : EnvState) : Prop :=
  ∀ m ∈ s.log, m ∈ msgs

variable {name value msg} {msgs : List String}

/-- More may be logged if it is among the messages. -/
theorem EnvState.Logs.append {t : EnvState} {log : List String}
    (hs : s.Logs msgs) (hlog : t.log = s.log ++ log)
    (hmem : ∀ m ∈ log, m ∈ msgs) : t.Logs msgs := by
  intro m hm
  rw [hlog] at hm
  rcases List.mem_append.mp hm with hm | hm
  · exact hs m hm
  · exact hmem m hm

/-- What an assignment logs is its own message. -/
theorem mem_varLog {m : String} (hm : m ∈ varLog name value msg)
    (hmsg : msg ∈ msgs) : m ∈ msgs := by
  unfold varLog at hm
  split at hm
  · cases hm
  · rw [List.mem_singleton.mp hm]
    exact hmsg

/-- So an assignment logs one of the messages, or none. -/
theorem EnvState.Logs.setVar (hs : s.Logs msgs)
    (name value : List UInt8) (hmsg : msg ∈ msgs) :
    (setVar name value msg s).Logs msgs :=
  hs.append (setVar_log name value msg) fun _ hm => mem_varLog hm hmsg

/-- And so does one that may not be made. -/
theorem EnvState.Logs.defaultVar (hs : s.Logs msgs)
    (name value : List UInt8) (hmsg : msg ∈ msgs) :
    (defaultVar name value msg s).Logs msgs := by
  apply hs.append (defaultVar_log name value msg)
  intro m hm
  split at hm
  · exact mem_varLog hm hmsg
  · cases hm

/-- And the assignments one after the other. -/
theorem EnvState.Logs.andThen {k : EnvState → EnvState}
    (hs : s.Logs msgs) (hk : (k s).Logs msgs) : (s.andThen k).Logs msgs := by
  unfold EnvState.andThen
  split
  · exact hk
  · exact hs

end

/-- Building an environment logs nothing but its own messages, also where
memory runs out. -/
theorem loadEnv_logs (h : CHeap) (envp : Nat) (pw : Passwd)
    (fname : String) :
    ∀ m ∈ (loadEnv h envp pw fname).2.2.2, m ∈ envMessages fname := by
  obtain ⟨m1, m2, m3, m4, m5⟩ :
      "ERROR: can't set SHELL in " ++ fname ∈ envMessages fname
        ∧ "ERROR: can't set HOME in " ++ fname ∈ envMessages fname
        ∧ "ERROR can't set PATH in " ++ fname ∈ envMessages fname
        ∧ "ERROR can't set LOGNAME in " ++ fname ∈ envMessages fname
        ∧ "ERROR can't set USER in " ++ fname ∈ envMessages fname := by
    simp [envMessages]
  unfold loadEnv
  split
  · intro m hm
    cases hm
  · next p h1 hcopy =>
    have h0 : EnvState.Logs (envMessages fname)
        { ecode := .none, envp := p, heap := h1, log := [] } := by
      intro m hm
      cases hm
    have hshell := h0.defaultVar (bytes "SHELL") pathBshell m1
    have hhome := hshell.andThen
      (hshell.defaultVar (bytes "HOME") pw.pwDir.bytes m2)
    have hpath := hhome.andThen
      (hhome.defaultVar (bytes "PATH") pathDefpath m3)
    have hlogname := hpath.andThen
      (hpath.setVar (bytes "LOGNAME") pw.pwName.bytes m4)
    exact hlogname.andThen
      (hlogname.setVar (bytes "USER") pw.pwName.bytes m5)

-- ==================================================== with memory left

/-- What setting a variable that has no value logs. -/
def defaultLog (get : List UInt8 → Option (List UInt8))
    (name value : List UInt8) (msg : String) : List String :=
  if get name = none then varLog name value msg else []

/-- What making up the environment of a job logs: one message for each
variable whose string does not fit. -/
def jobLog (pw : Passwd) (fname : String)
    (get : List UInt8 → Option (List UInt8)) : List String :=
  let shell := assignDefault (bytes "SHELL") pathBshell get
  let home := assignDefault (bytes "HOME") pw.pwDir.bytes shell
  [] ++ defaultLog get (bytes "SHELL") pathBshell
        ("ERROR: can't set SHELL in " ++ fname)
    ++ defaultLog shell (bytes "HOME") pw.pwDir.bytes
        ("ERROR: can't set HOME in " ++ fname)
    ++ defaultLog home (bytes "PATH") pathDefpath
        ("ERROR can't set PATH in " ++ fname)
    ++ varLog (bytes "LOGNAME") pw.pwName.bytes
        ("ERROR can't set LOGNAME in " ++ fname)
    ++ varLog (bytes "USER") pw.pwName.bytes
        ("ERROR can't set USER in " ++ fname)

/-- The fixing-up is under way, nothing has failed, and this was
logged. -/
structure Going (h0 : CHeap) (get : List UInt8 → Option (List UInt8))
    (log : List String) (s : EnvState) : Prop where
  reads : Reads h0 get s
  fine : s.Fine
  log : s.log = log

section

variable {h0 : CHeap} {get : List UInt8 → Option (List UInt8)}
  {log : List String} {s : EnvState} {name value : List UInt8}

/-- With memory an assignment goes well, updates the function of names,
and logs what does not fit. -/
theorem Going.setVar (hs : Going h0 get log s)
    (hset : Settable name value) (msg : String) :
    Going h0 (assign name value get) (log ++ varLog name value msg)
      (setVar name value msg s) := by
  refine ⟨hs.reads.setVar hset msg hs.fine.1,
    hs.fine.setVar name value msg, ?_⟩
  rw [setVar_log, hs.log]

/-- So does one that is only made where there is no value. -/
theorem Going.defaultVar (hs : Going h0 get log s)
    (hset : Settable name value) (msg : String) :
    Going h0 (assignDefault name value get)
      (log ++ defaultLog get name value msg)
      (defaultVar name value msg s) := by
  refine ⟨hs.reads.defaultVar hset msg hs.fine.1,
    hs.fine.defaultVar name value msg, ?_⟩
  rw [defaultVar_log, hs.log, hs.reads.2 hs.fine.1]
  rfl

/-- And the assignments one after the other. -/
theorem Going.andThen {get' : List UInt8 → Option (List UInt8)}
    {log' : List String} {k : EnvState → EnvState}
    (hs : Going h0 get log s) (hk : Going h0 get' log' (k s)) :
    Going h0 get' log' (s.andThen k) := by
  unfold EnvState.andThen
  rw [if_pos hs.fine.1]
  exact hk

end

/-- **The heap does not show** in what is logged. -/
theorem loadEnv_log {h : CHeap} {envp : Nat} (hbuilt : EnvBuilt h envp)
    (hg : AllGranted h) (pw : Passwd) (fname : String) :
    ∃ envp' h', loadEnv h envp pw fname
        = (.none, some envp', h',
          jobLog pw fname fun m => envGet h m envp)
      ∧ AllGranted h' := by
  obtain ⟨addrs, l, hnames⟩ := hbuilt.names
  obtain ⟨p, h1, hcopy, hg1⟩ := hg.envCopy envp
  unfold loadEnv
  rcases envCopy_spec hnames.rep with
    ⟨h2, hfail, -, -⟩ | ⟨p2, h2, addrs1, heq, hrep, hf, hfresh⟩
  · rw [hcopy] at hfail
    cases hfail
  rw [hcopy] at heq
  injection heq with hp hh
  injection hp with hp
  subst hp hh
  rw [hcopy]
  dsimp only
  have hcopied : Names h1 p addrs1 l := ⟨hrep, hnames.nodup⟩
  have h0 : Going h (fun m => envGet h m envp) []
      { ecode := .none, envp := p, heap := h1, log := [] } := by
    refine ⟨⟨⟨addrs1, l, hcopied, hf, hfresh⟩, ?_⟩, ⟨rfl, hg1⟩, rfl⟩
    intro _ n
    show envGet h1 n p = envGet h n envp
    rw [hcopied.get, hnames.get]
  have hs1 := h0.defaultVar settable_shell ("ERROR: can't set SHELL in " ++ fname)
  have hs2 := hs1.andThen
    (hs1.defaultVar (settable_home pw) ("ERROR: can't set HOME in " ++ fname))
  have hs3 := hs2.andThen
    (hs2.defaultVar settable_path ("ERROR can't set PATH in " ++ fname))
  have hs4 := hs3.andThen
    (hs3.setVar (settable_logname pw) ("ERROR can't set LOGNAME in " ++ fname))
  have hs5 := hs4.andThen
    (hs4.setVar (settable_user pw) ("ERROR can't set USER in " ++ fname))
  obtain ⟨-, ⟨hecode, hg5⟩, hlog⟩ := hs5
  rw [hecode, hlog]
  exact ⟨_, _, rfl, hg5⟩

end Tinjac
