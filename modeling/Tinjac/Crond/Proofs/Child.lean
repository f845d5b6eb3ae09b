/-
The process of a job.

`child_process` works on a copy of the job's environment, and cuts the
command in two. So what it starts can be read off the entry (`Runs`),
and for the entry of a job in a crontab off the table (`Starts`): the
shell is the table's, the command ends at the first `%`, and what is
behind it is read by the job.
-/
import Tinjac.Crond.Proofs.Command

namespace Tinjac.Crond

open BlockHeap CHeap

-- ============================================================ any entry

/-- What is started for an entry, whatever crontab it came from: the
entry's user and flags, an environment that reads as the entry's, and the
two parts of its command. -/
structure Runs (h : CHeap) (e : Entry) (c : Child) : Prop where
  pwd : c.pwd = e.pwd
  logged : c.logged = !hasFlag e.flags dontLog
  env : ∀ n, envGet c.heap n c.jobenv = envGet h n e.envp
  shell : c.shell = envGet h (bytes "SHELL") e.envp
  home : c.home = envGet h (bytes "HOME") e.envp
  cmd : c.cmd.bytes = (splitText e.cmd.bytes).1
  input : c.input = closeLine (inputText (splitText e.cmd.bytes).2)

section

variable {h : CHeap} {e : Entry} {addrs : List Nat} {l : List CString}

/-- A late process is skipped, and no other. Of the others one is lost
only if there is no memory for its environment. Otherwise the command is
cut without leaving its array, and the shell is started with the first
part, the second part on its standard input, and an environment that
reads as the entry's. -/
theorem childProcess_runs (hnames : Names h e.envp addrs l)
    (minutely now : Int) :
    match childProcess h e minutely now with
    | .lost => ¬ Late e minutely now ∧ (envCopy h e.envp).1 = none
    | .skipped => Late e minutely now
    | .runs c => ¬ Late e minutely now ∧ Runs h e c := by
  obtain ⟨mem, inputData, hsplit, hcmd, hinput⟩ := splitCommand_eq e.cmd
  unfold childProcess
  dsimp only
  by_cases hlate : Late e minutely now
  · rw [if_pos hlate]
    exact hlate
  · rw [if_neg hlate]
    rcases envCopy_spec hnames.rep with
      ⟨h', hcopy, -⟩ | ⟨p, h', addrs', hcopy, hrep, -, -⟩
    · rw [hcopy]
      exact ⟨hlate, rfl⟩
    · have hsame : ∀ n, envGet h' n p = envGet h n e.envp := by
        intro n
        rw [hnames.get]
        exact Names.get ⟨hrep, hnames.nodup⟩ n
      rw [hcopy]
      dsimp only
      rw [hsplit]
      refine ⟨hlate, rfl, rfl, hsame, hsame _, hsame _, hcmd, ?_⟩
      dsimp only
      rw [hinput]
      by_cases hnil : (splitText e.cmd.bytes).2 = []
      · rw [if_pos hnil, hnil]
        rfl
      · rw [if_neg hnil, feed_eq]

end

-- ============================================================ any table

/-- What is started for a job of a table, all of it read off the table:
the user that the line names, the settings above the line, and the line's
command. -/
structure Starts (getpwnam : CString → Option Passwd)
    (j : JobLine × EnvFun) (c : Child) : Prop where
  user : ∃ pw, getpwnam (CString.ofBuf j.1.user) = some pw
    ∧ c.pwd = bzeroPasswd pw
  logged : c.logged = !j.1.noLog
  env : ∀ n, envGet c.heap n c.jobenv = jobEnv c.pwd j.2 n
  shell : c.shell = some ((j.2 (bytes "SHELL")).getD pathBshell)
  home : c.home = jobEnv c.pwd j.2 (bytes "HOME")
  cmd : c.cmd.bytes = (splitText j.1.cmd).1
  input : c.input = closeLine (inputText (splitText j.1.cmd).2)

/-- What becomes of a job of a table: no memory is short here. -/
def StartsOr (getpwnam : CString → Option Passwd) (h : CHeap)
    (j : JobLine × EnvFun) (e : Entry) : Prop :=
  ∀ minutely now,
    match childProcess h e minutely now with
    | .lost => False
    | .skipped => j.1.minute.Starred ∧ now.tdiv 60 ≠ minutely.tdiv 60
    | .runs c => Starts getpwnam j c

/-- The shell is the table's, or `/bin/sh`, whoever the user is. -/
theorem jobEnv_shell (pwd : Passwd) (get : EnvFun) :
    jobEnv pwd get (bytes "SHELL")
      = some ((get (bytes "SHELL")).getD pathBshell) := by
  unfold jobEnv
  rw [assign_other _ (by decide), assign_other _ (by decide),
    assignDefault_other _ (by decide), assignDefault_other _ (by decide),
    assignDefault_apply (by decide), if_pos rfl]

section

variable {getpwnam : CString → Option Passwd}

theorem MadeOf.starts {h : CHeap} {j : JobLine × EnvFun}
    {p : Entry × EnvFun} (hgranted : AllGranted h)
    (hmade : MadeOf getpwnam j p) (henv : HasEnv h [] p.1.envp p.2) :
    StartsOr getpwnam h j p.1 := by
  intro minutely now
  obtain ⟨⟨pw, hpw, hmade⟩, hget⟩ := hmade
  obtain ⟨addrs, l, hnames, -⟩ := henv.apart
  have hfate := childProcess_runs hnames minutely now
  cases hchild : childProcess h p.1 minutely now with
  | lost =>
      rw [hchild] at hfate
      obtain ⟨q, h', hcopy, -⟩ := hgranted.envCopy p.1.envp
      rw [hcopy] at hfate
      cases hfate.2
  | skipped =>
      rw [hchild] at hfate
      obtain ⟨hstar, -, hlate⟩ := hfate
      rw [hmade.minStar, decide_eq_true_iff] at hstar
      exact ⟨hstar, hlate⟩
  | runs c =>
      rw [hchild] at hfate
      obtain ⟨-, hruns⟩ := hfate
      have henv' : ∀ n, envGet h n p.1.envp = jobEnv c.pwd j.2 n := by
        intro n
        rw [henv.reads, hget, hruns.pwd]
      refine ⟨⟨pw, hpw, hruns.pwd.trans hmade.pwd⟩, ?_, ?_, ?_, ?_, ?_, ?_⟩
      · rw [hruns.logged, hmade.dontLog]
      · intro n
        rw [hruns.env, henv']
      · rw [hruns.shell, henv', jobEnv_shell]
      · rw [hruns.home, henv']
      · rw [hruns.cmd, hmade.cmd]
      · rw [hruns.input, hmade.cmd]

/-- **From a crontab to its processes.** A system crontab of well-formed
lines, whose users are known, is loaded if there is memory, and for each
of its jobs, when it is run, the process is this: the job's user runs the
table's shell, or `/bin/sh`, on the command as far as the first `%` that
is not escaped, with the rest on its standard input, and with the
settings above the job. Only a job whose minute starts with a star may be
skipped, and only if the minute is over. -/
theorem table_children {ls : List TableLine}
    (husers : UsersKnown getpwnam ls) {h : CHeap} (hgranted : AllGranted h)
    {tail : List UInt8} (htail : ∀ c ∈ tail, isToken lineTerms c = true)
    {file : Stream} (hfile : file.rest = tableText ls ++ tail) {fuel : Nat}
    (hfuel : ls.length < fuel) (fname tabname : CString) (tab : String)
    (envstr : List UInt8) :
    ∃ r u, loadUser fuel getpwnam file none fname tabname tab envstr h
        = some r
      ∧ r.user = some u
      ∧ List.Forall₂ (StartsOr getpwnam r.heap)
        (tableJobs (fun _ => none) ls).reverse u.crontab := by
  obtain ⟨r, u, new, hload, hu, hcrontab, hg', hmade, henvs⟩ :=
    loadUser_table tab husers hgranted htail hfile hfuel fname tabname envstr
  refine ⟨r, u, hload, hu, ?_⟩
  rw [hcrontab]
  clear hload hcrontab
  generalize (tableJobs (fun _ => none) ls).reverse = js at hmade ⊢
  induction hmade with
  | nil => exact .nil
  | @cons j p js new hmade _ ih =>
      exact .cons (hmade.starts hg' (henvs p List.mem_cons_self))
        (ih fun q hq => henvs q (List.mem_cons_of_mem p hq))

end

/-- The line `-*/15 * * jan * root cat%a`. -/
def catLine : JobLine :=
  { quarterLine with
    cmd := bytes "cat%a"
    cmd_token := by decide +kernel
    cmd_short := by decide }

/-- A job whose command has a percent sign: `/bin/sh` is run on `cat`, and
is given the line behind the sign. -/
theorem cat_reads :
    ∃ r u e c, loadUser 2 rootOnly
        (Stream.ofBytes (tableText [.job catLine] ++ [])) none
        (CString.ofString "*system*") (CString.ofString "/etc/crontab")
        "/etc/crontab" [] freshHeap = some r
      ∧ r.user = some u ∧ u.crontab = [e]
      ∧ childProcess r.heap e 0 0 = .runs c
      ∧ c.cmd.bytes = bytes "cat" ∧ c.input = bytes "a\n"
      ∧ c.shell = some (bytes "/bin/sh") := by
  have husers : UsersKnown rootOnly [.job catLine] := by
    intro l hl
    rw [List.mem_singleton, TableLine.job.injEq] at hl
    rw [hl]
    exact ⟨rootPasswd, by decide⟩
  have hfile : (Stream.ofBytes (tableText [.job catLine] ++ [])).rest = _ :=
    rfl
  have hending : ∀ c ∈ ([] : List UInt8), isToken lineTerms c = true := by
    simp
  have hgranted : AllGranted freshHeap := fun _ => rfl
  obtain ⟨r, u, hload, hu, hjobs⟩ :=
    table_children husers hgranted hending hfile (show 1 < 2 by decide)
      (CString.ofString "*system*") (CString.ofString "/etc/crontab")
      "/etc/crontab" []
  generalize hcrontab : u.crontab = crontab at hjobs
  cases hjobs with
  | @cons _ e _ es hjob hnil =>
      cases hnil
      have hfate := hjob 0 0
      cases hchild : childProcess r.heap e 0 0 with
      | lost =>
          rw [hchild] at hfate
          cases hfate
      | skipped =>
          rw [hchild] at hfate
          exact absurd rfl hfate.2
      | runs c =>
          rw [hchild] at hfate
          refine ⟨r, u, e, c, hload, hu, hcrontab, hchild, ?_, ?_, ?_⟩
          · rw [hfate.cmd]
            decide +kernel
          · rw [hfate.input]
            decide +kernel
          · rw [hfate.shell]
            rfl

end Tinjac.Crond
