/-
A user's crontab as it is read, line by line, whatever is in it.

A line is a setting, a job, or an error (`LineKind`). A setting is one
by the grammar of `Text/Setting.lean`, a job and an error by what
`readUseful` makes of the text from the line on, memory to spare. What
is left behind a line is not always the next line: a range may swallow
the newline, and a NUL ends a command.
-/
import Tinjac.Proofs.Recovery
import Tinjac.Crond.Proofs.LoadEnv

namespace Tinjac.Crond

open BlockHeap

/-- What a line is taken for: a setting, a job, or nothing that can be
read, with the error. -/
inductive LineKind
  | setting
  | job
  | bad (ecode : Ecode)
deriving DecidableEq

/-- What `error_func` is told of a line, if anything: the text of its
error. -/
def LineKind.complaint : LineKind → Option String
  | .setting => none
  | .job => none
  | .bad ecode => some (ecodes ecode)

/-- What becomes of a line that is no setting, by what `load_entry` makes
of it. -/
def kindOf : Verdict → Option LineKind
  | .entry _ => some .job
  | .eof ecode _ => some (.bad ecode)
  | .null => none

section

variable (getpwnam : CString → Option Passwd) (pw : Passwd)

/-- The next line, as `load_entry` reads it with memory to spare. -/
def readAlone (t : List UInt8) : BodyText :=
  readUseful getpwnam (some pw) (Heap.empty fun _ => true) 0 ""
    (usefulText t)

/-- The next line of a text: what it is taken for, and what is left. -/
inductive NextLine (t : List UInt8) : LineKind → List UInt8 → Prop
  | setting {name value : List UInt8} (more : afterLine t ≠ [])
      (text : SettingText (envLine t) name value) :
      NextLine t .setting (afterLine t).tail
  | entry {k : LineKind} (more : afterLine t ≠ [])
      (refused : ∀ name value, ¬ SettingText (envLine t) name value)
      (kind : kindOf (readAlone getpwnam pw t).verdict = some k) :
      NextLine t k (readAlone getpwnam pw t).left

/-- The lines of a text, as far as it was read. -/
inductive Reads : List UInt8 → List LineKind → List UInt8 → Prop
  | none {t : List UInt8} : Reads t [] t
  | line {t next left : List UInt8} {k : LineKind} {ks : List LineKind}
      (first : NextLine getpwnam pw t k next)
      (rest : Reads next ks left) : Reads t (k :: ks) left

/-- No line ends where a quote opens, so that `load_env` never scans
behind a line. -/
def Closed (text : List UInt8) : Prop :=
  ∀ ks t, Reads getpwnam pw text ks t → ¬ EndsOpen (envLine t)

-- =============================================================== errors

/-- There is no error in a text, and nothing behind its last newline
but blanks or a comment. -/
inductive Flawless : List UInt8 → Prop
  | last {t : List UInt8} (last : afterLine t = []) (empty : envLine t = []) :
      Flawless t
  | line {t next : List UInt8} {k : LineKind}
      (here : NextLine getpwnam pw t k next) (good : k.complaint = none)
      (rest : Flawless next) : Flawless t

/-- The number of the next line, in a text that ends with this one. -/
def lineNo (text t : List UInt8) : Int :=
  1 + text.count newline - (usefulText t).count newline

/-- The line swallows its newline, and there is another one behind. -/
def SwallowsNext (t : List UInt8) : Prop :=
  Swallows (some pw) (usefulText t) ∧ newline ∈ dropLine (usefulText t)

/-- The first error of a text, and the line that it is said to be in:
the next line if that was swallowed, and the line before if there is no
newline to count. -/
inductive FirstError (text : List UInt8) :
    List UInt8 → Int → String → Prop
  | bad {t next : List UInt8} {ecode : Ecode} {n : Int}
      (here : NextLine getpwnam pw t (.bad ecode) next)
      (right : newline ∈ usefulText t → ¬ SwallowsNext pw t →
        n = lineNo text t)
      (swallowed : SwallowsNext pw t → n = lineNo text t + 1)
      (unended : newline ∉ usefulText t → n = lineNo text t - 1) :
      FirstError text t n (ecodes ecode)
  | last {t : List UInt8} (last : afterLine t = [])
      (data : envLine t ≠ []) :
      FirstError text t (lineNo text t) "premature EOF"
  | later {t next : List UInt8} {k : LineKind} {n : Int} {msg : String}
      (here : NextLine getpwnam pw t k next) (good : k.complaint = none)
      (rest : FirstError text next n msg) : FirstError text t n msg

end

end Tinjac.Crond
