/-
A crontab, line by line.

The lines are remarks (comments and blank lines), settings, and jobs of
a system crontab, each well formed in itself and each ended by a newline
(`TableLine`). What a table says is who runs what, when, and with which
settings (`Table.jobs`): a setting holds for the jobs below it.
-/
import Tinjac.Crond.Text.Setting
import Tinjac.Proofs.Meaning
import Mathlib.Logic.Function.Basic

namespace Tinjac.Crond

-- =========================================================== the lines

/-- A comment or a blank line. -/
structure Remark where
  line : List UInt8
  plain : newline ∉ line
  ignored : ignorable (line ++ [newline]) = true

/-- A line that sets `name` to `value`, with blanks in front. -/
structure SettingLine where
  lead : List UInt8
  line : List UInt8
  name : List UInt8
  value : List UInt8
  lead_blank : ∀ c ∈ lead, isBlank c = true
  text : SettingText line name value
  first : ∀ c, line.head? = some c → isNonblank c = true ∧ c ≠ hash
  plain : ∀ c ∈ line, isToken lineTerms c = true
  short : line.length < maxEnvstr

/-- A line of a well-formed crontab: a remark, a setting, or a job. -/
inductive TableLine
  | remark (l : Remark)
  | setting (l : SettingLine)
  | job (l : JobLine)

/-- The line as it is written, with its newline. -/
def TableLine.text : TableLine → List UInt8
  | remark l => l.line ++ [newline]
  | setting l => l.lead ++ (l.line ++ [newline])
  | job l => l.text

/-- A crontab: its lines one behind the other. -/
def tableText (ls : List TableLine) : List UInt8 :=
  ls.flatMap TableLine.text

-- ========================================================= what it says

/-- What an environment reads as. -/
abbrev EnvFun := List UInt8 → Option (List UInt8)

/-- The jobs of a table, each with the settings that hold for it, where
these hold before. -/
def tableJobs : EnvFun → List TableLine → List (JobLine × EnvFun)
  | _, [] => []
  | get, .remark _ :: ls => tableJobs get ls
  | get, .setting l :: ls =>
      tableJobs (Function.update get l.name (some l.value)) ls
  | get, .job l :: ls => (l, get) :: tableJobs get ls

end Tinjac.Crond
