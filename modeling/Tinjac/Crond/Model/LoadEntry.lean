/-
`load_entry` of the vendored crond: `cronie-1.4.6/src/entry.c`.

`src/crontabs.cpp` was made from this file, and from `env.c`, `misc.c`
and `pw_dup.c` beside it. The functions below `load_entry` are the same
there as here, and so are most of its stages: what is used of them are
the definitions of `Model/`. Written out are the stages that differ.
There is no flag for a month with a star; what is logged is worded
differently; and a rejected line is always told to `error_func`, if
there is one, while `src/crontabs.cpp` only looks whether there is.
-/
import Tinjac.Model.LoadEntry

namespace Tinjac.Crond

open BlockHeap CHeap

/-- `log_it` without an error number, less the time and the process. -/
def logIt (username event detail : String) : String :=
  "(" ++ username ++ ") " ++ event ++ " (" ++ detail ++ ")"

-- ============================================== the schedule of a line

/-- The month, which has no flag. -/
def loadMonth (s : Sched) : Sched :=
  let (ch, bits, file) := getList s.bits monthField s.ch s.file
  { s with
    ecode := if ch = none then .month else .none
    bits := bits, ch := ch, file := file }

/-- The five fields. -/
def loadFields (s : Sched) : Sched :=
  ((((loadField minuteField minStar .minute s).andThen
    (loadField hourField hrStar .hour)).andThen
    (loadField domField domStar .dom)).andThen
    loadMonth).andThen
    (loadField dowField dowStar .dow)

/-- From the first useful character of a line (the `-` option taken off)
to the first character of the username or command. -/
def loadSchedule (s : Sched) : Sched :=
  (if s.ch = some atSign then loadNickname s else loadFields s).andThen
    checkEol

-- ===================================================== the environment

/-- `can't set`, as it is logged. -/
def cantSet (name : String) : String :=
  logIt "CRON" "ERROR" ("can't set " ++ name)

/-- Copy and fix up the environment. -/
def prepareEnv (h : CHeap) (envp : Nat) (pw : Passwd) :
    Ecode × Option Nat × CHeap × List String :=
  match envCopy h envp with
  | (none, h) => (.memory, none, h, [])
  | (some p, h) =>
      let s : EnvState := { ecode := .none, envp := p, heap := h, log := [] }
      let s := defaultVar (bytes "SHELL") pathBshell (cantSet "SHELL") s
      let s := s.andThen
        (defaultVar (bytes "HOME") pw.pwDir.bytes (cantSet "HOME"))
      let s := s.andThen
        (defaultVar (bytes "PATH") pathDefpath (cantSet "PATH"))
      let s := s.andThen
        (setVar (bytes "LOGNAME") pw.pwName.bytes (cantSet "LOGNAME"))
      let s := s.andThen
        (setVar (bytes "USER") pw.pwName.bytes (cantSet "USER"))
      (s.ecode, some s.envp, s.heap, s.log)

-- ========================================================== load_entry

/-- From the username on. -/
def loadJob (getpwnam : CString → Option Passwd) (pw : Option Passwd)
    (h : CHeap) (envp : Nat) (s : Sched) : Body :=
  match loadUser getpwnam pw s.ch (ungetChar s.ch s.file) with
  | (.error ecode, ch, file) =>
      { verdict := .eof ecode none, bits := s.bits, ch := ch, file := file,
        heap := h, log := [] }
  | (.ok pw, ch, file) =>
      match pwDup h pw with
      | (none, h) =>
          { verdict := .eof .memory none, bits := s.bits, ch := ch,
            file := file, heap := h, log := [] }
      | (some pwd, h) =>
          match prepareEnv h envp pw with
          | (.none, some envp, h, log) =>
              let (cmd, ch, file) := getString maxCommand file (bytes "\n")
              if ch = none then
                { verdict := .eof .cmd (some envp), bits := s.bits, ch := ch,
                  file := file, heap := h, log := log }
              else
                let (ok, h) := h.request
                if ok then
                  { verdict := .entry
                      { pwd := bzeroPasswd pwd, envp := envp,
                        cmd := CString.ofBuf cmd, bits := s.bits,
                        flags := s.flags }
                    bits := s.bits, ch := ch, file := file, heap := h,
                    log := log }
                else
                  { verdict := .eof .memory (some envp), bits := s.bits,
                    ch := ch, file := file, heap := h, log := log }
          | (ecode, envp, h, log) =>
              { verdict := .eof ecode envp, bits := s.bits, ch := ch,
                file := file, heap := h, log := log }

/-- The refused `-` option, as it is logged. -/
def optionMsg : String :=
  logIt "CRON" "ERROR" "Only privileged user can disable logging"

/-- The schedule, and if nothing was rejected the rest of the line. -/
def loadLine (getpwnam : CString → Option Passwd) (pw : Option Passwd)
    (h : CHeap) (envp : Nat) (flags : Nat) (ch : Option UInt8)
    (file : Stream) : Body :=
  let s := loadSchedule
    { ecode := .none, bits := .zero, flags := flags, ch := ch, file := file }
  if s.ecode = .none then loadJob getpwnam pw h envp s
  else
    { verdict := .eof s.ecode none, bits := s.bits, ch := s.ch,
      file := s.file, heap := h, log := [] }

/-- `load_entry` up to `return (e)` or the label `eof`. -/
def loadBody (getpwnam : CString → Option Passwd) (file : Stream)
    (pw : Option Passwd) (h : CHeap) (envp : Nat) : Body :=
  let file := skipComments file
  let (ch, file) := getChar file
  let stop (verdict : Verdict) (ch : Option UInt8) (file : Stream)
      (log : List String) : Body :=
    { verdict := verdict, bits := .zero, ch := ch, file := file, heap := h,
      log := log }
  if ch = none then stop .null ch file []
  else if ch = some dash then
    if mayDisableLog pw then
      let (ch, file) := getChar file
      if ch = none then stop .null ch file []
      else loadLine getpwnam pw h envp dontLog ch file
    else stop (.eof .option none) ch file [optionMsg]
  else loadLine getpwnam pw h envp 0 ch file

/-- `load_entry`. What `error_func` does with its message is to log
it. -/
def loadEntry (fuel : Nat) (getpwnam : CString → Option Passwd)
    (file : Stream) (errorFunc : Option (String → String))
    (pw : Option Passwd) (h : CHeap) (envp : Nat) : Option LoadResult :=
  let b := loadBody getpwnam file pw h envp
  match b.verdict with
  | .entry e =>
      some { entry := some e, file := b.file, heap := b.heap, log := b.log }
  | .null =>
      some { entry := none, file := b.file, heap := b.heap, log := b.log }
  | .eof ecode envp =>
      let h :=
        match envp with
        | none => b.heap
        | some envp => envFree b.heap envp
      match skipLine fuel b.ch b.file with
      | none => none
      | some file =>
          let log :=
            match errorFunc with
            | some report =>
                if ecode ≠ .none then b.log ++ [report (ecodes ecode)]
                else b.log
            | none => b.log
          some { entry := none, file := file, heap := h, log := log }

end Tinjac.Crond
