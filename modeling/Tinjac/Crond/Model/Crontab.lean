/-
The program that users install their crontabs with:
`cronie-1.4.6/src/crontab.c`.

`replace_cmd` copies the new crontab into a file of the spool directory,
reads the copy as crond would, and makes it the user's table unless it
has found an error. `list_cmd` shows that table, `delete_cmd` removes it.

# The check

`load_entry` tells `error_func` about a line when it is through with it,
and once (`complaint`); what else it does is the same with any
`error_func` and with none. `check_error` counts the calls and prints
each with the number of the line before the one the stream is at.
`envstr` is not initialized, and every run has a heap of its own.

# What is left out

System calls are taken to succeed, and nobody interrupts. `edit_cmd`,
the arguments, the permissions and the host of a cluster are left out,
and so is the name of the file, which is the user's.
-/
import Tinjac.Crond.Model.LoadUser
import Mathlib.Logic.Function.Basic

namespace Tinjac.Crond

open CHeap

-- =========================================================== the copy

/-- `while (EOF != (ch = get_char(f))) putc(ch, tmp);` -/
def copyChars (file : Stream) : List UInt8 :=
  match _h : (getChar file).1 with
  | none => []
  | some ch => ch :: copyChars (getChar file).2
termination_by file.rest.length
decreasing_by
  rw [getChar_fst] at _h
  obtain ⟨l, hl⟩ := List.head?_eq_some_iff.mp _h
  rw [getChar_rest, hl]
  exact Nat.lt_succ_self _

/-- `NHEADER_LINES`. -/
def nheaderLines : Int := 0

-- ========================================================== the check

/-- What `load_entry` tells `error_func`, if anything. -/
def complaint (b : Body) : Option String :=
  match b.verdict with
  | .eof ecode _ => if ecode ≠ .none then some (ecodes ecode) else none
  | _ => none

/-- The variables of the check: what `check_error` was called for, each
with the line number it printed, counts. -/
structure Check where
  heap : CHeap
  envstr : List UInt8
  file : Stream
  errors : List (Int × String)
  eof : Bool

namespace Check

/-- `check_error`. -/
def error (s : Check) (msg : String) : Check :=
  { s with errors := s.errors ++ [(s.file.lineNumber - 1, msg)] }

/-- `Set_LineNum(LineNumber + 1)`. -/
def countLine (s : Check) : Check :=
  { s with
    file := { s.file with lineNumber := s.file.lineNumber + 1 } }

/-- The body of the loop. -/
def body (getpwnam : CString → Option Passwd) (pw : Passwd) (envp : Nat)
    (fuel : Nat) (s : Check) : Option Check :=
  match loadEnv s.envstr s.file with
  | none => none
  | some (.err, envstr, file) =>
      let s := { s with envstr := envstr, file := file }
      -- check for data before the EOF
      let s :=
        if envstr.head? ≠ some nul then s.countLine.error "premature EOF"
        else s
      some { s with eof := true }
  | some (.no, envstr, file) =>
      match loadEntry fuel getpwnam file none (some pw) s.heap envp with
      | none => none
      | some r =>
          let b := loadBody getpwnam file (some pw) s.heap envp
          let s :=
            { s with heap := r.heap, envstr := envstr, file := r.file }
          match complaint b with
          | none => some s
          | some msg => some (s.error msg)
  | some (.yes, envstr, file) =>
      some { s with envstr := envstr, file := file }

/-- `while (!CheckErrorCount && !eof)`, for that many lines at most. -/
def loop (getpwnam : CString → Option Passwd) (pw : Passwd) (envp : Nat) :
    Nat → Check → Option Check
  | 0, _ => none
  | fuel + 1, s =>
      if s.errors = [] ∧ s.eof = false then
        match body getpwnam pw envp fuel s with
        | none => none
        | some s => loop getpwnam pw envp fuel s
      else some s

end Check

-- ======================================================= the commands

/-- What `replace_cmd` returns, the user's table then, and what was
printed. -/
structure Replaced where
  status : Int
  table : Option (List UInt8)
  errors : List (Int × String)

/-- `replace_cmd`, when this is the user's table. -/
def replaceCmd (fuel : Nat) (getpwnam : CString → Option Passwd)
    (pw : Passwd) (newCrontab : Stream) (envstr : List UInt8) (h : CHeap)
    (table : Option (List UInt8)) : Option Replaced :=
  match envInit h with
  | (none, _) => some { status := -2, table := table, errors := [] }
  | (some envp, h) =>
      let copy := copyChars newCrontab
      let tmp := { Stream.ofBytes copy with lineNumber := 1 - nheaderLines }
      match Check.loop getpwnam pw envp fuel
          { heap := h, envstr := envstr, file := tmp, errors := []
            eof := false } with
      | none => none
      | some s =>
          if s.errors ≠ [] then
            some { status := -1, table := table, errors := s.errors }
          else some { status := 0, table := some copy, errors := [] }

/-- `list_cmd`: what it shows of a user's table. -/
def listCmd (table : Option (List UInt8)) : Option (List UInt8) :=
  table.map fun t => copyChars (Stream.ofBytes t)

/-- The tables in the spool directory. -/
abbrev Spool : Type := CString → Option (List UInt8)

/-- A command that changes the spool. -/
inductive SpoolStep (getpwnam : CString → Option Passwd) :
    Spool → Spool → Prop
  | replace {spool : Spool} {user : CString} {pw : Passwd} {fuel : Nat}
      {newCrontab : Stream} {envstr : List UInt8} {h : CHeap} {r : Replaced}
      (known : getpwnam user = some pw)
      (run : replaceCmd fuel getpwnam pw newCrontab envstr h (spool user)
        = some r) :
      SpoolStep getpwnam spool (Function.update spool user r.table)
  | delete {spool : Spool} (user : CString) :
      SpoolStep getpwnam spool (Function.update spool user none)

end Tinjac.Crond
