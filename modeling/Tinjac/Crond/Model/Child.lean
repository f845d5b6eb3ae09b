/-
The process of a job: `cronie-1.4.6/src/do_command.c`, `child_process`,
and what it calls of `security.c`, in a build without PAM and SELinux.

# The command string

`e->cmd` is one array, cut in place: `input_data` reads it, and `p`
writes the command back, behind `input_data` by one byte for each `\%`
that has become a `%`. The array is the string with its NUL; a byte that
would be read behind it is not there.

# What is left out

System calls are taken to succeed. Of the process that writes the input
only what it writes is here, and of the one that waits for the output,
and mails it, nothing.
-/
import Tinjac.Crond.Model.Jobs

namespace Tinjac.Crond

open CHeap

def backslash : UInt8 := 92
def percent : UInt8 := 37

-- ========================================================== the command

/-- The variables of the loop over `e->cmd`. -/
structure CmdScan where
  mem : List UInt8
  p : Nat
  inputData : Nat
  escaped : Bool

namespace CmdScan

/-- The body of the loop, and whether it breaks. -/
def body (s : CmdScan) (ch : UInt8) : CmdScan × Bool :=
  let s := if s.p ≠ s.inputData then { s with mem := s.mem.set s.p ch } else s
  if s.escaped then
    let s :=
      if ch = percent then
        { s with p := s.p - 1, mem := s.mem.set (s.p - 1) ch }
      else s
    ({ s with escaped := false }, false)
  else if ch = backslash then ({ s with escaped := true }, false)
  else if ch = percent then
    ({ s with
      mem := s.mem.set s.inputData nul, inputData := s.inputData + 1 }, true)
  else (s, false)

/-- The loop, for that many characters at most. -/
def loop : Nat → CmdScan → Option CmdScan
  | 0, _ => none
  | fuel + 1, s =>
      match s.mem[s.inputData]? with
      | none => none
      | some ch =>
          if ch = nul then some s
          else
            let (s, done) := s.body ch
            if done then some s
            else
              loop fuel { s with p := s.p + 1, inputData := s.inputData + 1 }

end CmdScan

/-- The array and `input_data` behind the loop and `*p = '\0'`. -/
def splitCommand (cmd : CString) : Option (List UInt8 × Nat) :=
  let start : CmdScan :=
    { mem := cmd.bytes ++ [nul], p := 0, inputData := 0, escaped := false }
  (start.loop (cmd.bytes.length + 1)).map fun s =>
    (s.mem.set s.p nul, s.inputData)

-- ============================================================ the input

/-- The variables of the loop over the input, and what it has put. -/
structure Feed where
  out : List UInt8
  needNewline : Bool
  escaped : Bool

/-- The body of the loop. -/
def Feed.put (s : Feed) (ch : UInt8) : Feed :=
  let (out, ch) :=
    if s.escaped then
      (if ch ≠ percent then s.out ++ [backslash] else s.out, ch)
    else (s.out, if ch = percent then newline else ch)
  if ch = backslash then { s with out := out, escaped := true }
  else { out := out ++ [ch], needNewline := ch != newline, escaped := false }

/-- What is written to the standard input of a job. -/
def feed (input : List UInt8) : List UInt8 :=
  let s := input.foldl Feed.put
    { out := [], needNewline := false, escaped := false }
  let out := if s.escaped then s.out ++ [backslash] else s.out
  if s.needNewline then out ++ [newline] else out

-- ========================================================== the process

/-- What the shell of a job is started with: the user, the directory,
whether the command is logged first, the shell and the command it is
given, the environment, and what is on its standard input. -/
structure Child where
  pwd : Passwd
  home : Option (List UInt8)
  logged : Bool
  shell : Option (List UInt8)
  cmd : CString
  jobenv : Nat
  heap : CHeap
  input : List UInt8

/-- What becomes of a job. A process that reads through a null pointer,
or behind an array, is lost. -/
inductive Fate
  | lost
  | skipped
  | runs (c : Child)

/-- A job whose minute starts with a star has been delayed into another
minute. -/
def Late (e : Entry) (minutely now : Int) : Prop :=
  hasFlag e.flags minStar = true ∧ 0 < minutely
    ∧ now.tdiv 60 ≠ minutely.tdiv 60

instance (e : Entry) (minutely now : Int) : Decidable (Late e minutely now) :=
  inferInstanceAs (Decidable (_ ∧ _ ∧ _))

/-- `child_process`, when the clock reads `minutely` before and `now`
after the environment is built. That it could not be built is noticed
by no one before the job is found to be late. -/
def childProcess (h : CHeap) (e : Entry) (minutely now : Int) : Fate :=
  let (jobenv, h) := envCopy h e.envp
  if Late e minutely now then .skipped
  else
    match jobenv with
    | none => .lost
    | some jobenv =>
        match splitCommand e.cmd with
        | none => .lost
        | some (mem, inputData) =>
            let input := (CString.ofBuf (mem.drop inputData)).bytes
            .runs
              { pwd := e.pwd
                home := envGet h (bytes "HOME") jobenv
                logged := !hasFlag e.flags dontLog
                shell := envGet h (bytes "SHELL") jobenv
                cmd := CString.ofBuf mem
                jobenv := jobenv
                heap := h
                input := if input = [] then [] else feed input }

end Tinjac.Crond
