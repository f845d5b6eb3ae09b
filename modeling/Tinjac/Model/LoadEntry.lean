/-
`load_entry`: one crontab line from a stream to an entry, or to `NULL`.

# Shape

The function is cut where its comments cut it: the `-` option, the
`@nickname` or the five fields (`loadSchedule`), the username, the
environment, the command. `ecode` is `.none` as long as nothing was
rejected, as in the source, and each stage runs only then. `loadBody` is
everything up to `return (e)` or the label `eof`; `loadEntry` adds what
follows the label.

The loop after the label skips to the end of the line while
`!feof(file)`. It is the one loop of the parser that need not end (a
read error leaves `feof` false), so it takes fuel, and `loadEntry`
returns `none` when that runs out.

# Left out, and assumed

The `DLOG` traces. The `calloc` of the entry, whose result the source
does not check, succeeds; every other allocation may fail. The strings
of a password record are not null: `getpwnam` returns none that are.
-/
import Tinjac.Model.Fields
import Tinjac.Model.Env

namespace Tinjac

open BlockHeap CHeap

-- ============================================================= entries

/-- `struct passwd`. -/
structure Passwd where
  pwName : CString
  pwPasswd : CString
  pwUid : UInt32
  pwGid : UInt32
  pwGecos : CString
  pwDir : CString
  pwShell : CString
deriving DecidableEq

/-- `entry`. -/
structure Entry where
  pwd : Passwd
  envp : Nat
  cmd : CString
  bits : Bitmaps
  flags : Nat

/-- `e->flags & flag`. -/
def hasFlag (flags flag : Nat) : Bool := flags &&& flag != 0

-- ============================================== the schedule of a line

/-- Where the parse of a schedule stands. -/
structure Sched where
  ecode : Ecode
  bits : Bitmaps
  flags : Nat
  ch : Option UInt8
  file : Stream

/-- Go on unless something was rejected. -/
def Sched.andThen (s : Sched) (k : Sched → Sched) : Sched :=
  if s.ecode = .none then k s else s

/-- One of the five fields: its star flag, its list, its error code. -/
def loadField (f : Field) (flag : Nat) (ecode : Ecode) (s : Sched) :
    Sched :=
  let flags := if s.ch = some star then s.flags ||| flag else s.flags
  let (ch, bits, file) := getList s.bits f s.ch s.file
  { ecode := if ch = none then ecode else .none,
    bits := bits, flags := flags, ch := ch, file := file }

/-- The five fields. -/
def loadFields (s : Sched) : Sched :=
  ((((loadField minuteField minStar .minute s).andThen
    (loadField hourField hrStar .hour)).andThen
    (loadField domField domStar .dom)).andThen
    (loadField monthField monStar .month)).andThen
    (loadField dowField dowStar .dow)

/-- `LAST_X - FIRST_X + 1`, as the stop of `bit_nset`. -/
def stopBit (f : Field) : Nat := bitIndex (f.high - f.low + 1)

/-- `bit_set(e->x, 0)`. -/
def setFirst (f : Field) (bits : Bitmaps) : Bitmaps := bitSet bits f.name 0

/-- `bit_nset(e->x, 0, (LAST_X - FIRST_X + 1))`. -/
def setAll (f : Field) (bits : Bitmaps) : Bitmaps :=
  bitNset bits f.name 0 (stopBit f)

/-- The sets and flags of a nickname, `none` if there is no such
nickname. -/
def setNickname (cmd : List UInt8) (bits : Bitmaps) (flags : Nat) :
    Option (Bitmaps × Nat) :=
  if cmd = bytes "reboot" then some (bits, flags ||| whenReboot)
  else if cmd = bytes "yearly" ∨ cmd = bytes "annually" then
    let bits := setFirst minuteField bits
    let bits := setFirst hourField bits
    let bits := setFirst domField bits
    let bits := setFirst monthField bits
    let bits := setAll dowField bits
    some (bits, flags ||| dowStar)
  else if cmd = bytes "monthly" then
    let bits := setFirst minuteField bits
    let bits := setFirst hourField bits
    let bits := setFirst domField bits
    let bits := setAll monthField bits
    let bits := setAll dowField bits
    some (bits, flags ||| dowStar)
  else if cmd = bytes "weekly" then
    let bits := setFirst minuteField bits
    let bits := setFirst hourField bits
    let bits := setAll domField bits
    let bits := setAll monthField bits
    let bits := setFirst dowField bits
    some (bits, flags ||| dowStar)
  else if cmd = bytes "daily" ∨ cmd = bytes "midnight" then
    let bits := setFirst minuteField bits
    let bits := setFirst hourField bits
    let bits := setAll domField bits
    let bits := setAll monthField bits
    let bits := setAll dowField bits
    some (bits, flags)
  else if cmd = bytes "hourly" then
    let bits := setFirst minuteField bits
    let bits := setAll hourField bits
    let bits := setAll domField bits
    let bits := setAll monthField bits
    let bits := setAll dowField bits
    some (bits, flags ||| hrStar)
  else none

/-- What follows an `@`. -/
def loadNickname (s : Sched) : Sched :=
  let (cmd, ch, file) := getString maxCommand s.file (bytes " \t\n")
  match setNickname (CString.ofBuf cmd).bytes s.bits s.flags with
  | none => { s with ecode := .timespec, ch := ch, file := file }
  | some (bits, flags) =>
      let (ch, file) := skipBlanks ch file
      { ecode := if ch = none ∨ ch = some newline then .cmd else .none,
        bits := bits, flags := flags, ch := ch, file := file }

/-- Make sundays equivalent. -/
def foldSundays (bits : Bitmaps) : Bitmaps :=
  if bitTest bits dowField.name 0 ∨ bitTest bits dowField.name 7 then
    bitSet (bitSet bits dowField.name 0) dowField.name 7
  else bits

/-- The check for a premature EOL and the common typo. -/
def checkEol (s : Sched) : Sched :=
  let s := { s with bits := foldSundays s.bits }
  if s.ch = some newline ∨ s.ch = some star then
    { s with ecode := .cmd }
  else s

/-- From the first useful character of a line (the `-` option taken off)
to the first character of the username or command. -/
def loadSchedule (s : Sched) : Sched :=
  (if s.ch = some atSign then loadNickname s else loadFields s).andThen
    checkEol

-- ======================================================== the username

/-- Whose job it is: the record given, or the one `getpwnam` finds for
the username read here. -/
def loadUser (getpwnam : CString → Option Passwd) (pw : Option Passwd)
    (ch : Option UInt8) (file : Stream) :
    Except Ecode Passwd × Option UInt8 × Stream :=
  match pw with
  | some pw => (.ok pw, ch, file)
  | none =>
      let (username, ch, file) := getString maxCommand file (bytes " \t\n")
      if ch = none ∨ ch = some newline ∨ ch = some star then
        (.error .cmd, ch, file)
      else
        match getpwnam (CString.ofBuf username) with
        | none => (.error .username, ch, file)
        | some pw => (.ok pw, ch, file)

/-- `pw_dup`: a copy in one block. -/
def pwDup (h : CHeap) (pw : Passwd) : Option Passwd × CHeap :=
  let (ok, h) := h.request
  (if ok then some pw else none, h)

/-- `bzero(pwd->pw_passwd, strlen(pwd->pw_passwd))`. -/
def bzeroPasswd (pwd : Passwd) : Passwd :=
  { pwd with pwPasswd := CString.ofBuf [] }

-- ===================================================== the environment

/-- Where the fixing-up of the environment stands. -/
structure EnvState where
  ecode : Ecode
  envp : Nat
  heap : CHeap
  log : List String

/-- Go on unless an allocation failed. -/
def EnvState.andThen (s : EnvState) (k : EnvState → EnvState) : EnvState :=
  if s.ecode = .none then k s else s

/-- Set a variable, or say that it cannot be. -/
def setVar (name value : List UInt8) (msg : String) (s : EnvState) :
    EnvState :=
  match glueStrings maxEnvstr name value equals with
  | (true, envstr) =>
      match envSet s.heap s.envp (CString.ofBuf envstr) with
      | (none, h) => { s with ecode := .memory, heap := h }
      | (some tenvp, h) => { s with envp := tenvp, heap := h }
  | (false, _) => { s with log := s.log ++ [msg] }

/-- Set a variable the environment does not have. -/
def defaultVar (name value : List UInt8) (msg : String) (s : EnvState) :
    EnvState :=
  if envGet s.heap name s.envp = none then setVar name value msg s else s

/-- `_PATH_BSHELL`. -/
def pathBshell : List UInt8 := bytes "/bin/sh"

/-- `_PATH_DEFPATH`. -/
def pathDefpath : List UInt8 := bytes "/usr/bin:/bin"

/-- Copy and fix up the environment: SHELL, HOME and PATH are defaults,
LOGNAME and USER are overrides. The vector is `none` if there is no
copy. -/
def loadEnv (h : CHeap) (envp : Nat) (pw : Passwd) (fname : String) :
    Ecode × Option Nat × CHeap × List String :=
  match envCopy h envp with
  | (none, h) => (.memory, none, h, [])
  | (some p, h) =>
      let s : EnvState := { ecode := .none, envp := p, heap := h, log := [] }
      let s := defaultVar (bytes "SHELL") pathBshell
        ("ERROR: can't set SHELL in " ++ fname) s
      let s := s.andThen (defaultVar (bytes "HOME") pw.pwDir.bytes
        ("ERROR: can't set HOME in " ++ fname))
      let s := s.andThen (defaultVar (bytes "PATH") pathDefpath
        ("ERROR can't set PATH in " ++ fname))
      let s := s.andThen (setVar (bytes "LOGNAME") pw.pwName.bytes
        ("ERROR can't set LOGNAME in " ++ fname))
      let s := s.andThen (setVar (bytes "USER") pw.pwName.bytes
        ("ERROR can't set USER in " ++ fname))
      (s.ecode, some s.envp, s.heap, s.log)

-- ========================================================== load_entry

/-- How the body of `load_entry` ends: with an entry, at the label `eof`
with `ecode` and `e->envp`, or by returning `NULL` on the spot. -/
inductive Verdict
  | entry (e : Entry)
  | eof (ecode : Ecode) (envp : Option Nat)
  | null

/-- The state in which the body ends. -/
structure Body where
  verdict : Verdict
  bits : Bitmaps
  ch : Option UInt8
  file : Stream
  heap : CHeap
  log : List String

/-- From the username on. -/
def loadJob (getpwnam : CString → Option Passwd) (pw : Option Passwd)
    (h : CHeap) (envp : Nat) (fname : String) (s : Sched) : Body :=
  match loadUser getpwnam pw s.ch (ungetChar s.ch s.file) with
  | (.error ecode, ch, file) =>
      { verdict := .eof ecode none, bits := s.bits, ch := ch, file := file,
        heap := h, log := [] }
  | (.ok pw, ch, file) =>
      match pwDup h pw with
      | (none, h) =>
          { verdict := .eof .memory none, bits := s.bits, ch := ch,
            file := file, heap := h, log := [] }
      | (some pwd, h) =>
          match loadEnv h envp pw fname with
          | (.none, some envp, h, log) =>
              -- everything up to the next \n or EOF is part of the command
              let (cmd, ch, file) := getString maxCommand file (bytes "\n")
              if ch = none then
                { verdict := .eof .cmd (some envp), bits := s.bits, ch := ch,
                  file := file, heap := h, log := log }
              else
                let (ok, h) := h.request
                if ok then
                  { verdict := .entry
                      { pwd := bzeroPasswd pwd, envp := envp,
                        cmd := CString.ofBuf cmd, bits := s.bits,
                        flags := s.flags }
                    bits := s.bits, ch := ch, file := file, heap := h,
                    log := log }
                else
                  { verdict := .eof .memory (some envp), bits := s.bits,
                    ch := ch, file := file, heap := h, log := log }
          | (ecode, envp, h, log) =>
              { verdict := .eof ecode envp, bits := s.bits, ch := ch,
                file := file, heap := h, log := log }

/-- The message of the refused `-` option. -/
def optionMsg (fname : String) : String :=
  "Only Privileged Users can disable Logging in " ++ fname

/-- `pw == NULL || pw->pw_uid == 0`. -/
def mayDisableLog (pw : Option Passwd) : Bool :=
  match pw with
  | none => true
  | some pw => pw.pwUid == 0

/-- The schedule, and if nothing was rejected the rest of the line. -/
def loadLine (getpwnam : CString → Option Passwd) (pw : Option Passwd)
    (h : CHeap) (envp : Nat) (fname : String) (flags : Nat)
    (ch : Option UInt8) (file : Stream) : Body :=
  let s := loadSchedule
    { ecode := .none, bits := .zero, flags := flags, ch := ch, file := file }
  if s.ecode = .none then loadJob getpwnam pw h envp fname s
  else
    { verdict := .eof s.ecode none, bits := s.bits, ch := s.ch,
      file := s.file, heap := h, log := [] }

/-- `load_entry` up to `return (e)` or the label `eof`. -/
def loadBody (getpwnam : CString → Option Passwd) (file : Stream)
    (pw : Option Passwd) (h : CHeap) (envp : Nat) (fname : String) :
    Body :=
  let file := skipComments file
  let (ch, file) := getChar file
  let stop (verdict : Verdict) (ch : Option UInt8) (file : Stream)
      (log : List String) : Body :=
    { verdict := verdict, bits := .zero, ch := ch, file := file, heap := h,
      log := log }
  if ch = none then stop .null ch file []
  else if ch = some dash then
    if mayDisableLog pw then
      let (ch, file) := getChar file
      if ch = none then stop .null ch file []
      else loadLine getpwnam pw h envp fname dontLog ch file
    else stop (.eof .option none) ch file [optionMsg fname]
  else loadLine getpwnam pw h envp fname 0 ch file

/-- `while (ch != '\n' && !feof(file)) ch = get_char(file);` -/
def skipLine : (fuel : Nat) → Option UInt8 → Stream → Option Stream
  | 0, _, _ => none
  | fuel + 1, ch, file =>
      if ch ≠ some newline ∧ ¬ file.feof then
        skipLine fuel (getChar file).1 (getChar file).2
      else some file

/-- What a call of `load_entry` returns and leaves behind. -/
structure LoadResult where
  entry : Option Entry
  file : Stream
  heap : CHeap
  log : List String

/-- The message of a rejected line. -/
def errorMsg (ecode : Ecode) (fname : String) : String :=
  "Error: " ++ ecodes ecode ++ " in " ++ fname

/-- `load_entry`. Whether `error_func` is null is all the source looks
at. -/
def loadEntry (fuel : Nat) (getpwnam : CString → Option Passwd)
    (file : Stream) (errorFunc : Bool) (pw : Option Passwd) (h : CHeap)
    (envp : Nat) (fname : String) : Option LoadResult :=
  let b := loadBody getpwnam file pw h envp fname
  match b.verdict with
  | .entry e =>
      some { entry := some e, file := b.file, heap := b.heap, log := b.log }
  | .null =>
      some { entry := none, file := b.file, heap := b.heap, log := b.log }
  | .eof ecode envp =>
      let h :=
        match envp with
        | none => b.heap
        | some envp => envFree b.heap envp
      match skipLine fuel b.ch b.file with
      | none => none
      | some file =>
          let log :=
            if ecode ≠ .none ∧ errorFunc then b.log ++ [errorMsg ecode fname]
            else b.log
          some { entry := none, file := file, heap := h, log := log }

end Tinjac
