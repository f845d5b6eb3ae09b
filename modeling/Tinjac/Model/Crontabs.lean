/-
`parseCrontab` and `setPath`: one crontab file, and the directory of
them that `main` hands over.

# The process

What one file leaves behind for the next is the `Process`: how many
descriptors are still free (`parseCrontab` opens one for each file it
can open and closes none), the heap, and the line counter. What the
surroundings supply is the `System`: the password database, the clock,
and on which values Boost's `ptime_from_tm` throws.

Output is collected for each file. `parseCrontab` ends as its `Ending`
says; only when it returned does `setPath` go on to the next file (an
exception leaves `setPath` too, and `main` catches it).

# What is left out

Unless the file could not be opened, `parseCrontab` ends without the
`return` statement that a function with a result must have, as does
`printTime`. What the program then does is undefined in C++; here
`parseCrontab` returns, and nobody looks at the value.
-/
import Tinjac.Model.PrintTime

namespace Tinjac

open BlockHeap CHeap

/-- Why `open` failed. -/
inductive Errno
  | noent
  | acces
  | mfile
deriving DecidableEq, Repr

/-- `strerror`. -/
def strerror : Errno → String
  | .noent => "No such file or directory"
  | .acces => "Permission denied"
  | .mfile => "Too many open files"

/-- What `open` finds at a path: a file removed since the directory was
listed, one the process may not read, or the bytes of one it may. -/
inductive Content
  | removed
  | unreadable
  | bytes (bs : List UInt8)
deriving DecidableEq

/-- A directory entry: whether it is a regular file, its content, and
whether `fdopen` succeeds on it. -/
structure DirEntry where
  path : String
  regular : Bool
  content : Content
  fdopens : Bool

/-- What the program asks its surroundings. -/
structure System where
  getpwnam : CString → Option Passwd
  now : Tm
  ptimeThrows : Tm → Bool

/-- What one file leaves behind for the next. -/
structure Process where
  fds : Nat
  heap : CHeap
  lineNumber : Int

/-- `fdopen` of a descriptor just opened. -/
def fdopen (bs : List UInt8) (lineNumber : Int) : Stream :=
  { Stream.ofBytes bs with lineNumber := lineNumber }

/-- The output of a call and how it ended. -/
structure Report where
  output : List Line
  ending : Ending
deriving DecidableEq

/-- The report of the entry that was read. -/
def reportEntry (fuel : Nat) (sys : System) (e : Entry) : Report :=
  let (lines, ending) := printTime fuel sys.ptimeThrows sys.now e
  let lines := .command e.cmd :: lines
  match ending with
  | .returned =>
      { output := lines ++ [.user e.pwd.pwName], ending := .returned }
  | ending => { output := lines, ending := ending }

/-- `open`: a descriptor is taken before the path is looked at. -/
def openFile (p : Process) (file : DirEntry) :
    Except Errno (List UInt8) :=
  if p.fds = 0 then .error .mfile
  else
    match file.content with
    | .removed => .error .noent
    | .unreadable => .error .acces
    | .bytes bs => .ok bs

/-- `parseCrontab`. -/
def parseCrontab (fuel : Nat) (sys : System) (p : Process)
    (file : DirEntry) : Report × Process :=
  match openFile p file with
  | .error errno =>
      ({ output := [.elog ("Can't open " ++ file.path ++ ": "
           ++ strerror errno)],
         ending := .returned }, p)
  | .ok bs =>
      let p := { p with fds := p.fds - 1 }
      if file.fdopens then
        match envInit p.heap with
        | (none, h) =>
            ({ output := [], ending := .crashed }, { p with heap := h })
        | (some envp, h) =>
            match loadEntry fuel sys.getpwnam (fdopen bs p.lineNumber) false
                none h envp file.path with
            | none =>
                ({ output := [], ending := .running }, { p with heap := h })
            | some r =>
                let p := { p with
                  heap := r.heap, lineNumber := r.file.lineNumber }
                let log := r.log.map Line.elog
                match r.entry with
                | none => ({ output := log, ending := .returned }, p)
                | some e =>
                    let report := reportEntry fuel sys e
                    ({ report with output := log ++ report.output }, p)
      else
        ({ output := [.elog ("Failed to Fdopen on " ++ file.path
             ++ ": Cannot allocate memory")],
           ending := .returned }, p)

/-- The directory loop of `setPath`: the report of each file reached, in
order. A directory entry that is not a regular file has the empty
report. -/
def setPathLoop (fuel : Nat) (sys : System) :
    Process → List DirEntry → List (String × Report)
  | _, [] => []
  | p, file :: files =>
      if file.regular then
        let (report, p) := parseCrontab fuel sys p file
        if report.ending = .returned then
          (file.path, report) :: setPathLoop fuel sys p files
        else [(file.path, report)]
      else
        (file.path, { output := [], ending := .returned })
          :: setPathLoop fuel sys p files

/-- `setPath` on a directory, or on nothing: what it returns, if it does,
and the reports. Where the last report has not returned, nor has
`setPath`, and the `true` beside the reports is no result of it. -/
def setPath (fuel : Nat) (sys : System) (p : Process)
    (dbdir : Option (List DirEntry)) : Bool × List (String × Report) :=
  match dbdir with
  | none => (false, [])
  | some files => (true, setPathLoop fuel sys p files)

end Tinjac
