/-
`load_user` of the vendored crond: `cronie-1.4.6/src/user.c`.

It reads a crontab to its end: `load_env` takes what is a setting and
adds it to the environment, and leaves everything else to `load_entry`,
whose entries are put in front of those read before.

The file is the stream that `fdopen` returned, and the build is one
without SELinux, where `get_security_context` does nothing. Of the
allocations only the environments, the two names and the fate of the
rest are on the heap, as in `load_entry`.
-/
import Tinjac.Crond.Model.LoadEntry
import Tinjac.Crond.Model.LoadEnv

namespace Tinjac.Crond

open CHeap

/-- A `user` as it was loaded. -/
structure LoadedUser where
  name : CString
  tabname : CString
  crontab : List Entry

/-- `log_error`. -/
def logError (tabname : String) (msg : String) : String :=
  logIt "CRON" msg tabname

/-- The variables of the loop of `load_user`. -/
structure UserLoad where
  heap : CHeap
  envp : Nat
  envstr : List UInt8
  file : Stream
  crontab : List Entry
  log : List String

/-- The loop of `load_user`, for that many lines at most: whether it came
to the end of the file, and the variables then. -/
def loadUserLoop (getpwnam : CString → Option Passwd)
    (pw : Option Passwd) (tabname : String) :
    Nat → UserLoad → Option (Bool × UserLoad)
  | 0, _ => none
  | fuel + 1, s =>
      match loadEnv s.envstr s.file with
      | none => none
      | some (.err, envstr, file) =>
          some (true, { s with envstr := envstr, file := file })
      | some (.no, envstr, file) =>
          match loadEntry fuel getpwnam file (some (logError tabname)) pw
              s.heap s.envp with
          | none => none
          | some r =>
              loadUserLoop getpwnam pw tabname fuel
                { s with
                  heap := r.heap, envstr := envstr, file := r.file
                  crontab := r.entry.toList ++ s.crontab
                  log := s.log ++ r.log }
      | some (.yes, envstr, file) =>
          match envSet s.heap s.envp (CString.ofBuf envstr) with
          | (none, heap) =>
              some (false,
                { s with heap := heap, envstr := envstr, file := file })
          | (some tenvp, heap) =>
              loadUserLoop getpwnam pw tabname fuel
                { s with
                  heap := heap, envp := tenvp, envstr := envstr
                  file := file }

/-- `free_entry` of each entry, as far as it is on the heap. -/
def freeEntries (h : CHeap) (crontab : List Entry) : CHeap :=
  crontab.foldl (fun h e => envFree h e.envp) h

/-- What `load_user` returns, the heap, and what was logged. -/
structure UserResult where
  user : Option LoadedUser
  heap : CHeap
  log : List String

/-- `load_user`. The array `envstr` is not initialized. -/
def loadUser (fuel : Nat) (getpwnam : CString → Option Passwd)
    (file : Stream) (pw : Option Passwd) (fname : CString)
    (tabname : CString) (tab : String) (envstr : List UInt8) (h : CHeap) :
    Option UserResult :=
  let (ok, h) := h.request
  if ok then
    match strdup h fname with
    | (none, h) => some { user := none, heap := h, log := [] }
    | (some name, h) =>
        match strdup h tabname with
        | (none, h) =>
            -- the name is lost
            some { user := none, heap := h, log := [] }
        | (some tabcopy, h) =>
            match envInit h with
            | (none, h) =>
                -- the other name is lost
                some { user := none, heap := h.free name, log := [] }
            | (some envp, h) =>
                match loadUserLoop getpwnam pw tab fuel
                    { heap := h, envp := envp, envstr := envstr
                      file := file, crontab := [], log := [] } with
                | none => none
                | some (true, s) =>
                    some
                      { user := some { name := fname, tabname := tabname
                                       crontab := s.crontab }
                        heap := envFree s.heap s.envp
                        log := s.log }
                | some (false, s) =>
                    let h := (s.heap.free name).free tabcopy
                    let h := freeEntries h s.crontab
                    some { user := none, heap := envFree h s.envp
                           log := s.log }
  else some { user := none, heap := h, log := [] }

end Tinjac.Crond
