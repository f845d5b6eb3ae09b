/-
The crontab files of the vendored crond: `cronie-1.4.6/src/database.c`.

When the time stamp of a directory, or of a file in it, is newer than
before, all files are gone through, and a table whose file has the time
stamp it had is not read again.

# The disk

`Disk` is what a look at the disk finds: time stamps, directories, files
that can be opened, the users, and what `load_user` makes of a file. What
that is belongs to another model; here it is a type of its own.

# The lists

`link_user` puts a user behind the others, and `unlink_user` takes out
the one that `find_user` has found, which is the first that matches.

Clustering is off (`EnableClustering`), there is no inotify, and no
SIGHUP sets the time stamp of the database back. A file
that cannot be opened, and one whose `fstat` fails, only differ in what
is logged.
-/
import Tinjac.Crond.Model.Jobs

namespace Tinjac.Crond

-- ============================================================= the disk

/-- What `configure` and the command line set. -/
structure Conf where
  syscrontab : CString
  sysCrondDir : CString
  spoolDir : CString
  cronHostname : CString
  permitAnyCrontab : Bool

/-- What `check_open` looks at of a `struct stat`. -/
structure Stat where
  mtime : Int
  isReg : Bool
  mode : Nat
  uid : UInt32
  nlink : Nat

/-- What crond finds. -/
structure Disk (α : Type) where
  stat : CString → Option Int
  readdir : CString → Option (List CString)
  opened : CString → Option Stat
  getpwnam : CString → Option Passwd
  load : (fname tabname : CString) → Option Passwd → Option α

/-- A `user *` in the database. -/
structure CachedUser (α : Type) where
  name : CString
  tabname : CString
  mtime : Int
  crontab : α
deriving DecidableEq

/-- `cron_db`. -/
structure CronDb (α : Type) where
  users : List (CachedUser α)
  mtime : Int

def maxNamlen : Nat := 255

/-- `dp->d_name` ends in this, with something in front. -/
def endsIn (name suffix : List UInt8) : Bool :=
  decide (suffix.length < name.length)
    && name.drop (name.length - suffix.length) == suffix

/-- `not_a_crontab`. -/
def notACrontab (c : Conf) (name : CString) : Bool :=
  name.bytes.head? == some 46 || name.bytes.head? == some hash
    || name == c.cronHostname
    || decide (maxNamlen ≤ name.bytes.length)
    || name.bytes.getLast? == some 126
    || endsIn name.bytes (bytes ".rpmsave")
    || endsIn name.bytes (bytes ".rpmorig")
    || endsIn name.bytes (bytes ".rpmnew")

/-- `glue_strings(tabname, sizeof tabname, dir, name, '/')`. -/
def tabPath (dir name : CString) : Option CString :=
  let (ok, tabname) :=
    glueStrings (maxNamlen + 1) dir.bytes name.bytes slash
  if ok then some (CString.ofBuf tabname) else none

-- ============================================================ the users

section

variable {α : Type}

/-- The test of `find_user`. -/
def CachedUser.is (name : CString) (tabname : Option CString)
    (u : CachedUser α) : Bool :=
  u.name == name
    && match tabname with
      | none => true
      | some tabname => tabname == u.tabname

/-- `find_user`. -/
def findUser (users : List (CachedUser α)) (name : CString)
    (tabname : Option CString) : Option (CachedUser α) :=
  users.find? (CachedUser.is name tabname)

/-- `unlink_user`, of the user that was found. -/
def unlinkUser (users : List (CachedUser α)) (name : CString)
    (tabname : Option CString) : List (CachedUser α) :=
  users.eraseP (CachedUser.is name tabname)

/-- The owner of a file is not this user. -/
def wrongOwner (s : Stat) (uname : CString) (pw : Option Passwd) : Bool :=
  match pw with
  | none => true
  | some pw => s.uid != pw.pwUid || uname != pw.pwName

/-- `check_open`: the time stamp of the file. -/
def checkOpen (c : Conf) (d : Disk α) (tabname uname : CString)
    (pw : Option Passwd) : Option Int :=
  match d.opened tabname with
  | none => none
  | some s =>
      if c.permitAnyCrontab then some s.mtime
      else if ¬ s.isReg then none
      else if s.mode &&& 0o7533 ≠ 0o400 then none
      else if s.uid ≠ 0 ∧ wrongOwner s uname pw then none
      else if pw.isSome ∧ s.nlink ≠ 1 then none
      else some s.mtime

def systemName : CString := CString.ofString "*system*"

/-- `process_crontab`, on the new and the old users. -/
def processCrontab (c : Conf) (d : Disk α) (uname : CString)
    (fname : Option CString) (tabname : CString)
    (users : List (CachedUser α) × List (CachedUser α)) :
    List (CachedUser α) × List (CachedUser α) :=
  let crondCrontab := fname = none ∧ tabname ≠ c.syscrontab
  let pw := if fname = none then none else d.getpwnam uname
  if fname ≠ none ∧ pw = none then users -- ORPHAN
  else
    let name := fname.getD systemName
    match checkOpen c d tabname uname pw with
    | none => users
    | some mtime =>
        let key := if crondCrontab then some tabname else none
        let (new, old) := users
        match findUser old name key with
        | some u =>
            let old := unlinkUser old name key
            if u.mtime = mtime then (new ++ [u], old)
            else
              match d.load name tabname pw with
              | some crontab =>
                  (new ++ [⟨name, tabname, mtime, crontab⟩], old)
              | none => (new, old)
        | none =>
            match d.load name tabname pw with
            | some crontab => (new ++ [⟨name, tabname, mtime, crontab⟩], old)
            | none => (new, old)

-- ======================================================== the database

/-- The loop over a directory of `load_database`. -/
def processDir (c : Conf) (d : Disk α) (dir : CString)
    (process : (name tabname : CString) →
      List (CachedUser α) × List (CachedUser α) →
        List (CachedUser α) × List (CachedUser α))
    (users : List (CachedUser α) × List (CachedUser α)) :
    List (CachedUser α) × List (CachedUser α) :=
  match d.readdir dir with
  | none => users
  | some names =>
      names.foldl
        (fun users name =>
          if notACrontab c name then users
          else
            match tabPath dir name with
            | none => users
            | some tabname => process name tabname users)
        users

/-- `max_mtime`, of a directory whose own time stamp this is. -/
def maxMtime (c : Conf) (d : Disk α) (dir : CString) (mtime : Int) : Int :=
  match d.readdir dir with
  | none => 0
  | some names =>
      names.foldl
        (fun mtime name =>
          if notACrontab c name ∧ name ≠ c.cronHostname then mtime
          else
            match (tabPath dir name).bind d.stat with
            | none => mtime
            | some t => if mtime < t then t else mtime)
        mtime

/-- The time stamp of a directory and of what is in it. -/
def dirMtime (c : Conf) (d : Disk α) (dir : CString) : Int :=
  match d.stat dir with
  | none => 0
  | some mtime => maxMtime c d dir mtime

/-- The time stamp of the database that is on the disk. -/
def diskMtime (c : Conf) (d : Disk α) : Int :=
  max (dirMtime c d c.sysCrondDir)
    (max (dirMtime c d c.spoolDir) ((d.stat c.syscrontab).getD 0))

/-- The users of a new database. Those that are left of the old one are
freed. -/
def reloadUsers (c : Conf) (d : Disk α) (old : List (CachedUser α)) :
    List (CachedUser α) :=
  let users := ([], old)
  let users :=
    if (d.stat c.syscrontab).getD 0 ≠ 0 then
      processCrontab c d (CString.ofString "root") none c.syscrontab users
    else users
  let users :=
    processDir c d c.sysCrondDir
      (fun _ tabname =>
        processCrontab c d (CString.ofString "root") none tabname) users
  let users :=
    processDir c d c.spoolDir
      (fun fname => processCrontab c d fname (some fname)) users
  users.1

/-- `load_database`, and whether it has loaded anything. -/
def CronDb.load (c : Conf) (d : Disk α) (db : CronDb α) : CronDb α × Bool :=
  if db.mtime = diskMtime c d then (db, false)
  else
    ({ users := reloadUsers c d db.users, mtime := diskMtime c d }, true)

end

end Tinjac.Crond
