/-
The database is what is on the disk.

A file is one of the `sources` of a look at the disk, and `fresh` is what
is made of it where nothing was read before. To use a table that was read
before makes no difference (`Current`) as long as the one that
`find_user` finds was read from the same file, and the file has not
changed under its time stamp. The induction is on the sources; old users
are only taken out on the way.

Of a user in the database it is known which file it was read from
(`origin`), and for all files but one `find_user` asks for enough to find
no other. For the system crontab it asks for any system table.

# What is left out

SIGHUP, which makes crond forget the time stamp of its database: the next
look then goes through all files, and keeps the tables whose files have
the time stamps they had. And a password database that changes between
two looks: a table that is kept has the records it was read with, so that
a file with its old time stamp would no longer be what was read is among
the things that crond takes for granted (`Orderly.versions`).
-/
import Tinjac.Crond.Model.Database
import Mathlib.Data.List.Basic

namespace Tinjac.Crond

-- ========================================================== the sources

/-- A file that `process_crontab` is called for. -/
structure Source where
  uname : CString
  fname : Option CString
  tabname : CString
deriving DecidableEq

section

variable {α : Type} (c : Conf) (d : Disk α)

namespace Source

/-- The name that is set "for logging purposes". -/
def name (s : Source) : CString := s.fname.getD systemName

/-- The table that `find_user` is asked for: a file of the directory of
system tables is looked up with its name, the system crontab and the
tables of users without one. -/
def key (s : Source) : Option CString :=
  if s.fname = none ∧ s.tabname ≠ c.syscrontab then some s.tabname else none

/-- The owner of a user's table. -/
def owner (s : Source) : Option Passwd :=
  if s.fname = none then none else d.getpwnam s.uname

/-- The time stamp of a file that can be read. -/
def mtime (s : Source) : Option Int :=
  if s.fname ≠ none ∧ s.owner d = none then none
  else checkOpen c d s.tabname s.uname (s.owner d)

/-- What is read of a file where nothing was read before: a user with the
file's time stamp, if it can be read at all. -/
def fresh (s : Source) : Option (CachedUser α) :=
  match s.mtime c d with
  | none => none
  | some t =>
      (d.load s.name s.tabname (s.owner d)).map fun crontab =>
        ⟨s.name, s.tabname, t, crontab⟩

/-- `process_crontab` on a file: the new users and the old ones. -/
def process (s : Source) :
    List (CachedUser α) × List (CachedUser α) →
      List (CachedUser α) × List (CachedUser α) :=
  processCrontab c d s.uname s.fname s.tabname

end Source

/-- The files of a directory that are not passed over by their names. -/
def dirSources (dir : CString) (mk : (name tabname : CString) → Source) :
    List Source :=
  ((d.readdir dir).getD []).filterMap fun name =>
    if notACrontab c name then none else (tabPath dir name).map (mk name)

/-- The system crontab, which stands outside the directories. -/
def systemSource : Source := ⟨CString.ofString "root", none, c.syscrontab⟩

/-- The files of the directory of system tables. -/
def crondSources : List Source :=
  dirSources c d c.sysCrondDir fun _ tabname =>
    ⟨CString.ofString "root", none, tabname⟩

/-- The tables of users in the spool directory. -/
def spoolSources : List Source :=
  dirSources c d c.spoolDir fun name tabname => ⟨name, some name, tabname⟩

/-- The system crontab, if it is there. -/
def systemSources : List Source :=
  if (d.stat c.syscrontab).getD 0 ≠ 0 then [systemSource c] else []

/-- The files that are gone through, in that order: the system crontab,
the directory of system tables, and the spool directory. -/
def sources : List Source :=
  systemSources c d ++ (crondSources c d ++ spoolSources c d)

/-- What is on the disk: the users that crond would have if it read all
files afresh. -/
def freshUsers : List (CachedUser α) :=
  (sources c d).filterMap (Source.fresh c d)

/-- `process_crontab` on some files, one after the other: what it makes of
the two lists of users, the new and the old. -/
def processAll (ss : List Source)
    (users : List (CachedUser α) × List (CachedUser α)) :
    List (CachedUser α) × List (CachedUser α) :=
  ss.foldl (fun users s => s.process c d users) users

theorem processDir_eq (dir : CString)
    (mk : (name tabname : CString) → Source)
    (users : List (CachedUser α) × List (CachedUser α)) :
    processDir c d dir (fun name tabname => (mk name tabname).process c d)
        users
      = processAll c d (dirSources c d dir mk) users := by
  unfold processDir processAll dirSources
  cases d.readdir dir with
  | none => rfl
  | some names =>
      dsimp only [Option.getD_some]
      rw [List.foldl_filterMap]
      congr 1
      funext users name
      cases notACrontab c name with
      | true => rfl
      | false =>
          rw [if_neg Bool.false_ne_true, if_neg Bool.false_ne_true]
          cases tabPath dir name with
          | none => rfl
          | some tabname => rfl

theorem reloadUsers_eq (old : List (CachedUser α)) :
    reloadUsers c d old = (processAll c d (sources c d) ([], old)).1 := by
  have hcrond := processDir_eq c d c.sysCrondDir
    (fun _ tabname => ⟨CString.ofString "root", none, tabname⟩)
  have hspool := processDir_eq c d c.spoolDir
    (fun name tabname => ⟨name, some name, tabname⟩)
  unfold reloadUsers
  dsimp only
  unfold Source.process at hcrond hspool
  dsimp only at hcrond hspool
  rw [hcrond, hspool]
  unfold sources systemSources crondSources spoolSources
  unfold processAll
  rw [List.foldl_append, List.foldl_append]
  by_cases hstat : (d.stat c.syscrontab).getD 0 ≠ 0
  · rw [if_pos hstat, if_pos hstat]
    rfl
  · rw [if_neg hstat, if_neg hstat]
    rfl

end

-- ============================================================= one file

section

variable {α : Type} {c : Conf} {d : Disk α} {s : Source}
  {new old : List (CachedUser α)}

/-- What is done for a file, by what `find_user` has found. -/
theorem process_eq (s : Source) (new old : List (CachedUser α)) :
    s.process c d (new, old)
      = (s.mtime c d).elim (new, old) fun t =>
          (findUser old s.name (s.key c)).elim
            (new ++ (s.fresh c d).toList, old)
            fun u =>
              (new ++ if u.mtime = t then [u] else (s.fresh c d).toList,
                unlinkUser old s.name (s.key c)) := by
  unfold Source.process processCrontab Source.fresh Source.mtime
  dsimp only
  by_cases horphan : s.fname ≠ none ∧ s.owner d = none
  · rw [if_pos horphan]
    unfold Source.owner at horphan
    rw [if_pos horphan]
    rfl
  · rw [if_neg horphan]
    unfold Source.owner at horphan ⊢
    rw [if_neg horphan]
    unfold Source.name Source.key
    generalize (if s.fname = none then none else d.getpwnam s.uname) = pw
    generalize (if s.fname = none ∧ s.tabname ≠ c.syscrontab then
      some s.tabname else none) = key
    cases checkOpen c d s.tabname s.uname pw with
    | none => rfl
    | some t =>
        dsimp only
        cases findUser old (s.fname.getD systemName) key with
        | none =>
            cases d.load (s.fname.getD systemName) s.tabname pw with
            | none => simp
            | some crontab => rfl
        | some u =>
            by_cases ht : u.mtime = t
            · simp only [Option.elim_some, if_pos ht]
            · simp only [Option.elim_some, if_neg ht]
              cases d.load (s.fname.getD systemName) s.tabname pw with
              | none => simp
              | some crontab => rfl

theorem fresh_of_mtime_none (h : s.mtime c d = none) :
    s.fresh c d = none := by
  unfold Source.fresh
  rw [h]

/-- A file is read afresh, or not at all if what is there is the same. -/
theorem process_fresh
    (hfind : ∀ u, findUser old s.name (s.key c) = some u →
      s.mtime c d = some u.mtime → s.fresh c d = some u) :
    ∃ old', s.process c d (new, old) = (new ++ (s.fresh c d).toList, old')
      ∧ old'.Sublist old := by
  rw [process_eq]
  cases hmtime : s.mtime c d with
  | none =>
      rw [fresh_of_mtime_none hmtime]
      exact ⟨old, by simp, List.Sublist.refl old⟩
  | some t =>
      cases hfound : findUser old s.name (s.key c) with
      | none => exact ⟨old, rfl, List.Sublist.refl old⟩
      | some u =>
          refine ⟨unlinkUser old s.name (s.key c), ?_,
            List.eraseP_sublist⟩
          rw [Option.elim_some, Option.elim_some]
          by_cases ht : u.mtime = t
          · rw [if_pos ht, hfind u hfound (by rw [hmtime, ht])]
            rfl
          · rw [if_neg ht]

/-- Whatever matches a file is what would be read of it, if its time
stamp is the same. -/
def Current (c : Conf) (d : Disk α) (old : List (CachedUser α))
    (s : Source) : Prop :=
  ∀ u ∈ old, u.is s.name (s.key c) = true →
    s.mtime c d = some u.mtime → s.fresh c d = some u

theorem Current.sublist {old' : List (CachedUser α)}
    (h : Current c d old s) (hsub : old'.Sublist old) :
    Current c d old' s :=
  fun u hu => h u (hsub.subset hu)

/-- Files are read afresh one after the other. -/
theorem processAll_fresh {ss : List Source}
    (hcurrent : ∀ s ∈ ss, Current c d old s) :
    ∃ old', processAll c d ss (new, old)
        = (new ++ ss.filterMap (Source.fresh c d), old')
      ∧ old'.Sublist old := by
  induction ss generalizing new old with
  | nil =>
      rw [List.filterMap_nil, List.append_nil]
      exact ⟨old, rfl, List.Sublist.refl old⟩
  | cons s ss ih =>
      obtain ⟨old1, hstep, hsub⟩ := @process_fresh α c d s new old
        fun u hu =>
          hcurrent s List.mem_cons_self u (List.mem_of_find?_eq_some hu)
            (List.find?_some hu)
      obtain ⟨old2, hrest, hsub2⟩ := @ih (new ++ (s.fresh c d).toList) old1
        fun s' hs' =>
          (hcurrent s' (List.mem_cons_of_mem s hs')).sublist hsub
      refine ⟨old2, ?_, hsub2.trans hsub⟩
      show processAll c d ss (s.process c d (new, old)) = _
      rw [hstep, hrest, List.append_assoc]
      congr 2
      cases hfresh : s.fresh c d with
      | none => rw [List.filterMap_cons_none hfresh]; rfl
      | some u => rw [List.filterMap_cons_some hfresh]; rfl

/-- What comes into a database was there, or was read. -/
theorem mem_processAll {ss : List Source} {u : CachedUser α}
    (hu : u ∈ (processAll c d ss (new, old)).1) :
    u ∈ new ∨ u ∈ old ∨ ∃ s ∈ ss, s.fresh c d = some u := by
  induction ss generalizing new old with
  | nil => exact Or.inl hu
  | cons s ss ih =>
      have hu : u ∈ (processAll c d ss (s.process c d (new, old))).1 := hu
      have hstep : ∀ v, (v ∈ (s.process c d (new, old)).1 →
          v ∈ new ∨ v ∈ old ∨ s.fresh c d = some v)
            ∧ (v ∈ (s.process c d (new, old)).2 → v ∈ old) := by
        intro v
        rw [process_eq]
        cases s.mtime c d with
        | none => exact ⟨Or.inl, id⟩
        | some t =>
            cases hfound : findUser old s.name (s.key c) with
            | none =>
                refine ⟨fun hv => ?_, id⟩
                rcases List.mem_append.mp hv with hv | hv
                · exact Or.inl hv
                · exact Or.inr (Or.inr (Option.mem_toList.mp hv))
            | some w =>
                refine ⟨fun hv => ?_, fun hv => List.mem_of_mem_eraseP hv⟩
                rcases List.mem_append.mp hv with hv | hv
                · exact Or.inl hv
                · split at hv
                  · rw [List.mem_singleton.mp hv]
                    exact Or.inr (Or.inl (List.mem_of_find?_eq_some hfound))
                  · exact Or.inr (Or.inr (Option.mem_toList.mp hv))
      generalize s.process c d (new, old) = r at hu hstep
      obtain ⟨new', old'⟩ := r
      rcases ih hu with hnew | hold | ⟨s', hs', hfresh⟩
      · rcases (hstep u).1 hnew with h | h | h
        · exact Or.inl h
        · exact Or.inr (Or.inl h)
        · exact Or.inr (Or.inr ⟨s, List.mem_cons_self, h⟩)
      · exact Or.inr (Or.inl ((hstep u).2 hold))
      · exact Or.inr (Or.inr ⟨s', List.mem_cons_of_mem s hs', hfresh⟩)

end

-- ============================================================== the runs

section

variable {α : Type} {c : Conf} {disk : Nat → Disk α}

/-- The database after so many looks at the disk. -/
def dbAt (c : Conf) (disk : Nat → Disk α) : Nat → CronDb α
  | 0 => { users := [], mtime := 0 }
  | n + 1 => ((dbAt c disk n).load c (disk n)).1

/-- What crond takes for granted of the disk: a file that has its time
stamp has its contents, and its owner is who he was; the system crontab is
not a file of the directory of system tables; and `*system*` is no user.
-/
structure Orderly (c : Conf) (disk : Nat → Disk α) : Prop where
  versions : ∀ i j s, s ∈ sources c (disk i) → s ∈ sources c (disk j) →
    ∀ t, s.mtime c (disk i) = some t → s.mtime c (disk j) = some t →
      (disk i).load s.name s.tabname (s.owner (disk i))
        = (disk j).load s.name s.tabname (s.owner (disk j))
  apart : ∀ i, ∀ s ∈ crondSources c (disk i), s.tabname ≠ c.syscrontab
  nobody : ∀ i, (disk i).getpwnam systemName = none

/-- A user of the database was read from a file. -/
theorem origin {n : Nat} {u : CachedUser α}
    (hu : u ∈ (dbAt c disk n).users) :
    ∃ i, ∃ s ∈ sources c (disk i), s.fresh c (disk i) = some u := by
  induction n with
  | zero => cases hu
  | succ n ih =>
      have hu : u ∈ ((dbAt c disk n).load c (disk n)).1.users := hu
      unfold CronDb.load at hu
      split at hu
      · exact ih hu
      · dsimp only at hu
        rw [reloadUsers_eq] at hu
        rcases mem_processAll hu with hnew | hold | ⟨s, hs, hfresh⟩
        · cases hnew
        · exact ih hold
        · exact ⟨n, s, hs, hfresh⟩

theorem fresh_eq_some {d : Disk α} {s : Source} {u : CachedUser α} :
    s.fresh c d = some u
      ↔ u.name = s.name ∧ u.tabname = s.tabname
        ∧ s.mtime c d = some u.mtime
        ∧ d.load s.name s.tabname (s.owner d) = some u.crontab := by
  unfold Source.fresh
  cases s.mtime c d with
  | none => simp
  | some t =>
      cases d.load s.name s.tabname (s.owner d) with
      | none => simp
      | some crontab =>
          obtain ⟨name, tabname, mtime, crontab'⟩ := u
          simp only [Option.map_some, Option.some.injEq,
            CachedUser.mk.injEq]
          constructor
          · rintro ⟨rfl, rfl, rfl, rfl⟩
            exact ⟨rfl, rfl, rfl, rfl⟩
          · rintro ⟨rfl, rfl, rfl, rfl⟩
            exact ⟨rfl, rfl, rfl, rfl⟩

/-- The three kinds of files. -/
theorem mem_sources {d : Disk α} {s : Source} (hs : s ∈ sources c d) :
    s = ⟨CString.ofString "root", none, s.tabname⟩
      ∨ ∃ name, s = ⟨name, some name, s.tabname⟩
        ∧ tabPath c.spoolDir name = some s.tabname := by
  rcases List.mem_append.mp hs with hsys | hdirs
  · unfold systemSources at hsys
    split at hsys
    · rw [List.mem_singleton.mp hsys]
      exact Or.inl rfl
    · cases hsys
  · rcases List.mem_append.mp hdirs with hcrond | hspool
    · obtain ⟨name, -, hname⟩ := List.mem_filterMap.mp hcrond
      split at hname
      · cases hname
      · obtain ⟨tabname, -, rfl⟩ := Option.map_eq_some_iff.mp hname
        exact Or.inl rfl
    · obtain ⟨name, -, hname⟩ := List.mem_filterMap.mp hspool
      split at hname
      · cases hname
      · obtain ⟨tabname, htab, rfl⟩ := Option.map_eq_some_iff.mp hname
        exact Or.inr ⟨name, rfl, htab⟩

/-- A file of a user is not of `*system*`. -/
theorem name_ne_system {d : Disk α} (hnobody : d.getpwnam systemName = none)
    {name tabname : CString} {t : Int}
    (hmtime : Source.mtime c d ⟨name, some name, tabname⟩ = some t) :
    name ≠ systemName := by
  rintro rfl
  unfold Source.mtime Source.owner at hmtime
  rw [if_pos ⟨by simp, hnobody⟩] at hmtime
  cases hmtime

/-- Two files with the name and the table of one user are the same. -/
theorem source_unique (horderly : Orderly c disk) {i j : Nat}
    {s s' : Source} (hs : s ∈ sources c (disk i))
    (hs' : s' ∈ sources c (disk j)) {t t' : Int}
    (ht : s.mtime c (disk i) = some t) (ht' : s'.mtime c (disk j) = some t')
    (hname : s.name = s'.name)
    (htab : s.fname = none → s.tabname = s'.tabname) : s = s' := by
  rcases mem_sources hs with heq | ⟨name, heq, hpath⟩
  · rcases mem_sources hs' with heq' | ⟨name', heq', -⟩
    · rw [heq, heq', htab (by rw [heq])]
    · rw [heq'] at ht' hname
      rw [heq] at hname
      exact absurd hname.symm (name_ne_system (horderly.nobody j) ht')
  · rcases mem_sources hs' with heq' | ⟨name', heq', hpath'⟩
    · rw [heq] at ht hname
      rw [heq'] at hname
      exact absurd hname (name_ne_system (horderly.nobody i) ht)
    · have hsame : name = name' := by
        rw [heq, heq'] at hname
        exact hname
      rw [← hsame] at hpath' heq'
      rw [hpath] at hpath'
      injection hpath' with hpath'
      rw [heq, heq', hpath']

/-- A user that was read from this file is what would be read of it now,
if its time stamp is the same. -/
theorem fresh_of_origin (horderly : Orderly c disk) {n : Nat} {s : Source}
    (hs : s ∈ sources c (disk n)) {u : CachedUser α}
    (hu : ∃ i, ∃ s ∈ sources c (disk i), s.fresh c (disk i) = some u)
    (hname : u.name = s.name)
    (htab : s.fname = none → u.tabname = s.tabname)
    (ht : s.mtime c (disk n) = some u.mtime) :
    s.fresh c (disk n) = some u := by
  obtain ⟨i, s', hs', hfresh⟩ := hu
  obtain ⟨hname', htab', ht', hload⟩ := fresh_eq_some.mp hfresh
  have hsame : s = s' :=
    source_unique horderly hs hs' ht ht' (hname.symm.trans hname')
      fun h => (htab h).symm.trans htab'
  rw [← hsame] at hs' hname' htab' ht' hload
  exact fresh_eq_some.mpr ⟨hname', htab', ht,
    (horderly.versions n i s hs hs' u.mtime ht ht').trans hload⟩

theorem mem_sources_system {d : Disk α}
    (hstat : (d.stat c.syscrontab).getD 0 ≠ 0) :
    systemSource c ∈ sources c d := by
  unfold sources systemSources
  rw [if_pos hstat]
  exact List.mem_append_left _ List.mem_cons_self

/-- For the files of the two directories `find_user` finds no other. -/
theorem dirs_current (horderly : Orderly c disk) (n : Nat) :
    ∀ s ∈ crondSources c (disk n) ++ spoolSources c (disk n),
      Current c (disk n) (dbAt c disk n).users s := by
  intro s hs u hu hmatch ht
  have hmem : s ∈ sources c (disk n) := List.mem_append_right _ hs
  unfold CachedUser.is at hmatch
  rw [Bool.and_eq_true, beq_iff_eq] at hmatch
  obtain ⟨hname, htab⟩ := hmatch
  refine fresh_of_origin horderly hmem (origin hu) hname ?_ ht
  intro hfname
  rcases List.mem_append.mp hs with hcrond | hspool
  · unfold Source.key at htab
    rw [if_pos ⟨hfname, horderly.apart n s hcrond⟩] at htab
    exact (beq_iff_eq.mp htab).symm
  · obtain ⟨name, -, hname'⟩ := List.mem_filterMap.mp hspool
    split at hname'
    · cases hname'
    · obtain ⟨tabname, -, rfl⟩ := Option.map_eq_some_iff.mp hname'
      cases hfname

/-- **The database is what is on the disk.** In every run over a disk
that is orderly, whatever is added, removed or changed between the looks:
when crond loads its tables, it has what it would have if it read all of
them afresh; unless there is a system crontab, the first system table of
the old database is another one, and both files have the same time stamp.
Then the other table is taken for the system crontab. -/
theorem reload_fresh_iff (horderly : Orderly c disk) (n : Nat)
    (hload : ((dbAt c disk n).load c (disk n)).2 = true) :
    (dbAt c disk (n + 1)).users = freshUsers c (disk n)
      ↔ ∀ u, ((disk n).stat c.syscrontab).getD 0 ≠ 0 →
        findUser (dbAt c disk n).users systemName none = some u →
        (systemSource c).mtime c (disk n) = some u.mtime →
        u.tabname = c.syscrontab := by
  have hdirs := dirs_current horderly n
  have horigin : ∀ u ∈ (dbAt c disk n).users,
      ∃ i, ∃ s ∈ sources c (disk i), s.fresh c (disk i) = some u :=
    fun u hu => origin hu
  have hdb : (dbAt c disk (n + 1)).users
      = (processAll c (disk n) (sources c (disk n))
          ([], (dbAt c disk n).users)).1 := by
    show ((dbAt c disk n).load c (disk n)).1.users = _
    unfold CronDb.load at hload ⊢
    split at hload
    · cases hload
    · next hne =>
      rw [if_neg hne]
      exact reloadUsers_eq c (disk n) _
  rw [hdb]
  unfold freshUsers sources systemSources
  generalize hdir : crondSources c (disk n) ++ spoolSources c (disk n) = dirs
    at hdirs ⊢
  generalize (dbAt c disk n).users = old at hdirs horigin ⊢
  by_cases hstat : ((disk n).stat c.syscrontab).getD 0 ≠ 0
  · rw [if_pos hstat]
    have hkey : (systemSource c).key c = none := by
      unfold Source.key systemSource
      rw [if_neg (by simp)]
    have hafter : ∀ first old', old'.Sublist old →
        (processAll c (disk n) dirs (first, old')).1
          = first ++ dirs.filterMap (Source.fresh c (disk n)) := by
      intro first old' hsub
      obtain ⟨old'', hall, -⟩ := @processAll_fresh α c (disk n) first old'
        dirs fun s hs => (hdirs s hs).sublist hsub
      rw [hall]
    have hsplit : (processAll c (disk n) ([systemSource c] ++ dirs)
        ([], old)).1 = (processAll c (disk n) dirs
          ((systemSource c).process c (disk n) ([], old))).1 := rfl
    rw [hsplit, List.filterMap_append]
    have hone : [systemSource c].filterMap (Source.fresh c (disk n))
        = ((systemSource c).fresh c (disk n)).toList := by
      cases hfresh : (systemSource c).fresh c (disk n) with
      | none => rw [List.filterMap_cons_none hfresh]; rfl
      | some u => rw [List.filterMap_cons_some hfresh]; rfl
    rw [hone]
    constructor
    · -- what is used again instead is not read of its file
      intro heq u _ hfound hmtime
      have hfound : findUser old (systemSource c).name none = some u := hfound
      rw [process_eq, hmtime, hkey, Option.elim_some, hfound,
        Option.elim_some, if_pos rfl, List.nil_append,
        hafter [u] (unlinkUser old (systemSource c).name none)
          List.eraseP_sublist] at heq
      have hsame := List.append_cancel_right heq
      have hfresh : (systemSource c).fresh c (disk n) = some u := by
        rw [← Option.mem_toList, ← hsame]
        exact List.mem_singleton_self u
      exact (fresh_eq_some.mp hfresh).2.1
    · intro hfirst
      obtain ⟨old', hstep, hsub⟩ :=
        @process_fresh α c (disk n) (systemSource c) [] old (by
          intro u hfound hmtime
          rw [hkey] at hfound
          have hu := List.mem_of_find?_eq_some hfound
          have hmatch := List.find?_some hfound
          unfold CachedUser.is at hmatch
          rw [Bool.and_eq_true, beq_iff_eq] at hmatch
          exact fresh_of_origin horderly (mem_sources_system hstat)
            (horigin u hu) hmatch.1
            (fun _ => hfirst u hstat hfound hmtime) hmtime)
      rw [hstep, hafter _ _ hsub, List.nil_append]
  · rw [if_neg hstat, List.nil_append]
    refine ⟨fun _ u h => absurd h hstat, fun _ => ?_⟩
    obtain ⟨old', hall, -⟩ := @processAll_fresh α c (disk n) [] old _ hdirs
    rw [hall]
    rfl

end

/-- A machine with its files in the usual places. -/
def etcConf : Conf where
  syscrontab := CString.ofString "/etc/crontab"
  sysCrondDir := CString.ofString "/etc/cron.d"
  spoolDir := CString.ofString "/var/spool/cron"
  cronHostname := CString.ofString ".cron.hostname"
  permitAnyCrontab := false

/-- A table in the directory, and a system crontab that comes later, of
the same time. What is read of a file is the length of its name. -/
def twoTables (n : Nat) : Disk Nat where
  stat p :=
    if p = etcConf.syscrontab then if n = 0 then none else some 5
    else if p = etcConf.sysCrondDir then some (n + 6)
    else none
  readdir p :=
    if p = etcConf.sysCrondDir then some [CString.ofString "jobs"] else none
  opened _ :=
    some { mtime := 5, isReg := true, mode := 0o600, uid := 0, nlink := 1 }
  getpwnam _ := none
  load _ tabname _ := some tabname.bytes.length

/-- The system crontab is never read: the table of the directory, which
has its time stamp, is there twice. -/
theorem system_crontab_missed :
    (dbAt etcConf twoTables 2).users ≠ freshUsers etcConf (twoTables 1) := by
  have hcrond : ∀ i, crondSources etcConf (twoTables i)
      = [⟨CString.ofString "root", none,
          CString.ofString "/etc/cron.d/jobs"⟩] := by
    intro i
    show crondSources etcConf (twoTables 0) = _
    decide +kernel
  have horderly : Orderly etcConf twoTables := by
    refine ⟨fun i j s _ _ t _ _ => rfl, fun i s hs => ?_, fun _ => rfl⟩
    rw [hcrond i] at hs
    rw [List.mem_singleton.mp hs]
    decide +kernel
  intro heq
  have htab := (reload_fresh_iff horderly 1 (by decide +kernel)).mp heq
    ⟨systemName, CString.ofString "/etc/cron.d/jobs", 5, 16⟩
    (by decide +kernel) (by decide +kernel) (by decide +kernel)
  exact absurd htab (by decide +kernel)

end Tinjac.Crond
