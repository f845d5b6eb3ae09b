/-
One run of a job at a time.

A process has locked the file of every job that it still has to do with
(`Phase.held`), and nobody takes a lock away from another; so two runs of
a job never overlap, unless an anacron was killed before.

But a process reads a time stamp before it locks the file. `Launch.Fair`
says what is true of each launch all the same: the time stamp that was
read was not too early, and of what was written to the file since, what
another process wrote when its job had ended was written before the file
was locked.
-/
import Tinjac.Anacron.Model.Main

namespace Tinjac.Anacron

open Interleave

-- ============================================================ the files

/-- What may become of a file while a process has it locked, or not. -/
structure Grows (q : Pid) (f f' : TsFile) : Prop where
  first : f'.first = f.first
  writes : ∃ new, f'.writes = f.writes ++ new
    ∧ (f.owner = some q → f'.owner = some q ∧ ∀ w ∈ new, w.faked = true)

theorem Grows.refl (q : Pid) (f : TsFile) : Grows q f f :=
  ⟨rfl, [], (List.append_nil _).symm, fun h =>
    ⟨h, fun _ hw => (List.not_mem_nil hw).elim⟩⟩

variable {p q : Pid} {files : Files} {i j : CString}

theorem Files.close_ne (h : i ≠ j) : files.close p j i = files i :=
  Function.update_of_ne h _ _

theorem Files.lock_ne (h : i ≠ j) : files.lock p j i = files i :=
  Function.update_of_ne h _ _

theorem Files.write_ne {w : Write} (h : i ≠ j) :
    files.write j w i = files i :=
  Function.update_of_ne h _ _

/-- Only its own locks does a process give up. -/
theorem Grows.unlocked (hq : q ≠ p) (f : TsFile) :
    Grows q f { f with
      owner := if f.owner = some p then none else f.owner } := by
  refine ⟨rfl, [], (List.append_nil _).symm, fun h =>
    ⟨?_, fun w hw => (List.not_mem_nil hw).elim⟩⟩
  show (if f.owner = some p then none else f.owner) = some q
  rw [h, if_neg (by simpa using hq)]

theorem Grows.close (hq : q ≠ p) (files : Files) (j i : CString) :
    Grows q (files i) (files.close p j i) := by
  by_cases hi : i = j
  · rw [hi]
    unfold Files.close
    rw [Function.update_self]
    exact Grows.unlocked hq _
  · rw [Files.close_ne hi]
    exact Grows.refl q _

theorem Grows.release (hq : q ≠ p) (files : Files) (i : CString) :
    Grows q (files i) (files.release p i) :=
  Grows.unlocked hq _

/-- What is free for one process is no other's. -/
theorem Grows.lock (hq : q ≠ p)
    (hfree : (files j).owner = none ∨ (files j).owner = some p)
    (i : CString) : Grows q (files i) (files.lock p j i) := by
  by_cases hi : i = j
  · rw [hi]
    unfold Files.lock
    rw [Function.update_self]
    refine ⟨rfl, [], (List.append_nil _).symm, fun h => ?_⟩
    rcases hfree with hnone | hp
    · rw [h] at hnone
      cases hnone
    · rw [h] at hp
      injection hp with hp
      exact absurd hp hq
  · rw [Files.lock_ne hi]
    exact Grows.refl q _

/-- A date is written by `-u`, or by the process that has the lock. -/
theorem Grows.write_close (hq : q ≠ p) {w : Write}
    (hw : w.faked = true ∨ (files j).owner = some p) (i : CString) :
    Grows q (files i) ((files.write j w).close p j i) := by
  by_cases hi : i = j
  · rw [hi]
    unfold Files.close Files.write
    rw [Function.update_self, Function.update_self]
    refine ⟨rfl, [w], rfl, fun h => ⟨?_, fun w' hw' => ?_⟩⟩
    · show (if (files j).owner = some p then none else (files j).owner)
        = some q
      rw [h, if_neg (by simpa using hq)]
    · rw [List.mem_singleton.mp hw']
      rcases hw with hw | hw
      · exact hw
      · rw [h] at hw
        injection hw with hw
        exact absurd hw hq
  · rw [Files.close_ne hi, Files.write_ne hi]
    exact Grows.refl q _

-- ======================================================== what is taken

/-- A job was not too early, by what was in the file when it was read. -/
structure Taken.Seen (opts : Options) (date : Date) (t : Taken)
    (f : TsFile) : Prop where
  due : tooEarly opts.force date.dayNum t.clock t.job t.seen = false
  seen : t.seen = (f.bytesAt t.atRead).take 8
  read : t.atRead ≤ f.writes.length

/-- And since the file was locked nothing was written to it, but by
`-u`. -/
structure Taken.Fair (opts : Options) (date : Date) (t : Taken)
    (f : TsFile) : Prop extends t.Seen opts date f where
  before : t.atRead ≤ t.atLock
  locked : t.atLock ≤ f.writes.length
  faked : ∀ w ∈ f.writes.drop t.atLock, w.faked = true

variable {opts : Options} {date : Date} {t : Taken} {f f' : TsFile}

theorem Taken.Seen.grows (h : t.Seen opts date f) (hg : Grows q f f') :
    t.Seen opts date f' := by
  obtain ⟨new, hnew, -⟩ := hg.writes
  refine ⟨h.due, ?_, ?_⟩
  · rw [h.seen]
    unfold TsFile.bytesAt
    rw [hnew, hg.first, List.take_append_of_le_length h.read]
  · rw [hnew, List.length_append]
    exact Nat.le_add_right_of_le h.read

theorem Taken.Fair.grows (h : t.Fair opts date f) (hg : Grows q f f')
    (howner : f.owner = some q) : t.Fair opts date f' := by
  obtain ⟨new, hnew, hlocked⟩ := hg.writes
  refine ⟨h.toSeen.grows hg, h.before, ?_, fun w hw => ?_⟩
  · rw [hnew, List.length_append]
    exact Nat.le_add_right_of_le h.locked
  · rw [hnew, List.drop_append] at hw
    rcases List.mem_append.mp hw with hw | hw
    · exact h.faked w hw
    · exact (hlocked howner).2 w (List.mem_of_mem_drop hw)

-- ======================================================== the invariant

/-- The jobs that a process has locked and not yet given up: those it has
taken, those it is to launch, and those that are running. -/
def Phase.held : Phase → List Taken
  | .arranging _ taken => taken
  | .locking _ _ taken => taken
  | .running todo jobs => todo ++ jobs
  | .faking _ => []

/-- The jobs it may still lock: the rest of its table, and the one it has
just found due. -/
def Phase.ahead : Phase → List JobRec
  | .arranging todo _ => todo
  | .locking t todo _ => t.job :: todo
  | .running _ _ => []
  | .faking _ => []

/-- The names of the files that a process deals with. -/
def Phase.idents (ph : Phase) : List CString :=
  ph.held.map (·.job.ident) ++ ph.ahead.map (·.ident)

/-- What is true of a process at any time: the names it deals with differ,
it owns the files of the jobs that it holds, and each of these was due by
a stamp that nobody but `-u` has overwritten since the file was locked. -/
structure Proc.Sound (p : Pid) (m : Proc) (files : Files) : Prop where
  idents : m.phase.idents.Nodup
  owned : ∀ t ∈ m.phase.held, (files t.job.ident).owner = some p
  fair : ∀ t ∈ m.phase.held, t.Fair m.opts m.date (files t.job.ident)
  locking : ∀ t todo taken, m.phase = .locking t todo taken →
    t.Seen m.opts m.date (files t.job.ident)

/-- The invariant of a process, if there is one for that pid. -/
def Sound (p : Pid) (o : Option Proc) (g : Spool) : Prop :=
  ∀ m, o = some m → m.Sound p g.files

/-- What the others may do to the files, seen from the process `q`:
nothing but `-u` writes to a file that it has locked. -/
def Rely (q : Pid) (g g' : Spool) : Prop :=
  ∀ i, Grows q (g.files i) (g'.files i)

theorem Rely.refl (q : Pid) (g : Spool) : Rely q g g := fun _ =>
  Grows.refl q _

theorem Sound.stable {o : Option Proc} {g g' : Spool} (h : Sound q o g)
    (hr : Rely q g g') : Sound q o g' := by
  intro m hm
  have hs := h m hm
  refine ⟨hs.idents, fun t ht => ?_, fun t ht => ?_, fun t todo taken ht => ?_⟩
  · obtain ⟨new, -, hlocked⟩ := (hr t.job.ident).writes
    exact (hlocked (hs.owned t ht)).1
  · exact (hs.fair t ht).grows (hr _) (hs.owned t ht)
  · exact (hs.locking t todo taken ht).grows (hr _)

/-- A process that goes on with some of what it had locked, and has not
touched the files of those. -/
theorem Proc.Sound.less {m : Proc} {ph : Phase} {files' : Files}
    (h : m.Sound p files) (hids : ph.idents.Nodup)
    (hheld : ∀ t ∈ ph.held, t ∈ m.phase.held)
    (hfiles : ∀ t ∈ ph.held, files' t.job.ident = files t.job.ident)
    (hlock : ∀ t todo taken, ph = .locking t todo taken →
      t.Seen m.opts m.date (files' t.job.ident)) :
    Proc.Sound p { m with phase := ph } files' := by
  refine ⟨hids, fun t ht => ?_, fun t ht => ?_, hlock⟩
  · rw [hfiles t ht]
    exact h.owned t (hheld t ht)
  · rw [hfiles t ht]
    exact h.fair t (hheld t ht)

/-- The file of a job that is ahead is none of those that are held. -/
theorem Phase.ne_of_ahead {ph : Phase} (h : ph.idents.Nodup) {t : Taken}
    (ht : t ∈ ph.held) {j : JobRec} (hj : j ∈ ph.ahead) :
    t.job.ident ≠ j.ident := by
  unfold Phase.idents at h
  exact (List.nodup_append.mp h).2.2 _ (List.mem_map_of_mem ht) _
    (List.mem_map_of_mem hj)

/-- A job that is left out, and whose file is closed. -/
theorem Proc.Sound.skip {m : Proc} {j : JobRec} {todo : List JobRec}
    (h : m.Sound p files) (hahead : m.phase.ahead = j :: todo) :
    Proc.Sound p { m with phase := .arranging todo m.phase.held }
      (files.close p j.ident) := by
  have hids := h.idents
  refine h.less ?_ (fun _ ht => ht) (fun t ht => Files.close_ne ?_)
    (fun _ _ _ h => by cases h)
  · unfold Phase.idents at hids
    rw [hahead] at hids
    exact hids.sublist
      (List.Sublist.append_left (List.sublist_cons_self _ _) _)
  · refine Phase.ne_of_ahead hids ht ?_
    rw [hahead]
    exact List.mem_cons_self

/-- The names of the files of the jobs that are held differ. -/
theorem Proc.Sound.held_nodup {m : Proc} (h : m.Sound p files) :
    (m.phase.held.map fun t => t.job.ident).Nodup :=
  (List.nodup_append.mp h.idents).1

/-- A process that is through with its table, and has given up some of
the jobs that it held. -/
theorem Proc.Sound.rest {m : Proc} {ph : Phase} {files' : Files}
    (h : m.Sound p files) (gone : List Taken) (hahead : ph.ahead = [])
    (hperm : (ph.held ++ gone).Perm m.phase.held)
    (hfiles : ∀ t ∈ ph.held, files' t.job.ident = files t.job.ident) :
    Proc.Sound p { m with phase := ph } files' := by
  refine h.less ?_
    (fun t ht => hperm.mem_iff.mp (List.mem_append_left gone ht)) hfiles ?_
  · unfold Phase.idents
    rw [hahead, List.map_nil, List.append_nil]
    have hnodup := (hperm.map fun t => t.job.ident).nodup_iff.mpr h.held_nodup
    rw [List.map_append] at hnodup
    exact (List.nodup_append.mp hnodup).1
  · intro t todo taken hph
    rw [hph] at hahead
    cases hahead

-- ============================================================= the steps

variable {reads : JobRec → Tm → Prop} {m m' : Proc} {g g' : Spool}

/-- What a process at work does to the others. -/
theorem Work.rely (h : Work reads p m g m' g') (hs : m.Sound p g.files)
    (hq : q ≠ p) : Rely q g g' := by
  cases h with
  | early _ _ _ => exact Grows.close hq _ _
  | due _ _ _ => exact Rely.refl q g
  | lock _ free => exact Grows.lock hq free
  | locked _ _ _ => exact Grows.close hq _ _
  | arranged _ => exact Rely.refl q g
  | launch _ _ _ => exact fun _ => Grows.refl q _
  | drop _ _ => exact Rely.refl q g
  | @tend t todo jobs jobs' here =>
      refine Grows.write_close hq (Or.inr (hs.owned t ?_))
      rw [here]
      exact List.mem_append_right _
        (List.mem_append_right _ List.mem_cons_self)

/-- What it does to itself. -/
theorem Work.sound (h : Work reads p m g m' g') (hs : m.Sound p g.files) :
    m'.Sound p g'.files := by
  cases h with
  | @early j todo taken clock here read soon =>
      have hheld : m.phase.held = taken := by rw [here]; rfl
      have hskip := hs.skip
        (show m.phase.ahead = j :: todo by rw [here]; rfl)
      rw [hheld] at hskip
      exact hskip
  | @due j todo taken clock here read soon =>
      have hids := hs.idents
      have hheld : m.phase.held = taken := by rw [here]; rfl
      rw [here] at hids
      refine hs.less hids (fun t ht => by rw [hheld]; exact ht)
        (fun _ _ => rfl) ?_
      intro t todo' taken' hph
      cases hph
      exact ⟨soon, rfl, Nat.le_refl _⟩
  | @lock t todo taken here free =>
      have hids := hs.idents
      have hseen := hs.locking t todo taken here
      have hheld : m.phase.held = taken := by rw [here]; rfl
      have hahead : t.job ∈ m.phase.ahead := by
        rw [here]
        exact List.mem_cons_self
      have hne : ∀ u ∈ taken, u.job.ident ≠ t.job.ident := fun u hu =>
        Phase.ne_of_ahead hids (by rw [hheld]; exact hu) hahead
      have hself : g.files.lock p t.job.ident t.job.ident
          = { g.files t.job.ident with owner := some p } :=
        Function.update_self _ _ _
      refine ⟨?_, fun u hu => ?_, fun u hu => ?_, fun _ _ _ h => by cases h⟩
      · rw [here] at hids
        show ((taken ++ [_]).map (fun u : Taken => u.job.ident)
          ++ todo.map (·.ident)).Nodup
        rw [List.map_append, List.append_assoc]
        exact hids
      · rcases List.mem_append.mp hu with hu | hu
        · show (g.files.lock p t.job.ident u.job.ident).owner = some p
          rw [Files.lock_ne (hne u hu)]
          exact hs.owned u (by rw [hheld]; exact hu)
        · rw [List.mem_singleton.mp hu]
          show (g.files.lock p t.job.ident t.job.ident).owner = some p
          rw [hself]
      · rcases List.mem_append.mp hu with hu | hu
        · show u.Fair m.opts m.date (g.files.lock p t.job.ident u.job.ident)
          rw [Files.lock_ne (hne u hu)]
          exact hs.fair u (by rw [hheld]; exact hu)
        · rw [List.mem_singleton.mp hu]
          show Taken.Fair m.opts m.date _
            (g.files.lock p t.job.ident t.job.ident)
          rw [hself]
          refine ⟨⟨hseen.due, hseen.seen, hseen.read⟩, hseen.read,
            Nat.le_refl _, ?_⟩
          intro w hw
          rw [List.drop_length] at hw
          exact (List.not_mem_nil hw).elim
  | @locked t todo taken q' here held other =>
      have hheld : m.phase.held = taken := by rw [here]; rfl
      have hskip := hs.skip
        (show m.phase.ahead = t.job :: todo by rw [here]; rfl)
      rw [hheld] at hskip
      exact hskip
  | @arranged taken here =>
      refine hs.rest [] rfl ?_ (fun _ _ => rfl)
      rw [here, List.append_nil]
      show (arrange m.opts.now taken ++ []).Perm taken
      rw [List.append_nil]
      exact List.mergeSort_perm _ _
  | @launch t todo jobs here kept alone =>
      refine hs.rest [] rfl ?_ (fun _ _ => rfl)
      rw [here, List.append_nil]
      exact List.perm_middle
  | @drop t todo jobs here dropped =>
      refine hs.rest [t] rfl ?_ (fun _ _ => rfl)
      rw [here]
      exact List.perm_append_comm
  | @tend t todo jobs jobs' here =>
      have hperm : (todo ++ (jobs ++ jobs') ++ [t]).Perm m.phase.held := by
        have hcons : (todo ++ (jobs ++ t :: jobs')).Perm
            (t :: (todo ++ (jobs ++ jobs'))) :=
          (List.perm_middle.append_left todo).trans List.perm_middle
        rw [here]
        exact List.perm_append_comm.trans hcons.symm
      refine hs.rest [t] rfl hperm (fun u hu => ?_)
      -- the other jobs have other files
      have hnodup := (hperm.map fun t => t.job.ident).nodup_iff.mpr
        hs.held_nodup
      rw [List.map_append] at hnodup
      have hne : u.job.ident ≠ t.job.ident :=
        (List.nodup_append.mp hnodup).2.2 _ (List.mem_map_of_mem hu) _
          (List.mem_singleton_self _)
      exact (Files.close_ne hne).trans (Files.write_ne hne)

variable {tables : List JobRec → Prop} {o o' : Option Proc}

/-- What a process does to the others. -/
theorem Turn.rely (h : Turn tables p o g o' g') (hs : Sound p o g)
    (hq : q ≠ p) : Rely q g g' := by
  cases h with
  | start _ _ => exact Rely.refl q g
  | startUpdate _ _ => exact Rely.refl q g
  | work turn => exact turn.rely (hs _ rfl) hq
  | fake _ => exact Grows.write_close hq (Or.inl rfl)
  | usr1 _ => exact Rely.refl q g
  | exit _ => exact Grows.release hq _
  | die => exact Grows.release hq _

/-- What it does to itself. -/
theorem Turn.sound (htables : ∀ tab, tables tab →
      ((selected tab).map (·.ident)).Nodup)
    (h : Turn tables p o g o' g') (hs : Sound p o g) : Sound p o' g' := by
  intro m' hm'
  cases h with
  | @start g opts date hour tab table valid =>
      cases hm'
      exact ⟨htables tab table, fun _ ht => (List.not_mem_nil ht).elim,
        fun _ ht => (List.not_mem_nil ht).elim, fun _ _ _ h => by cases h⟩
  | startUpdate table valid =>
      cases hm'
      exact ⟨List.nodup_nil, fun _ ht => (List.not_mem_nil ht).elim,
        fun _ ht => (List.not_mem_nil ht).elim, fun _ _ _ h => by cases h⟩
  | work turn =>
      cases hm'
      exact turn.sound (hs _ rfl)
  | @fake m g j todo here =>
      cases hm'
      exact ⟨List.nodup_nil, fun _ ht => (List.not_mem_nil ht).elim,
        fun _ ht => (List.not_mem_nil ht).elim, fun _ _ _ h => by cases h⟩
  | @usr1 m g todo jobs here =>
      cases hm'
      refine (hs m rfl).rest todo rfl ?_ (fun _ _ => rfl)
      rw [here]
      exact List.perm_append_comm
  | exit _ => cases hm'
  | die => cases hm'

theorem keeps (htables : ∀ tab, tables tab →
      ((selected tab).map (·.ident)).Nodup) :
    Keeps (Turn tables) Sound Rely :=
  { own := fun hs ht => ht.sound htables hs
    guarantee := fun hs ht hq => ht.rely hs hq
    stable := Sound.stable }

theorem Reachable.sound {s : System} (hr : Reachable tables s)
    (htables : ∀ tab, tables tab → ((selected tab).map (·.ident)).Nodup)
    (p : Pid) : Sound p (s.own p) s.shared := by
  obtain ⟨first, hsteps⟩ := hr
  refine (keeps htables).steps ?_ hsteps p
  intro p m hm
  cases hm

end Tinjac.Anacron
