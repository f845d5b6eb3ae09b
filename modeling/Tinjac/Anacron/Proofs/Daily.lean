/-
What `Daily` says of a machine, anacron does.

The invariant of an anacron's run through its table is how far the job
has come (`Stage`): it is still to be considered, or has been taken, or
is running, or there is nothing more to do about it. Each turn of the
anacron keeps it (`Going.work`), so the whole run does, and at its end
the job has been launched and stamped if `Daily` says that it is to be
run that day, and otherwise neither (`Run.result`).

So whatever turns the anacrons of the days take, and whatever else is in
their tables, they launch the job on the days of `RunOn` and leave the
file as `fileOn` says (`Days.simulated`), in a run of the system
(`Days.reachable`).
-/
import Tinjac.Anacron.Model.Daily
import Tinjac.Anacron.Proofs.Runs

namespace Tinjac.Anacron

open Interleave

-- ============================================================ the files

variable {files : Files} {p : Pid} {i k : CString}

/-- A file that was closed reads as before. -/
theorem Files.close_bytes : (files.close p k i).bytes = (files i).bytes := by
  by_cases hi : i = k
  · rw [hi]
    unfold Files.close
    rw [Function.update_self]
    rfl
  · rw [Files.close_ne hi]

/-- So does one that was locked. -/
theorem Files.lock_bytes : (files.lock p k i).bytes = (files i).bytes := by
  by_cases hi : i = k
  · rw [hi]
    unfold Files.lock
    rw [Function.update_self]
    rfl
  · rw [Files.lock_ne hi]

/-- What was written last is in the file. -/
theorem Files.write_bytes {w : Write} :
    (files.write i w i).bytes = stamp w.date := by
  unfold Files.write TsFile.bytes TsFile.bytesAt
  rw [Function.update_self, List.take_length, List.getLast?_concat]

/-- No other process has any of the files locked: each is free, or is the
process's own. -/
def Files.FreeFor (files : Files) (p : Pid) : Prop :=
  ∀ k, (files k).owner = none ∨ (files k).owner = some p

/-- It stays so if the process changes a file and does not leave it to
another. -/
theorem Files.FreeFor.update (h : files.FreeFor p) {f : TsFile}
    (hf : f.owner = none ∨ f.owner = some p) :
    Files.FreeFor (Function.update files k f) p := by
  intro i
  by_cases hi : i = k
  · rw [hi, Function.update_self]
    exact hf
  · rw [Function.update_of_ne hi]
    exact h i

theorem Files.FreeFor.close (h : files.FreeFor p) :
    (files.close p k).FreeFor p := by
  refine h.update ?_
  dsimp only
  rcases h k with hnone | hown
  · exact Or.inl (by rw [hnone]; rfl)
  · exact Or.inl (by rw [hown, if_pos rfl])

theorem Files.FreeFor.lock (h : files.FreeFor p) :
    (files.lock p k).FreeFor p :=
  h.update (Or.inr rfl)

theorem Files.FreeFor.write (h : files.FreeFor p) {w : Write} :
    (files.write k w).FreeFor p :=
  h.update (h k)

/-- When it has ended nobody has a lock. -/
theorem Files.FreeFor.release (h : files.FreeFor p) :
    ((files.release p) i).owner = none := by
  unfold Files.release
  rcases h i with hnone | hown
  · rw [hnone]
    rfl
  · rw [hown, if_pos rfl]

/-- With more times to read a process may do no less. -/
theorem Work.mono {reads reads' : JobRec → Tm → Prop} {m m' : Proc}
    {g g' : Spool} (hw : Work reads p m g m' g')
    (h : ∀ {j t}, reads j t → reads' j t) : Work reads' p m g m' g' := by
  cases hw with
  | early here read soon => exact .early here (h read) soon
  | due here read soon => exact .due here (h read) soon
  | lock here free => exact .lock here free
  | locked here held other => exact .locked here held other
  | arranged here => exact .arranged here
  | launch here kept alone => exact .launch here kept alone
  | drop here dropped => exact .drop here dropped
  | tend here => exact .tend here

-- ========================================================= the launches

/-- When a job of that name was launched, and which. -/
def Spool.launchesOf (g : Spool) (i : CString) : List (Date × JobRec) :=
  (g.launches.filter fun x => decide (x.taken.job.ident = i)).map fun x =>
    (x.date, x.taken.job)

theorem Spool.launched_iff {g : Spool} {d : Date} :
    g.Launched i d ↔ ∃ j, (d, j) ∈ g.launchesOf i := by
  unfold Spool.Launched Spool.launchesOf
  constructor
  · rintro ⟨x, hx, hident, hdate⟩
    refine ⟨x.taken.job, List.mem_map.mpr ⟨x, ?_, by rw [hdate]⟩⟩
    exact List.mem_filter.mpr ⟨hx, decide_eq_true hident⟩
  · rintro ⟨j, hj⟩
    obtain ⟨x, hx, heq⟩ := List.mem_map.mp hj
    obtain ⟨hmem, hident⟩ := List.mem_filter.mp hx
    exact ⟨x, hmem, of_decide_eq_true hident, congrArg Prod.fst heq⟩

namespace Daily

-- ==================================================== how far a job is

variable {j : JobRec} {jobs : List JobRec}

theorem named_cons_of (h : j.ident = i) :
    named i (j :: jobs) = j :: named i jobs :=
  List.filter_cons_of_pos (decide_eq_true h)

theorem named_cons_of_ne (h : j.ident ≠ i) :
    named i (j :: jobs) = named i jobs :=
  List.filter_cons_of_neg (by simpa using h)

theorem named_append {jobs' : List JobRec} :
    named i (jobs ++ jobs') = named i jobs ++ named i jobs' :=
  List.filter_append jobs jobs'

/-- The jobs that a process has still to consider. One whose file it is
about to lock is not among them: it has been found due. -/
def toConsider : Phase → List JobRec
  | .arranging todo _ => todo
  | .locking _ todo _ => todo
  | .running _ _ => []
  | .faking _ => []

/-- The jobs that it has taken and not yet launched, with the one whose
file it is about to lock. -/
def toLaunch : Phase → List JobRec
  | .arranging _ taken => taken.map (·.job)
  | .locking t _ taken => (taken ++ [t]).map (·.job)
  | .running todo _ => todo.map (·.job)
  | .faking _ => []

/-- How far a job has come: what of its name is still to be considered,
taken, and running; and whether it was launched, and its file stamped. -/
inductive Stage (j : JobRec) (early dropped : Bool) :
    List JobRec → List JobRec → List JobRec → Bool → Bool → Prop
  | ahead : Stage j early dropped [j] [] [] false false
  | early (soon : early = true) : Stage j early dropped [] [] [] false false
  | taken (due : early = false) : Stage j early dropped [] [j] [] false false
  | dropped (due : early = false) (drops : dropped = true) :
      Stage j early dropped [] [] [] false false
  | running (due : early = false) (kept : dropped = false) :
      Stage j early dropped [] [] [j] true false
  | ended (due : early = false) (kept : dropped = false) :
      Stage j early dropped [] [] [] true true

variable {j' : JobRec} {e d : Bool} {c l r : List JobRec}
  {launched stamped : Bool}

/-- A job of that name that is to be considered is the job, and nothing
has become of it yet. -/
theorem Stage.considered (h : Stage j e d (j' :: c) l r launched stamped) :
    j' = j ∧ c = [] ∧ l = [] ∧ r = [] ∧ launched = false
      ∧ stamped = false := by
  cases h
  exact ⟨rfl, rfl, rfl, rfl, rfl, rfl⟩

/-- One that is to be launched was not too early. -/
theorem Stage.taken_first (h : Stage j e d c (j' :: l) r launched stamped) :
    j' = j ∧ e = false ∧ c = [] ∧ l = [] ∧ r = [] ∧ launched = false
      ∧ stamped = false := by
  cases h with
  | taken due => exact ⟨rfl, due, rfl, rfl, rfl, rfl, rfl⟩

/-- One that is running was launched. -/
theorem Stage.running_among {r' : List JobRec}
    (h : Stage j e d c l (r ++ j' :: r') launched stamped) :
    j' = j ∧ e = false ∧ d = false ∧ c = [] ∧ l = [] ∧ r = [] ∧ r' = []
      ∧ launched = true ∧ stamped = false := by
  generalize hx : r ++ j' :: r' = x at h
  cases h with
  | running due kept =>
      obtain ⟨rfl, hcons⟩ : r = [] ∧ j' :: r' = [j] := by
        cases r with
        | nil => exact ⟨rfl, hx⟩
        | cons a r =>
            injection hx with _ hx
            exact absurd hx (by simp)
      injection hcons with hj hr
      exact ⟨hj, due, kept, rfl, rfl, rfl, hr, rfl, rfl⟩
  | ahead => exact absurd hx (by simp)
  | early _ => exact absurd hx (by simp)
  | taken _ => exact absurd hx (by simp)
  | dropped _ _ => exact absurd hx (by simp)
  | ended _ _ => exact absurd hx (by simp)

-- ======================================================== the invariant

variable {m : Daily} {n : Nat} {g₀ g g' : Spool} {a a' : Proc}

/-- What there is to see of a stage in the spool directory: the file is
stamped or is as it was, and the launches of that name are those of before
and at most one more. -/
structure Seen (m : Daily) (n : Nat) (g₀ g : Spool)
    (launched stamped : Bool) : Prop where
  bytes : (g.files m.job.ident).bytes
    = if stamped then stamp (m.date n) else (g₀.files m.job.ident).bytes
  launches : g.launchesOf m.job.ident
    = g₀.launchesOf m.job.ident
      ++ if launched then [(m.date n, m.jobOn n)] else []

/-- The anacron of a day at any time, if the day began with `g₀`. -/
structure Going (m : Daily) (n : Nat) (p : Pid) (g₀ : Spool) (a : Proc)
    (g : Spool) : Prop where
  opts : a.opts = m.opts n
  date : a.date = m.date n
  hour : a.hour = m.hour n
  free : g.files.FreeFor p
  stage : ∃ launched stamped,
    Stage (m.jobOn n) (m.early n (g₀.files m.job.ident).bytes) (m.dropped n)
      (named m.job.ident (toConsider a.phase))
      (named m.job.ident (toLaunch a.phase))
      (named m.job.ident (a.phase.jobs.map (·.job))) launched stamped
    ∧ Seen m n g₀ g launched stamped

/-- Nothing more is to be seen. -/
theorem Seen.same (h : Seen m n g₀ g launched stamped)
    (hbytes : (g'.files m.job.ident).bytes = (g.files m.job.ident).bytes)
    (hlaunches : g'.launches = g.launches) :
    Seen m n g₀ g' launched stamped := by
  refine ⟨hbytes.trans h.bytes, ?_⟩
  rw [← h.launches]
  unfold Spool.launchesOf
  rw [hlaunches]

/-- The anacron drops the job on the days on which it is said to be
dropped. -/
theorem Going.drops (h : Going m n p g₀ a g) :
    a.drops (m.jobOn n) = m.dropped n := by
  unfold Daily.dropped Daily.anacron Proc.started Proc.drops
  rw [h.opts, h.hour]

/-- It finds it too early on the days on which it is said to be, as long
as nothing was written. -/
theorem Going.soon (h : Going m n p g₀ a g) {launched : Bool}
    (hseen : Seen m n g₀ g launched false) :
    tooEarly a.opts.force a.date.dayNum (m.clock n) (m.jobOn n)
        (g.files m.job.ident).timestamp
      = m.early n (g₀.files m.job.ident).bytes := by
  unfold Daily.early TsFile.timestamp
  rw [h.opts, h.date, hseen.bytes]
  rfl

/-- A launch of that name is one more. -/
theorem launchesOf_append_of {x : Launch} (h : x.taken.job.ident = i) :
    Spool.launchesOf { g with launches := g.launches ++ [x] } i
      = g.launchesOf i ++ [(x.date, x.taken.job)] := by
  unfold Spool.launchesOf
  have hone : [x].filter (fun x => decide (x.taken.job.ident = i)) = [x] :=
    List.filter_eq_self.mpr fun y hy => by
      rw [List.mem_singleton.mp hy]
      exact decide_eq_true h
  rw [List.filter_append, List.map_append, hone]
  rfl

/-- One of another name is not. -/
theorem launchesOf_append_of_ne {x : Launch} (h : x.taken.job.ident ≠ i) :
    Spool.launchesOf { g with launches := g.launches ++ [x] } i
      = g.launchesOf i := by
  unfold Spool.launchesOf
  have hnone : [x].filter (fun x => decide (x.taken.job.ident = i)) = [] :=
    List.filter_eq_nil_iff.mpr fun y hy => by
      rw [List.mem_singleton.mp hy]
      simpa using h
  rw [List.filter_append, hnone, List.append_nil]

-- ============================================================= the steps

variable {t : Taken} {todo : List JobRec} {taken todo' running running' :
  List Taken}

/-- `consider_job` finds a job too early. -/
theorem Going.early (h : Going m n p g₀ a g) {clock : Tm}
    (here : a.phase = .arranging (j :: todo) taken)
    (read : m.reads n j clock)
    (soon : tooEarly a.opts.force a.date.dayNum clock j
      (g.files j.ident).timestamp = true) :
    Going m n p g₀ { a with phase := .arranging todo taken }
      { g with files := g.files.close p j.ident } := by
  obtain ⟨launched, stamped, hstage, hseen⟩ := h.stage
  rw [here] at hstage
  refine ⟨h.opts, h.date, h.hour, h.free.close, launched, stamped, ?_,
    hseen.same Files.close_bytes rfl⟩
  by_cases hj : j.ident = m.job.ident
  · rw [toConsider, named_cons_of hj] at hstage
    obtain ⟨hjob, htodo, htaken, -, rfl, rfl⟩ := hstage.considered
    rw [read hj, hj, hjob, h.soon hseen] at soon
    show Stage _ _ _ (named _ todo) (named _ (toLaunch (.arranging _ taken)))
      [] _ _
    rw [htodo]
    rw [show toLaunch (.arranging todo taken)
        = toLaunch (.arranging (j :: todo) taken) from rfl, htaken]
    exact .early soon
  · rw [toConsider, named_cons_of_ne hj] at hstage
    exact hstage

/-- `consider_job` does not find it too early, so its file is to be locked
next. If it is the job of that name then it is now among those that are
taken. -/
theorem Going.due (h : Going m n p g₀ a g) {clock : Tm} (t : Taken)
    (here : a.phase = .arranging (t.job :: todo) taken)
    (read : m.reads n t.job clock)
    (soon : tooEarly a.opts.force a.date.dayNum clock t.job
      (g.files t.job.ident).timestamp = false) :
    Going m n p g₀ { a with phase := .locking t todo taken } g := by
  obtain ⟨launched, stamped, hstage, hseen⟩ := h.stage
  rw [here] at hstage
  refine ⟨h.opts, h.date, h.hour, h.free, launched, stamped, ?_, hseen⟩
  show Stage _ _ _ (named _ todo) (named _ ((taken ++ [t]).map (·.job))) [] _ _
  rw [List.map_append, named_append]
  by_cases hj : t.job.ident = m.job.ident
  · rw [toConsider, named_cons_of hj] at hstage
    obtain ⟨hjob, htodo, htaken, -, rfl, rfl⟩ := hstage.considered
    rw [read hj, hj, hjob, h.soon hseen] at soon
    have hnone : named m.job.ident (taken.map (·.job)) = [] := htaken
    have hone : named m.job.ident ([t].map (·.job)) = [m.jobOn n] := by
      rw [List.map_singleton, named_cons_of hj, hjob]
      rfl
    rw [htodo, hnone, hone]
    exact .taken soon
  · rw [toConsider, named_cons_of_ne hj] at hstage
    rw [List.map_singleton, named_cons_of_ne hj]
    show Stage _ _ _ _ (named _ _ ++ []) [] _ _
    rw [List.append_nil]
    exact hstage

/-- The job is launched if it is not dropped. -/
theorem Going.launch (h : Going m n p g₀ a g)
    (here : a.phase = .running (t :: todo') running)
    (kept : a.drops t.job = false) :
    Going m n p g₀ { a with phase := .running todo' (t :: running) }
      { g with
        launches := g.launches ++ [
          { pid := p, opts := a.opts, date := a.date, taken := t
            file := g.files t.job.ident }] } := by
  obtain ⟨launched, stamped, hstage, hseen⟩ := h.stage
  rw [here] at hstage
  have hstage : Stage _ _ _ [] (named _ (t.job :: todo'.map (·.job)))
    (named _ (running.map (·.job))) launched stamped := hstage
  by_cases hj : t.job.ident = m.job.ident
  · rw [named_cons_of hj] at hstage
    obtain ⟨hjob, hdue, -, htodo, hrunning, rfl, rfl⟩ := hstage.taken_first
    rw [hjob, h.drops] at kept
    refine ⟨h.opts, h.date, h.hour, h.free, true, false, ?_, hseen.bytes, ?_⟩
    · show Stage _ _ _ [] (named _ (todo'.map (·.job)))
        (named _ (t.job :: running.map (·.job))) _ _
      rw [named_cons_of hj, htodo, hrunning, hjob]
      exact .running hdue kept
    · rw [launchesOf_append_of hj, hseen.launches, hjob, h.date]
      show (_ ++ []) ++ _ = _
      rw [List.append_nil]
      rfl
  · rw [named_cons_of_ne hj] at hstage
    refine ⟨h.opts, h.date, h.hour, h.free, launched, stamped, ?_,
      hseen.bytes, ?_⟩
    · show Stage _ _ _ [] (named _ (todo'.map (·.job)))
        (named _ (t.job :: running.map (·.job))) _ _
      rw [named_cons_of_ne hj]
      exact hstage
    · rw [launchesOf_append_of_ne hj]
      exact hseen.launches

/-- `explain_intentions` drops a job: nothing more is done about it, and
it is neither launched nor stamped. -/
theorem Going.drop (h : Going m n p g₀ a g)
    (here : a.phase = .running (t :: todo') running)
    (dropped : a.drops t.job = true) :
    Going m n p g₀ { a with phase := .running todo' running } g := by
  obtain ⟨launched, stamped, hstage, hseen⟩ := h.stage
  rw [here] at hstage
  have hstage : Stage _ _ _ [] (named _ (t.job :: todo'.map (·.job)))
    (named _ (running.map (·.job))) launched stamped := hstage
  refine ⟨h.opts, h.date, h.hour, h.free, launched, stamped, ?_, hseen⟩
  show Stage _ _ _ [] (named _ (todo'.map (·.job)))
    (named _ (running.map (·.job))) _ _
  by_cases hj : t.job.ident = m.job.ident
  · rw [named_cons_of hj] at hstage
    obtain ⟨hjob, hdue, -, htodo, hrunning, rfl, rfl⟩ := hstage.taken_first
    rw [hjob, h.drops] at dropped
    rw [htodo, hrunning]
    exact .dropped hdue dropped
  · rw [named_cons_of_ne hj] at hstage
    exact hstage

/-- When the job ends its file is stamped. -/
theorem Going.tend (h : Going m n p g₀ a g)
    (here : a.phase = .running todo' (running ++ t :: running')) :
    Going m n p g₀ { a with phase := .running todo' (running ++ running') }
      { g with
        files := (g.files.write t.job.ident
          { date := a.date, faked := false }).close p t.job.ident } := by
  obtain ⟨launched, stamped, hstage, hseen⟩ := h.stage
  rw [here] at hstage
  have hstage : Stage _ _ _ [] (named _ (todo'.map (·.job)))
      (named _ ((running ++ t :: running').map (·.job))) launched stamped :=
    hstage
  rw [List.map_append, named_append, List.map_cons] at hstage
  have hview : named m.job.ident ((running ++ running').map (·.job))
      = named m.job.ident (running.map (·.job))
        ++ named m.job.ident (running'.map (·.job)) := by
    rw [List.map_append, named_append]
  by_cases hj : t.job.ident = m.job.ident
  · rw [named_cons_of hj] at hstage
    obtain ⟨-, hdue, hkept, -, htodo, hbefore, hbehind, rfl, rfl⟩ :=
      hstage.running_among
    refine ⟨h.opts, h.date, h.hour, h.free.write.close, true, true, ?_, ?_,
      hseen.launches⟩
    · show Stage _ _ _ [] (named _ (todo'.map (·.job)))
        (named _ ((running ++ running').map (·.job))) _ _
      rw [hview, htodo, hbefore, hbehind]
      exact .ended hdue hkept
    · rw [Files.close_bytes, hj, Files.write_bytes, h.date]
      rfl
  · rw [named_cons_of_ne hj] at hstage
    refine ⟨h.opts, h.date, h.hour, h.free.write.close, launched, stamped,
      ?_, hseen.same ?_ rfl⟩
    · show Stage _ _ _ [] (named _ (todo'.map (·.job)))
        (named _ ((running ++ running').map (·.job))) _ _
      rw [hview]
      exact hstage
    · rw [Files.close_bytes, Files.write_ne (Ne.symm hj)]

/-- **The invariant.** Whatever turn an anacron takes on its own, it knows
as much of the job as before: one case for each kind of turn. -/
theorem Going.work (h : Going m n p g₀ a g)
    (hw : Work (m.reads n) p a g a' g') : Going m n p g₀ a' g' := by
  cases hw with
  | early here read soon => exact h.early here read soon
  | due here read soon => exact h.due _ here read soon
  | launch here kept _ => exact h.launch here kept
  | drop here dropped => exact h.drop here dropped
  | tend here => exact h.tend here
  | @lock t todo taken here free =>
      obtain ⟨launched, stamped, hstage, hseen⟩ := h.stage
      rw [here] at hstage
      refine ⟨h.opts, h.date, h.hour, h.free.lock, launched, stamped, ?_,
        hseen.same Files.lock_bytes rfl⟩
      -- the job is taken as it was
      show Stage _ _ _ _ (named _ ((taken ++ [_]).map Taken.job)) _ _ _
      rw [List.map_append, List.map_singleton]
      have hstage : Stage _ _ _ (named _ todo)
        (named _ ((taken ++ [t]).map (·.job))) [] launched stamped := hstage
      rw [List.map_append, List.map_singleton] at hstage
      exact hstage
  | @locked t todo taken q here held other =>
      -- nobody else is about
      rcases h.free t.job.ident with hnone | hown
      · rw [held] at hnone
        cases hnone
      · rw [held] at hown
        injection hown with hown
        exact absurd hown other
  | @arranged taken here =>
      obtain ⟨launched, stamped, hstage, hseen⟩ := h.stage
      rw [here] at hstage
      refine ⟨h.opts, h.date, h.hour, h.free, launched, stamped, ?_, hseen⟩
      have hperm : (named m.job.ident
            ((arrange a.opts.now taken).map (·.job))).Perm
          (named m.job.ident (taken.map (·.job))) :=
        ((List.mergeSort_perm _ _).map _).filter _
      have hstage : Stage _ _ _ [] (named _ (taken.map (·.job))) [] launched
        stamped := hstage
      show Stage _ _ _ [] (named _ ((arrange _ taken).map (·.job))) [] _ _
      generalize named m.job.ident (taken.map (·.job)) = l at hstage hperm
      -- there is at most one to be sorted
      have hsame : named m.job.ident
          ((arrange a.opts.now taken).map (·.job)) = l := by
        cases hstage with
        | early _ => exact hperm.eq_nil
        | taken _ => exact hperm.eq_singleton
        | dropped _ _ => exact hperm.eq_nil
        | ended _ _ => exact hperm.eq_nil
      rw [hsame]
      exact hstage

-- =============================================================== a day

/-- And so all through its run. -/
theorem Going.works (h : Going m n p g₀ a g)
    (hw : Relation.ReflTransGen
      (fun x x' : Proc × Spool => Work (m.reads n) p x.1 x.2 x'.1 x'.2)
      (a, g) (a', g')) : Going m n p g₀ a' g' := by
  generalize hx : (a', g') = x at hw
  induction hw generalizing a' g' with
  | refl =>
      cases hx
      exact h
  | @tail b c _ hlast ih =>
      cases hx
      exact (ih rfl).work hlast

/-- It starts with the job ahead of it. -/
theorem Going.start {tab : List JobRec}
    (listed : named m.job.ident (selected tab) = [m.jobOn n])
    (hfree : ∀ k, (g.files k).owner = none) :
    Going m n p g (m.anacron n tab) g := by
  refine ⟨rfl, rfl, rfl, fun k => Or.inl (hfree k), false, false, ?_, rfl,
    (List.append_nil _).symm⟩
  show Stage _ _ _ (named _ (selected tab)) [] [] _ _
  rw [listed]
  exact .ahead

variable {tables : List JobRec → Prop}

/-- **A day.** An anacron that finds what is said to be in the file
leaves what is said to be in it on the next day, and has launched the
job if it is said to be run. -/
theorem Run.result (h : Run tables m n g g') (hsince : m.since ≤ n)
    (hfree : ∀ k, (g.files k).owner = none)
    (hfile : (g.files m.job.ident).bytes = m.fileOn n) :
    (∀ k, (g'.files k).owner = none)
      ∧ (g'.files m.job.ident).bytes = m.fileOn (n + 1)
      ∧ g'.launchesOf m.job.ident = g.launchesOf m.job.ident
        ++ if m.RunOn n then [(m.date n, m.jobOn n)] else [] := by
  cases h with
  | @run p tab a g' table listed valid works through =>
      have hgoing := (Going.start (p := p) listed hfree).works works
      obtain ⟨launched, stamped, hstage, hbytes, hlaunches⟩ := hgoing.stage
      rw [through, hfile] at hstage
      rw [hfile] at hbytes
      have hstage : Stage _ _ _ [] [] [] launched stamped := hstage
      have hnext : m.fileOn (n + 1)
          = if m.RunOn n then stamp (m.date n) else m.fileOn n := rfl
      -- at its end it was launched and stamped, or neither
      have hboth : launched = decide (m.RunOn n)
          ∧ stamped = decide (m.RunOn n) := by
        unfold RunOn
        cases hstage with
        | early soon => simp [soon]
        | dropped due drops => simp [drops]
        | ended due kept => simp [hsince, due, kept]
      obtain ⟨rfl, rfl⟩ := hboth
      refine ⟨fun k => hgoing.free.release, ?_, ?_⟩
      · rw [hnext]
        show (g'.files m.job.ident).bytes = _
        simpa using hbytes
      · show g'.launchesOf m.job.ident = _
        simpa using hlaunches

/-- The anacron of a day is a run of the system. -/
theorem Run.steps (h : Run tables m n g g') :
    Steps (Turn tables) { own := fun _ => none, shared := g }
      { own := fun _ => none, shared := g' } := by
  cases h with
  | @run p tab a g' table listed valid works through =>
      have hstart := Relation.ReflTransGen.single
        (r := fun x x' : Option Proc × Spool =>
          Turn tables p x.1 x.2 x'.1 x'.2)
        (a := (none, g)) (b := (some (m.anacron n tab), g))
        (.start table valid)
      have hworks := works.lift
        (p := fun x x' : Option Proc × Spool =>
          Turn tables p x.1 x.2 x'.1 x'.2)
        (fun x : Proc × Spool => (some x.1, x.2))
        fun x x' hw => .work (hw.mono fun _ => trivial)
      have hall := (hstart.trans hworks).tail
        (c := (none, { g' with files := g'.files.release p }))
        (.exit (Or.inl through))
      have hsteps := Steps.solo
        (s := { own := fun _ => none, shared := g }) hall
      rw [show Function.update (fun _ => none) p none
        = fun _ => (none : Option Proc) from Function.update_eq_self _ _]
        at hsteps
      exact hsteps

-- ============================================================ the days

/-- **Day by day.** Whatever the anacrons of so many days do, in the file
of the job is what is said to be in it, and they have launched it on the
days on which it is said to be run. -/
theorem Days.simulated (h : Days tables m n g) :
    (∀ k, (g.files k).owner = none)
      ∧ (g.files m.job.ident).bytes = m.fileOn n
      ∧ g.launchesOf m.job.ident
        = ((List.range n).filter fun k => decide (m.RunOn k)).map fun k =>
          (m.date k, m.jobOn k) := by
  have hdays : ∀ n, ((List.range (n + 1)).filter fun k => decide (m.RunOn k))
      = ((List.range n).filter fun k => decide (m.RunOn k))
        ++ if m.RunOn n then [n] else [] := by
    intro n
    rw [List.range_succ, List.filter_append]
    congr 1
    by_cases hrun : m.RunOn n
    · simp [hrun]
    · simp [hrun]
  induction h with
  | fresh file => exact ⟨fun _ => rfl, file, rfl⟩
  | @before n g _ early ih =>
      obtain ⟨hfree, hfile, hlaunches⟩ := ih
      have hno : ¬ m.RunOn n := fun hrun => by
        have hsince := hrun.1
        omega
      refine ⟨hfree, ?_, ?_⟩
      · rw [hfile]
        exact (if_neg hno).symm
      · rw [hlaunches, hdays, if_neg hno, List.append_nil]
  | @day n g g' _ since run ih =>
      obtain ⟨hfree, hfile, hlaunches⟩ := ih
      obtain ⟨hfree', hfile', hlaunches'⟩ := run.result since hfree hfile
      refine ⟨hfree', hfile', ?_⟩
      rw [hlaunches', hlaunches, hdays, List.map_append]
      congr 1
      by_cases hrun : m.RunOn n
      · rw [if_pos hrun, if_pos hrun]
        rfl
      · rw [if_neg hrun, if_neg hrun]
        rfl

/-- They are days of the system: no anacron is left at the end. -/
theorem Days.reachable (h : Days tables m n g) :
    Reachable tables { own := fun _ => none, shared := g } := by
  induction h with
  | @fresh first _ => exact ⟨first, Relation.ReflTransGen.refl⟩
  | before _ _ ih => exact ih
  | day _ _ run ih =>
      obtain ⟨first, hsteps⟩ := ih
      exact ⟨first, hsteps.trans run.steps⟩

/-- The job was launched on the days on which it is said to be run. -/
theorem Days.launched_iff (h : Days tables m n g) {d : Date} :
    g.Launched m.job.ident d ↔ ∃ k, k < n ∧ m.RunOn k ∧ m.date k = d := by
  rw [Spool.launched_iff, h.simulated.2.2]
  constructor
  · rintro ⟨j, hj⟩
    obtain ⟨k, hk, heq⟩ := List.mem_map.mp hj
    obtain ⟨hrange, hrun⟩ := List.mem_filter.mp hk
    exact ⟨k, List.mem_range.mp hrange, of_decide_eq_true hrun,
      congrArg Prod.fst heq⟩
  · rintro ⟨k, hk, hrun, hdate⟩
    refine ⟨m.jobOn k, List.mem_map.mpr ⟨k, ?_, by rw [hdate]⟩⟩
    exact List.mem_filter.mpr ⟨List.mem_range.mpr hk, decide_eq_true hrun⟩

-- ================================================= there are such days

/-- An anacron with a table of the job alone gets to its end. -/
theorem exists_run (table : tables [m.jobOn n])
    (asked : m.job.argNum ≠ -1) (valid : (m.date n).dayNum ≠ -1)
    (hfree : (g.files m.job.ident).owner = none) :
    ∃ g', Run tables m n g g' := by
  have hselected : selected [m.jobOn n] = [m.jobOn n] :=
    List.filter_eq_self.mpr fun j hj => by
      rw [List.mem_singleton.mp hj]
      exact decide_eq_true asked
  have hlisted : named m.job.ident (selected [m.jobOn n]) = [m.jobOn n] := by
    rw [hselected]
    exact named_cons_of rfl
  have hbegin : m.anacron n [m.jobOn n]
      = { opts := m.opts n, date := m.date n, hour := m.hour n
          phase := .arranging [m.jobOn n] [] } := by
    unfold anacron Proc.started
    rw [hselected]
  have hone : ∀ t, Phase.running (arrange (m.opts n).now [t]) []
      = .running [t] [] := fun t =>
    congrArg (Phase.running · []) (List.mergeSort_singleton t)
  have hrun := @Relation.ReflTransGen.refl (Proc × Spool)
    (fun x x' => Work (m.reads n) 0 x.1 x.2 x'.1 x'.2)
    (m.anacron n [m.jobOn n], g)
  cases hearly : tooEarly (m.opts n).force (m.date n).dayNum (m.clock n)
      (m.jobOn n) (g.files m.job.ident).timestamp with
  | true =>
      have hrun := hrun.tail (c := (_, _)) (@Work.early _ 0 _ g _ [] []
        (m.clock n) (congrArg Proc.phase hbegin) (fun _ => rfl) hearly)
      have hrun := hrun.tail (c := (_, _)) (.arranged rfl)
      exact ⟨_, .run table hlisted valid hrun
        (congrArg (Phase.running · []) List.mergeSort_nil)⟩
  | false =>
      have hrun := hrun.tail (c := (_, _)) (@Work.due _ 0 _ g _ [] []
        (m.clock n) (congrArg Proc.phase hbegin) (fun _ => rfl) hearly)
      have hrun := hrun.tail (c := (_, _)) (.lock rfl (Or.inl hfree))
      have hrun := hrun.tail (c := (_, _)) (.arranged rfl)
      cases hdropped : m.dropped n with
      | true =>
          have hrun := hrun.tail (c := (_, _)) (@Work.drop _ _ _ _ _ [] []
            (hone _) hdropped)
          exact ⟨_, .run table hlisted valid hrun rfl⟩
      | false =>
          have hrun := hrun.tail (c := (_, _)) (@Work.launch _ _ _ _ _ [] []
            (hone _) hdropped fun _ => rfl)
          have hrun := hrun.tail (c := (_, _)) (@Work.tend _ _ _ _ _ [] []
            [] rfl)
          exact ⟨_, .run table hlisted valid hrun rfl⟩

/-- So there are so many days, if their dates are valid. -/
theorem exists_days (table : ∀ k, tables [m.jobOn k])
    (asked : m.job.argNum ≠ -1)
    (valid : ∀ k < n, m.since ≤ k → (m.date k).dayNum ≠ -1) :
    ∃ g, Days tables m n g := by
  induction n with
  | zero => exact ⟨_, @Days.fresh tables m (fun _ => m.first) rfl⟩
  | succ n ih =>
      obtain ⟨g, hdays⟩ := ih fun k hk => valid k (Nat.lt_succ_of_lt hk)
      by_cases hsince : m.since ≤ n
      · obtain ⟨g', hrun⟩ := exists_run (table n) asked
          (valid n (Nat.lt_succ_self n) hsince)
          (hdays.simulated.1 m.job.ident)
        exact ⟨g', .day hdays hsince hrun⟩
      · exact ⟨g, .before hdays (by omega)⟩

end Daily

end Tinjac.Anacron
