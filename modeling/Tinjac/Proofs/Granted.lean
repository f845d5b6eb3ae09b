/-
Memory to spare: where every allocation request is granted, no function
of the loader fails for lack of memory.

The functions that set up a job's environment fail only when an
allocation does, so under `AllGranted` each of them returns what it is
asked for, and leaves a heap of which the same holds. What is left of
the conditions on a job is then about its text.
-/
import Tinjac.Proofs.Job

namespace Tinjac

open BlockHeap BlockHeap.Heap CHeap

/-- Every allocation request of the run is granted, those that were made
as well as those to come. -/
def AllGranted (h : CHeap) : Prop := ∀ k, h.granted k = true

namespace AllGranted

variable {h : CHeap}

/-- An allocation is granted, and so is the next. -/
theorem alloc (hg : AllGranted h) (b : Block) :
    ∃ p h', h.alloc b = (some p, h') ∧ AllGranted h' := by
  cases ha : h.alloc b with
  | mk r h' =>
      have hgranted := granted_alloc ha
      cases r with
      | none =>
          obtain ⟨-, -, hno⟩ := alloc_none ha
          rw [hg h.asked] at hno
          cases hno
      | some p =>
          refine ⟨p, h', rfl, fun k => ?_⟩
          rw [hgranted]
          exact hg k

/-- What is freed does not change what is granted. -/
theorem freeCell (hg : AllGranted h) (c : Cell) :
    AllGranted (freeCell h c) := by
  cases c with
  | uninit => exact hg
  | null => exact hg
  | ptr a => exact hg

/-- A vector can be made longer. -/
theorem reallocVec (hg : AllGranted h) (p n : Nat) :
    ∃ q h', CHeap.reallocVec h p n = (some q, h') ∧ AllGranted h' := by
  obtain ⟨q, h', halloc, hg'⟩ := hg.alloc (.vec ((vec h p).take n
    ++ List.replicate (n - (vec h p).length) .uninit))
  refine ⟨q, h'.free p, ?_, hg'⟩
  unfold CHeap.reallocVec
  dsimp only
  rw [halloc]

/-- The loop of `env_copy` reaches its end: no `strdup` fails. -/
theorem envCopyLoop (hg : AllGranted h) (envp p n i : Nat) :
    ∃ q h', Tinjac.envCopyLoop h envp p n i = (some q, h')
      ∧ AllGranted h' := by
  induction n generalizing h i with
  | zero => exact ⟨p, _, rfl, hg⟩
  | succ n ih =>
      obtain ⟨a, h1, halloc, hg1⟩ :=
        hg.alloc (.str (strAt h (cell h envp i)))
      have hset : AllGranted (setCell h1 p i (.ptr a)) := hg1
      obtain ⟨q, h2, hloop, hg2⟩ := ih hset (i + 1)
      refine ⟨q, h2, ?_, hg2⟩
      unfold Tinjac.envCopyLoop CHeap.strdup
      rw [halloc]
      exact hloop

/-- So `env_copy` makes its copy. -/
theorem envCopy (hg : AllGranted h) (envp : Nat) :
    ∃ q h', Tinjac.envCopy h envp = (some q, h') ∧ AllGranted h' := by
  obtain ⟨p, h1, halloc, hg1⟩ :=
    hg.alloc (.vec (List.replicate (countCells h envp + 1) .uninit))
  obtain ⟨q, h2, hloop, hg2⟩ :=
    hg1.envCopyLoop envp p (countCells h envp) 0
  refine ⟨q, h2, ?_, hg2⟩
  unfold Tinjac.envCopy CHeap.mallocVec
  dsimp only
  rw [halloc]
  exact hloop

/-- And `env_set` sets a variable, whether it replaces a string or appends
one. -/
theorem envSet (hg : AllGranted h) (envp : Nat) (s : CString) :
    ∃ q h', Tinjac.envSet h envp s = (some q, h') ∧ AllGranted h' := by
  obtain ⟨a, h1, halloc, hg1⟩ := hg.alloc (.str s)
  unfold Tinjac.envSet CHeap.strdup
  dsimp only
  rw [halloc]
  cases envFound h envp s (countCells h envp) with
  | some k =>
      dsimp only
      exact ⟨envp, _, rfl, hg1.freeCell (cell h1 envp k)⟩
  | none =>
      obtain ⟨q, h2, hrealloc, hg2⟩ :=
        hg1.reallocVec envp (countCells h envp + 1 + 1)
      dsimp only
      rw [hrealloc]
      exact ⟨q, _, rfl, hg2⟩

end AllGranted

-- ===================================================== the environment

/-- The fixing-up of an environment is under way and nothing has failed;
what is still to be requested is granted. -/
def EnvState.Fine (s : EnvState) : Prop :=
  s.ecode = .none ∧ AllGranted s.heap

/-- An assignment of `load_entry` that has memory goes well, if its string
fits or not: what does not fit is only logged. -/
theorem EnvState.Fine.setVar {s : EnvState} (hs : s.Fine)
    (name value : List UInt8) (msg : String) :
    (setVar name value msg s).Fine := by
  unfold Tinjac.setVar
  split
  · next envstr hglue =>
    obtain ⟨q, h', hset, hg⟩ := hs.2.envSet s.envp (CString.ofBuf envstr)
    rw [hset]
    exact ⟨hs.1, hg⟩
  · exact hs

/-- So does one that is only made where there is no value. -/
theorem EnvState.Fine.defaultVar {s : EnvState} (hs : s.Fine)
    (name value : List UInt8) (msg : String) :
    (defaultVar name value msg s).Fine := by
  unfold Tinjac.defaultVar
  split
  · exact hs.setVar name value msg
  · exact hs

/-- The assignments go well one after the other. -/
theorem EnvState.Fine.andThen {s : EnvState} (hs : s.Fine)
    {k : EnvState → EnvState} (hk : (k s).Fine) : (s.andThen k).Fine := by
  unfold EnvState.andThen
  rw [if_pos hs.1]
  exact hk

/-- With memory the environment of a job is built. -/
theorem AllGranted.loadEnv {h : CHeap} (hg : AllGranted h) (envp : Nat)
    (pw : Passwd) (fname : String) :
    ∃ envp' h' log, loadEnv h envp pw fname = (.none, some envp', h', log)
      ∧ AllGranted h' := by
  obtain ⟨p, h1, hcopy, hg1⟩ := hg.envCopy envp
  unfold Tinjac.loadEnv
  rw [hcopy]
  dsimp only
  have h0 : EnvState.Fine
      { ecode := .none, envp := p, heap := h1, log := [] } := ⟨rfl, hg1⟩
  have hshell := h0.defaultVar (bytes "SHELL") pathBshell
    ("ERROR: can't set SHELL in " ++ fname)
  have hhome := hshell.andThen (hshell.defaultVar (bytes "HOME")
    pw.pwDir.bytes ("ERROR: can't set HOME in " ++ fname))
  have hpath := hhome.andThen (hhome.defaultVar (bytes "PATH") pathDefpath
    ("ERROR can't set PATH in " ++ fname))
  have hlogname := hpath.andThen (hpath.setVar (bytes "LOGNAME")
    pw.pwName.bytes ("ERROR can't set LOGNAME in " ++ fname))
  have huser := hlogname.andThen (hlogname.setVar (bytes "USER")
    pw.pwName.bytes ("ERROR can't set USER in " ++ fname))
  rw [huser.1]
  exact ⟨_, _, _, rfl, huser.2⟩

/-- With memory the record is copied, by one request. -/
theorem AllGranted.pwDup {h : CHeap} (hg : AllGranted h) (pw : Passwd) :
    Tinjac.pwDup h pw = (some pw, { h with asked := h.asked + 1 }) := by
  unfold Tinjac.pwDup Heap.request
  dsimp only
  rw [if_pos (hg h.asked)]

/-- A job has the memory it needs. -/
theorem AllGranted.prepareJob {h : CHeap} (hg : AllGranted h) (envp : Nat)
    (pw : Passwd) (fname : String) :
    ∃ envp' h' log, prepareJob h envp pw fname = (.ok envp', h', log)
      ∧ AllGranted h' := by
  have hg1 : AllGranted { h with asked := h.asked + 1 } := hg
  obtain ⟨envp', h', log, henv, hg'⟩ := hg1.loadEnv envp pw fname
  refine ⟨envp', h', log, ?_, hg'⟩
  unfold Tinjac.prepareJob
  rw [hg.pwDup pw]
  dsimp only
  rw [henv]

/-- All that a job asks for between its username and its command is
granted. -/
theorem AllGranted.jobGranted {h : CHeap} (hg : AllGranted h) (envp : Nat)
    (pw : Passwd) (fname : String) : JobGranted h envp pw fname := by
  obtain ⟨envp', h', log, hprep, hg'⟩ := hg.prepareJob envp pw fname
  exact ⟨envp', h', log, hprep, hg' h'.asked⟩

end Tinjac
