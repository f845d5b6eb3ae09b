/-
The environments of a crontab's jobs.

`load_user` keeps one environment, which every setting changes and every
job is given a copy of. The file is followed as a trace of what its
lines were (`UserTrace`): settings, and calls of `load_entry`, which
returned an entry or not. Whatever `malloc` does, the environment kept
reads as the settings so far, and the environment of a job as those
above it, and as the job's own variables (`Loaded`). The vectors of the
jobs share no block with the one that is kept, so that later settings
do not reach them, nor does the last `env_free`.
-/
import Tinjac.Crond.Model.LoadUser
import Tinjac.Crond.Proofs.LoadEnv
import Tinjac.Crond.Proofs.Port
import Tinjac.Crond.Text.Table

namespace Tinjac.Crond

open BlockHeap BlockHeap.Heap CHeap KeyedList

-- ==================================================== what a setting is

namespace EnvScan

/-- No name has an `=` in it. -/
theorem step_name {s s' : EnvScan} (h : s.step = some s')
    (hs : equals ∉ s.name) : equals ∉ s'.name := by
  have hpart : ∀ t : EnvScan, equals ∉ t.name → t.part = some s' →
      equals ∉ s'.name := by
    intro t ht hpart
    unfold part at hpart
    split at hpart
    · cases hpart
    · next ch rest hc =>
      have hstored : ¬ (t.state = .name ∧ ch = equals) →
          equals ∉ (t.store ch).name := by
        intro hnot
        unfold store
        split
        · next hname =>
          rw [List.mem_append, List.mem_singleton, not_or]
          exact ⟨ht, fun h => hnot ⟨hname, h.symm⟩⟩
        · exact ht
      split at hpart
      · split at hpart
        · cases hpart
          exact ht
        · split at hpart
          · cases hpart
            exact ht
          · next hnot =>
            cases hpart
            exact hstored hnot
      · split at hpart
        · cases hpart
          exact ht
        · split at hpart
          · cases hpart
            exact ht
          · next hnot =>
            cases hpart
            exact hstored hnot
  have hopen : s.openQuote.name = s.name := by
    unfold openQuote
    split
    · rfl
    · split
      · rfl
      · rfl
  unfold step at h
  split at h
  · exact hpart _ (by rw [hopen]; exact hs) h
  · exact hpart _ (by rw [hopen]; exact hs) h
  · exact hpart s hs h
  · exact hpart s hs h
  -- nothing is stored around the =
  · split at h
    · cases h
    · split at h
      · cases h
        exact hs
      · split at h
        · cases h
          exact hs
        · cases h
          exact hs
  · split at h
    · cases h
    · split at h
      · cases h
        exact hs
      · cases h
        exact hs
  · split at h
    · cases h
    · split at h
      · cases h
        exact hs
      · cases h
        exact hs
  · cases h

theorem loop_name {s s' : EnvScan} (h : s.loop = some s')
    (hs : equals ∉ s.name) : equals ∉ s'.name := by
  fun_induction loop s with
  | case1 s _ =>
      cases h
      exact hs
  | case2 => cases h
  | case3 s _ _ _ =>
      cases h
      exact hs
  | case4 => cases h
  | case5 s _ _ _ _ _ s'' hstep ih => exact ih h (step_name hstep hs)

end EnvScan

theorem cstring_ext {s t : CString} (h : s.bytes = t.bytes) : s = t := by
  cases s
  cases t
  cases h
  rfl

/-- Whatever is taken for a setting has a name and a value. -/
theorem loadEnv_yes {envstr envstr' : List UInt8} {file f : Stream}
    (h : loadEnv envstr file = some (.yes, envstr', f)) :
    ∃ name value, Settable name value
      ∧ CString.ofBuf envstr' = varString name value := by
  obtain ⟨f', -, -, hload⟩ := loadEnv_eq envstr file
  rw [h] at hload
  split at hload
  · cases hload
  · obtain ⟨s, hloop, hout⟩ := Option.map_eq_some_iff.mp hload.symm
    unfold envOutcome at hout
    cases hsetting : s.setting with
    | none =>
        rw [hsetting] at hout
        cases hout
    | some r =>
        obtain ⟨name, value⟩ := r
        rw [hsetting] at hout
        dsimp only at hout
        have hequals : equals ∉ s.name :=
          EnvScan.loop_name hloop (by
            show equals ∉ []
            exact List.not_mem_nil)
        unfold EnvScan.setting at hsetting
        split at hsetting
        · cases hsetting
        · injection hsetting with hsetting
          injection hsetting with hname hvalue
          have hset : Settable name value := by
            refine ⟨⟨?_, ?_⟩, ?_⟩
            · rw [← hname]
              intro hmem
              exact hequals ((List.takeWhile_prefix _).subset hmem)
            · rw [← hname]
              exact (CString.ofBuf s.name).noNul
            · rw [← hvalue]
              intro hmem
              apply (CString.ofBuf s.val).noNul
              split at hmem
              · exact (List.rdropWhile_prefix _ _).subset hmem
              · exact hmem
          refine ⟨name, value, hset, ?_⟩
          have hnul : nul ∉ name ++ equals :: value := by
            rw [← hset.bytes_eq]
            exact (varString name value).noNul
          rcases glueStrings_cases maxEnvstr name value equals with
            ⟨-, hglue⟩ | ⟨-, buf, hglue, -⟩
          · rw [hglue, if_pos rfl] at hout
            injection hout with _ hout
            injection hout with harray
            have hbytes := storeAll_string
              (lineArray envstr file.rest) hnul
            rw [← glued_equals, harray, ← hset.bytes_eq] at hbytes
            exact cstring_ext hbytes
          · rw [hglue, if_neg Bool.false_ne_true] at hout
            cases hout

-- ======================================================= environments

/-- The vector at `p` reads as `get`, and has no block in `others`. -/
structure HasEnv (h : CHeap) (others : List Nat) (p : Nat)
    (get : EnvFun) : Prop where
  apart : ∃ addrs l, Names h p addrs l ∧ ∀ a ∈ p :: addrs, a ∉ others
  reads : ∀ n, envGet h n p = get n

/-- What is done to other blocks, and to new ones, does not show. -/
theorem HasEnv.frame {h h' : CHeap} {others others' : List Nat} {p : Nat}
    {get : EnvFun} (henv : HasEnv h others p get)
    (hf : Frame h h' fun a => a ∈ others)
    (hothers : ∀ a ∈ others', a ∈ others ∨ h.next ≤ a) :
    HasEnv h' others' p get := by
  obtain ⟨addrs, l, hnames, hapart⟩ := henv.apart
  have hnames' : Names h' p addrs l :=
    ⟨hnames.rep.frame hf hapart, hnames.nodup⟩
  refine ⟨⟨addrs, l, hnames', ?_⟩, ?_⟩
  · intro a ha hmem
    rcases hothers a hmem with hold | hnew
    · exact hapart a ha hold
    · have := hnames.rep.lt_next ha
      omega
  · intro n
    rw [hnames'.get, ← hnames.get]
    exact henv.reads n

/-- `env_free` frees the blocks of its vector only. -/
theorem envFree_frame {h : CHeap} {v : Nat} {addrs : List Nat}
    {l : List CString} (hrep : Rep h v addrs l) :
    Frame h (envFree h v) fun a => a ∈ v :: addrs := by
  have hcells : (vec h v).takeWhile (fun c => decide (c ≠ Cell.null))
      = addrs.map Cell.ptr := by
    rw [hrep.vec_eq]
    apply Span.takeWhile_run
    · intro c hc
      obtain ⟨a, -, rfl⟩ := List.mem_map.mp hc
      rfl
    · exact Span.stops_cons.mpr rfl
  have hfree : ∀ (as : List Nat) (h1 : CHeap),
      Frame h h1 (fun a => a ∈ v :: addrs) → as ⊆ addrs →
      Frame h ((as.map Cell.ptr).foldl freeCell h1)
        fun a => a ∈ v :: addrs := by
    intro as
    induction as with
    | nil => exact fun _ hf _ => hf
    | cons a as ih =>
        intro h1 hf has
        obtain ⟨ha, has⟩ := List.cons_subset.mp has
        refine ih _ ?_ has
        refine hf.trans (frame_free h1 (S := fun b => b = a) rfl) ?_
        rintro b - rfl
        exact List.mem_cons_of_mem v ha
  unfold envFree
  rw [hcells]
  refine (hfree addrs h (Frame.refl h _) fun _ ha => ha).trans
    (frame_free _ (S := fun b => b = v) rfl) ?_
  rintro b - rfl
  exact List.mem_cons_self

/-- Of the variables of `load_user`, what is kept, and of each job what
it was given. -/
structure Loaded (h : CHeap) (envp : Nat) (crontab : List Entry)
    (get : EnvFun) (jobs : List (Entry × EnvFun)) : Prop where
  built : EnvBuilt h envp
  vectors : ∃ addrs l, Names h envp addrs l
    ∧ ∀ j ∈ jobs, HasEnv h (envp :: addrs) j.1.envp j.2
  reads : ∀ n, envGet h n envp = get n
  crontab : crontab = jobs.map Prod.fst

section

variable {h h' : CHeap} {envp : Nat} {crontab : List Entry} {get : EnvFun}
  {jobs : List (Entry × EnvFun)}

/-- With memory to spare, there is an empty environment. -/
theorem envInit_granted (hg : AllGranted h) :
    ∃ p h', envInit h = (some p, h') ∧ AllGranted h' := by
  obtain ⟨p, h', halloc, hg'⟩ := hg.alloc (.vec (List.replicate 1 .uninit))
  refine ⟨p, setCell h' p 0 .null, ?_, hg'⟩
  unfold envInit mallocVec
  rw [halloc]

theorem loaded_init (hinit : envInit h = (some envp, h')) :
    Loaded h' envp [] (fun _ => none) [] := by
  refine ⟨.init hinit, ?_, ?_, rfl⟩
  · obtain ⟨addrs, l, hnames⟩ := (EnvBuilt.init hinit).names
    refine ⟨addrs, l, hnames, ?_⟩
    intro j hj
    cases hj
  · intro n
    rcases envInit_spec h with ⟨h1, heq, -⟩ | ⟨v, h1, heq, hrep, -⟩
    · rw [heq] at hinit
      cases hinit
    · rw [heq] at hinit
      cases hinit
      have hnames : Names h' envp [] [] := ⟨hrep, List.nodup_nil⟩
      rw [hnames.get]
      rfl

/-- A setting changes the environment that is kept, and no job's. -/
theorem Loaded.set (hloaded : Loaded h envp crontab get jobs)
    {name value : List UInt8} (hset : Settable name value) {p : Nat}
    (h1 : envSet h envp (varString name value) = (some p, h')) :
    Loaded h' p crontab (Function.update get name (some value)) jobs := by
  obtain ⟨addrs, l, hnames, hjobs⟩ := hloaded.vectors
  have hbuilt : EnvBuilt h' ((some p).getD envp) := hloaded.built.set h1
  rcases envSet_spec hnames.rep hnames.nodup (varString name value) with
    ⟨h2, heq, -⟩ | ⟨v', h2, addrs', heq, hrep', hf, hold⟩
  · rw [heq] at h1
    cases h1
  · rw [heq] at h1
    cases h1
    have hnames' : Names h' p addrs'
        (upsert envName l (varString name value)) :=
      ⟨hrep', nodup_upsert hnames.nodup _⟩
    refine ⟨hbuilt, ⟨addrs', _, hnames', ?_⟩, ?_, hloaded.crontab⟩
    · intro j hj
      exact (hjobs j hj).frame hf hold
    · intro n
      rw [hnames.upsert_get hset hnames']
      congr 1
      funext m
      exact hloaded.reads m

variable {getpwnam : CString → Option Passwd} {pw : Option Passwd}
  {fuel : Nat} {file : Stream} {errorFunc : Option (String → String)}
  {r : LoadResult}

/-- What a call of `load_entry` does to the heap. -/
theorem loadEntry_owns (hbuilt : EnvBuilt h envp)
    (hload : loadEntry fuel getpwnam file errorFunc pw h envp = some r) :
    Frame h r.heap (fun _ => False)
      ∧ ∀ e, r.entry = some e →
        (∃ addrs l, Own h r.heap e.envp addrs l)
          ∧ ∀ n, envGet r.heap n e.envp
            = jobEnv e.pwd (fun m => envGet h m envp) n := by
  have hported := loadEntry_ported getpwnam pw h envp "" errorFunc fuel file
    false
  rw [hload] at hported
  generalize hr0 : Tinjac.loadEntry fuel getpwnam file false pw h envp ""
    = o at hported
  obtain ⟨hrel⟩ := hported
  rename_i r0
  obtain ⟨hheap, hentry⟩ := loadEntry_body hr0
  have howns : BodyOwns (IsUser getpwnam pw (usefulText file.rest)) h envp
      (Tinjac.loadBody getpwnam file pw h envp "").verdict _ :=
    loadBody_owns hbuilt file
  rw [hrel.heap]
  refine ⟨?_, ?_⟩
  · rw [hheap]
    exact howns.kept.2
  · intro e he
    have hsame := hrel.entry
    rw [he] at hsame
    generalize ho : r0.entry = o at hsame
    obtain ⟨hsame⟩ := hsame
    rename_i e0
    have hverdict := hentry e0 ho
    rw [hverdict] at howns
    have hbody : r0.heap
        = (Tinjac.loadBody getpwnam file pw h envp "").heap := by
      rw [hheap, Body.heapLeft, hverdict]
    obtain ⟨hown, -, hget⟩ := howns
    rw [hbody, hsame.envp, hsame.pwd]
    exact ⟨hown, hget⟩

/-- The job a call returned, and what it was given. -/
def withEnv (get : EnvFun) (e : Entry) : Entry × EnvFun :=
  (e, jobEnv e.pwd get)

/-- A call of `load_entry` adds its job, if it returned one. -/
theorem Loaded.entry (hloaded : Loaded h envp crontab get jobs)
    (hload : loadEntry fuel getpwnam file errorFunc pw h envp = some r) :
    Loaded r.heap envp (r.entry.toList ++ crontab) get
      ((r.entry.map (withEnv get)).toList ++ jobs) := by
  obtain ⟨addrs, l, hnames, hjobs⟩ := hloaded.vectors
  obtain ⟨hf, hentry⟩ := loadEntry_owns hloaded.built hload
  have hkept := hnames.rep.kept hf
  have hnames' : Names r.heap envp addrs l :=
    ⟨hkept.rep hnames.rep, hnames.nodup⟩
  refine ⟨hloaded.built.other hkept, ⟨addrs, l, hnames', ?_⟩, ?_, ?_⟩
  · intro j hj
    rcases List.mem_append.mp hj with hnew | hold
    · obtain ⟨e, he, rfl⟩ := Option.map_eq_some_iff.mp
        (Option.mem_toList.mp hnew)
      obtain ⟨⟨addrs', l', hown⟩, hget⟩ := hentry e he
      refine ⟨⟨addrs', l', hown.names, ?_⟩, ?_⟩
      · intro a ha hmem
        have hnew := hown.fresh a ha
        have hlt := hnames.rep.lt_next hmem
        omega
      · intro n
        show envGet r.heap n e.envp = jobEnv e.pwd get n
        have hsame : (fun m => envGet h m envp) = get :=
          funext hloaded.reads
        rw [hget, hsame]
    · refine (hjobs j hold).frame ?_ fun a ha => Or.inl ha
      exact ⟨hf.next_le, hf.granted, fun a ha _ => hf.keep a ha nofun⟩
  · intro n
    rw [hnames'.get, ← hnames.get]
    exact hloaded.reads n
  · rw [hloaded.crontab, List.map_append]
    congr 1
    cases r.entry with
    | none => rfl
    | some e => rfl

/-- The last `env_free` reaches no job. -/
theorem Loaded.done (hloaded : Loaded h envp crontab get jobs) :
    ∀ j ∈ jobs, HasEnv (envFree h envp) [] j.1.envp j.2 := by
  obtain ⟨addrs, l, hnames, hjobs⟩ := hloaded.vectors
  intro j hj
  refine (hjobs j hj).frame (envFree_frame hnames.rep) ?_
  intro a ha
  cases ha

end

-- ============================================================== traces

/-- What a line of a crontab was: a setting, or a call of `load_entry`,
which returned this. -/
inductive TableItem
  | set (name value : List UInt8)
  | job (e : Option Entry)

/-- What settings make of an environment, seen as a function of names:
each assigns its variable, the last one wins. -/
def settingsOn (get : EnvFun) (items : List TableItem) : EnvFun :=
  items.foldl
    (fun get item =>
      match item with
      | .set name value => Function.update get name (some value)
      | .job _ => get)
    get

/-- The settings so far, as an environment: what a job on the next line is
given. -/
def settings (items : List TableItem) : EnvFun :=
  settingsOn (fun _ => none) items

/-- The entries so far, in the order of the file. -/
def entriesRead (items : List TableItem) : List Entry :=
  items.flatMap fun item =>
    match item with
    | .set _ _ => []
    | .job e => e.toList

section

variable (getpwnam : CString → Option Passwd) (pw : Option Passwd)
  (tab : String)

/-- The loop of `load_user`, line by line: each line is a setting or a
call of `load_entry`, and the trace records what it was. -/
inductive UserTrace (s0 : UserLoad) : List TableItem → UserLoad → Prop
  | start : UserTrace s0 [] s0
  | set {items : List TableItem} {s : UserLoad} {envstr : List UInt8}
      {file : Stream} {heap : CHeap} {p : Nat} {name value : List UInt8}
      (prior : UserTrace s0 items s)
      (line : loadEnv s.envstr s.file = some (.yes, envstr, file))
      (plain : Settable name value)
      (string : CString.ofBuf envstr = varString name value)
      (stored : envSet s.heap s.envp (CString.ofBuf envstr)
        = (some p, heap)) :
      UserTrace s0 (items ++ [.set name value])
        { s with heap := heap, envp := p, envstr := envstr, file := file }
  | job {items : List TableItem} {s : UserLoad} {envstr : List UInt8}
      {file : Stream} {fuel : Nat} {r : LoadResult}
      (prior : UserTrace s0 items s)
      (line : loadEnv s.envstr s.file = some (.no, envstr, file))
      (call : loadEntry fuel getpwnam file (some (logError tab)) pw s.heap
        s.envp = some r) :
      UserTrace s0 (items ++ [.job r.entry])
        { s with
          heap := r.heap, envstr := envstr, file := r.file
          crontab := r.entry.toList ++ s.crontab, log := s.log ++ r.log }

variable {getpwnam pw tab}

/-- A loop that comes to the end of the file has a trace. -/
theorem loadUserLoop_trace {fuel : Nat} {s0 s s' : UserLoad}
    {items : List TableItem}
    (htrace : UserTrace getpwnam pw tab s0 items s)
    (h : loadUserLoop getpwnam pw tab fuel s = some (true, s')) :
    ∃ items' s1 envstr file, UserTrace getpwnam pw tab s0 items' s1
      ∧ loadEnv s1.envstr s1.file = some (.err, envstr, file)
      ∧ s' = { s1 with envstr := envstr, file := file } := by
  induction fuel generalizing s items with
  | zero => cases h
  | succ fuel ih =>
      unfold loadUserLoop at h
      split at h
      · cases h
      · next envstr file hline =>
        injection h with h
        injection h with _ h
        exact ⟨items, s, envstr, file, htrace, hline, h.symm⟩
      · next envstr file hline =>
        split at h
        · cases h
        · next r hcall => exact ih (.job htrace hline hcall) h
      · next envstr file hline =>
        obtain ⟨name, value, hplain, hstring⟩ := loadEnv_yes hline
        split at h
        · cases h
        · next p heap hstored =>
          exact ih (.set htrace hline hplain hstring hstored) h

/-- The jobs of a trace, the last one first, each with its
environment. -/
def jobsRead : EnvFun → List TableItem → List (Entry × EnvFun)
  | _, [] => []
  | get, .set name value :: items =>
      jobsRead (Function.update get name (some value)) items
  | get, .job e :: items =>
      jobsRead get items ++ (e.map (withEnv get)).toList

theorem settings_snoc (items : List TableItem) (item : TableItem) :
    settings (items ++ [item])
      = match item with
        | .set name value =>
            Function.update (settings items) name (some value)
        | .job _ => settings items := by
  unfold settings settingsOn
  rw [List.foldl_append]
  rfl

theorem jobsRead_append (get : EnvFun) (items items' : List TableItem) :
    jobsRead get (items ++ items')
      = jobsRead (settingsOn get items) items' ++ jobsRead get items := by
  induction items generalizing get with
  | nil => exact (List.append_nil _).symm
  | cons item items ih =>
      cases item with
      | set name value => exact ih _
      | job e =>
          show jobsRead get (items ++ items') ++ _ = _
          rw [ih, List.append_assoc]
          rfl

theorem jobsRead_entries (get : EnvFun) (items : List TableItem) :
    (jobsRead get items).map Prod.fst = (entriesRead items).reverse := by
  induction items generalizing get with
  | nil => rfl
  | cons item items ih =>
      cases item with
      | set name value => exact ih _
      | job e =>
          show (jobsRead get items ++ _).map Prod.fst
            = (e.toList ++ entriesRead items).reverse
          rw [List.map_append, ih, List.reverse_append]
          congr 1
          cases e with
          | none => rfl
          | some e => rfl

/-- The invariant of the loop, whatever `malloc` does. -/
theorem UserTrace.loaded {s0 s : UserLoad} {items : List TableItem}
    (htrace : UserTrace getpwnam pw tab s0 items s)
    (hstart : Loaded s0.heap s0.envp s0.crontab (fun _ => none) []) :
    Loaded s.heap s.envp s.crontab (settings items)
      (jobsRead (fun _ => none) items) := by
  induction htrace with
  | start => exact hstart
  | set prior line plain string stored ih =>
      rw [string] at stored
      have hset := ih.set plain stored
      rw [settings_snoc, jobsRead_append]
      exact hset
  | job prior line call ih =>
      have hentry := ih.entry call
      rw [settings_snoc, jobsRead_append]
      exact hentry

/-- The variables as `load_user` comes to its loop: the user, the copies
of the two names and the first environment are allocated, and nothing is
read. -/
structure LoopStart (h : CHeap) (fname tabname : CString)
    (envstr : List UInt8) (file : Stream) (s0 : UserLoad) : Prop where
  allocated : ∃ h0 name h1 tabcopy h2, h.request = (true, h0)
    ∧ strdup h0 fname = (some name, h1)
    ∧ strdup h1 tabname = (some tabcopy, h2)
    ∧ envInit h2 = (some s0.envp, s0.heap)
  envstr : s0.envstr = envstr
  file : s0.file = file
  crontab : s0.crontab = []
  log : s0.log = []

theorem LoopStart.loaded {h : CHeap} {fname tabname : CString}
    {envstr : List UInt8} {file : Stream} {s0 : UserLoad}
    (hs : LoopStart h fname tabname envstr file s0) :
    Loaded s0.heap s0.envp s0.crontab (fun _ => none) [] := by
  obtain ⟨h0, name, h1, tabcopy, h2, -, -, -, hinit⟩ := hs.allocated
  rw [hs.crontab]
  exact loaded_init hinit

/-- There is one such state. -/
theorem LoopStart.unique {h : CHeap} {fname tabname : CString}
    {envstr : List UInt8} {file : Stream} {s0 s1 : UserLoad}
    (hs : LoopStart h fname tabname envstr file s0)
    (hs' : LoopStart h fname tabname envstr file s1) : s0 = s1 := by
  obtain ⟨⟨h0, name, h1, tabcopy, h2, hasked, hname, htab, hinit⟩, henvstr,
    hfile, hcrontab, hlog⟩ := hs
  obtain ⟨⟨h0', name', h1', tabcopy', h2', hasked', hname', htab', hinit'⟩,
    henvstr', hfile', hcrontab', hlog'⟩ := hs'
  cases hasked.symm.trans hasked'
  cases hname.symm.trans hname'
  cases htab.symm.trans htab'
  obtain ⟨heap, envp, envstr0, file0, crontab, log⟩ := s0
  obtain ⟨heap', envp', envstr1, file1, crontab', log'⟩ := s1
  dsimp only at *
  cases hinit.symm.trans hinit'
  rw [henvstr, henvstr', hfile, hfile', hcrontab, hcrontab', hlog, hlog']

variable (getpwnam pw tab) in
/-- The call of `load_user` that started on this heap and this file and
returned this user, line by line: these were its lines, behind the last
one the file is at its end, and `s` was what the loop left. -/
structure UserRead (h : CHeap) (fname tabname : CString)
    (envstr : List UInt8) (file : Stream) (r : UserResult) (u : LoadedUser)
    (items : List TableItem) (s : UserLoad) : Prop where
  trace : ∃ s0, LoopStart h fname tabname envstr file s0
    ∧ UserTrace getpwnam pw tab s0 items s
  ended : ∃ envstr' file',
    loadEnv s.envstr s.file = some (.err, envstr', file')
  user : r.user = some u
  crontab : u.crontab = s.crontab
  heap : r.heap = envFree s.heap s.envp
  log : r.log = s.log

/-- A `load_user` that returns a user went through the file. -/
theorem loadUser_trace {fuel : Nat} {file : Stream}
    {fname tabname : CString} {envstr : List UInt8} {h : CHeap}
    {r : UserResult} {u : LoadedUser}
    (hload : loadUser fuel getpwnam file pw fname tabname tab envstr h
      = some r) (hu : r.user = some u) :
    ∃ items s, UserRead getpwnam pw tab h fname tabname envstr file r u
      items s := by
  unfold loadUser at hload
  dsimp only at hload
  split at hload
  · next hok =>
    have hasked : h.request = (true, h.request.2) :=
      Prod.ext_iff.mpr ⟨hok, rfl⟩
    split at hload
    · injection hload with hload
      rw [← hload] at hu
      cases hu
    · next name h1 hname =>
      split at hload
      · injection hload with hload
        rw [← hload] at hu
        cases hu
      · next tabcopy h2 htab =>
        split at hload
        · injection hload with hload
          rw [← hload] at hu
          cases hu
        · next envp h3 hinit =>
          split at hload
          · cases hload
          · next s' hloop =>
            obtain ⟨items, s, envstr', file', htrace, hend, hs⟩ :=
              loadUserLoop_trace .start hloop
            have hstart : LoopStart h fname tabname envstr file
                { heap := h3, envp := envp, envstr := envstr
                  file := file, crontab := [], log := [] } :=
              ⟨⟨_, name, h1, tabcopy, h2, hasked, hname, htab, hinit⟩,
                rfl, rfl, rfl, rfl⟩
            injection hload with hload
            rw [← hload] at hu
            refine ⟨items, s, ⟨_, hstart, htrace⟩, ⟨envstr', file', hend⟩,
              ?_, ?_, ?_, ?_⟩
            · rw [← hload]
              exact hu
            · injection hu with hu
              rw [← hu, hs]
            · rw [← hload, hs]
            · rw [← hload, hs]
          · injection hload with hload
            rw [← hload] at hu
            cases hu
  · injection hload with hload
    rw [← hload] at hu
    cases hu

/-- With memory to spare, `load_user` comes to its loop, and returns what
that has read. -/
theorem loadUser_start {h : CHeap} (hgranted : AllGranted h) (fuel : Nat)
    (file : Stream) (fname tabname : CString) (envstr : List UInt8) :
    ∃ s0, LoopStart h fname tabname envstr file s0 ∧ AllGranted s0.heap
      ∧ ∀ s', loadUserLoop getpwnam pw tab fuel s0 = some (true, s') →
        loadUser fuel getpwnam file pw fname tabname tab envstr h
          = some
              { user := some { name := fname, tabname := tabname
                               crontab := s'.crontab }
                heap := envFree s'.heap s'.envp, log := s'.log } := by
  have hg0 : AllGranted { h with asked := h.asked + 1 } := hgranted
  obtain ⟨name, h1, hname, hg1⟩ := hg0.alloc (.str fname)
  obtain ⟨tabcopy, h2, htab, hg2⟩ := hg1.alloc (.str tabname)
  obtain ⟨envp, h3, hinit, hg3⟩ := envInit_granted hg2
  have hmalloc : h.request = (true, { h with asked := h.asked + 1 }) := by
    unfold Heap.request
    rw [hgranted]
  refine ⟨{ heap := h3, envp := envp, envstr := envstr, file := file
            crontab := [], log := [] }, ?_, hg3, fun s' hloop => ?_⟩
  · exact ⟨⟨_, name, h1, tabcopy, h2, hmalloc, hname, htab, hinit⟩, rfl,
      rfl, rfl, rfl⟩
  · unfold loadUser strdup
    rw [hmalloc]
    dsimp only
    rw [if_pos rfl, hname]
    dsimp only
    rw [htab]
    dsimp only
    rw [hinit]
    dsimp only
    rw [hloop]

/-- **The environment of a job.** Whatever is in the file and whatever
`malloc` does: when `load_user` returns a user, the jobs are those of the
entries that its calls of `load_entry` returned, the last one first, and
the environment of each is the settings above it, and the job's own
variables. Nothing that was read below it, and nothing that was freed,
has changed it. -/
theorem job_environments {fuel : Nat} {file : Stream}
    {fname tabname : CString} {envstr : List UInt8} {h : CHeap}
    {r : UserResult} {u : LoadedUser}
    (hload : loadUser fuel getpwnam file pw fname tabname tab envstr h
      = some r) (hu : r.user = some u) :
    ∃ items s,
      UserRead getpwnam pw tab h fname tabname envstr file r u items s
      ∧ u.crontab = (entriesRead items).reverse
      ∧ ∀ above e below, items = above ++ .job (some e) :: below →
        ∀ n, envGet r.heap n e.envp = jobEnv e.pwd (settings above) n := by
  obtain ⟨items, s, hread⟩ := loadUser_trace hload hu
  obtain ⟨s0, hstart, htrace⟩ := hread.trace
  have hloaded := htrace.loaded hstart.loaded
  refine ⟨items, s, hread, ?_, ?_⟩
  · rw [hread.crontab, hloaded.crontab, jobsRead_entries]
  · intro above e below hitems n
    have hmem : withEnv (settings above) e
        ∈ jobsRead (fun _ => none) items := by
      rw [hitems, jobsRead_append]
      refine List.mem_append_left _ (List.mem_append_right _ ?_)
      exact List.mem_singleton_self _
    rw [hread.heap]
    exact (hloaded.done _ hmem).reads n

end

/-- A crontab of a setting, a job, and the setting once more. -/
def smallTable : List UInt8 :=
  bytes "A=1\n@daily root true\nA=2\n"

/-- The job of `smallTable` has the environment that the settings above it
give it. -/
theorem smallTable_environment :
    ∃ r u e, loadUser 9 rootOnly (Stream.ofBytes smallTable) none
        (CString.ofString "*system*") (CString.ofString "/etc/crontab")
        "/etc/crontab" [] (Heap.empty fun _ => true) = some r
      ∧ r.user = some u ∧ u.crontab = [e]
      ∧ ∃ above, ∀ n, envGet r.heap n e.envp
        = jobEnv e.pwd (settings above) n := by
  have hsome : ((loadUser 9 rootOnly (Stream.ofBytes smallTable) none
      (CString.ofString "*system*") (CString.ofString "/etc/crontab")
      "/etc/crontab" [] (Heap.empty fun _ => true)).bind
        fun r => r.user.map fun u => u.crontab.length) = some 1 := by
    decide +kernel
  obtain ⟨r, hload, hlength⟩ := Option.bind_eq_some_iff.mp hsome
  obtain ⟨u, hu, hone⟩ := Option.map_eq_some_iff.mp hlength
  obtain ⟨e, he⟩ := List.length_eq_one_iff.mp hone
  obtain ⟨items, s, -, hcrontab, henvs⟩ := job_environments hload hu
  refine ⟨r, u, e, hload, hu, he, ?_⟩
  rw [he] at hcrontab
  have hentries : entriesRead items = [e] := by
    rw [← List.reverse_reverse (entriesRead items), ← hcrontab]
    rfl
  have hmem : e ∈ entriesRead items := by
    rw [hentries]
    exact List.mem_singleton_self e
  obtain ⟨item, hitem, hjob⟩ := List.mem_flatMap.mp hmem
  obtain ⟨above, below, rfl⟩ := List.append_of_mem hitem
  cases item with
  | set name value => cases hjob
  | job o =>
      rw [Option.mem_toList] at hjob
      cases hjob
      exact ⟨above, henvs above e below rfl⟩

end Tinjac.Crond
