/-
The environment of a loaded job, and the one it was made from.

The environment a line starts from reads as a function of names
(`env_get`), and each of the five updates of `load_entry` is an update
of that function (`Reads.setVar`, `Reads.defaultVar`). All of them work on
the copy that `env_copy` made (`Own`): its blocks are new, so whatever
happens to them, and also when a failure gives them back, the caller's
vector keeps its own (`Kept`).

Strings without an `=` are allowed in a vector: they have a name, which
`env_set` looks for, and no value, so `env_get` does not see them.
-/
import Tinjac.Proofs.Glue
import Tinjac.Proofs.EnvVector
import Tinjac.Proofs.Job
import Mathlib.Logic.Function.Basic

namespace Tinjac

open BlockHeap BlockHeap.Heap CHeap KeyedList

-- ================================================== vectors that exist

/-- The vector at `envp` and the strings it points to are what they
were. -/
def Kept (h h' : CHeap) (envp : Nat) : Prop :=
  h'.block envp = h.block envp
    ∧ ∀ a, Cell.ptr a ∈ vec h envp → h'.block a = h.block a

/-- The vectors that a program makes: from `env_init`, by any calls of
`env_set`, of which each may fail, while other calls leave it alone. -/
inductive EnvBuilt : CHeap → Nat → Prop
  | init {h h' : CHeap} {envp : Nat} (hinit : envInit h = (some envp, h')) :
      EnvBuilt h' envp
  | set {h h' : CHeap} {envp : Nat} {s : CString} {r : Option Nat}
      (hbuilt : EnvBuilt h envp) (hset : envSet h envp s = (r, h')) :
      EnvBuilt h' (r.getD envp)
  | other {h h' : CHeap} {envp : Nat} (hbuilt : EnvBuilt h envp)
      (hkept : Kept h h' envp) : EnvBuilt h' envp

/-- A vector with these strings, at these addresses, of different names.
-/
structure Names (h : CHeap) (v : Nat) (addrs : List Nat)
    (l : List CString) : Prop where
  rep : Rep h v addrs l
  nodup : (l.map envName).Nodup

theorem Kept.rep {h h' : CHeap} {v : Nat} {addrs : List Nat}
    {l : List CString} (hkept : Kept h h' v) (hrep : Rep h v addrs l) :
    Rep h' v addrs l := by
  refine ⟨hkept.1.trans hrep.vec, ?_, hrep.nodup⟩
  rw [← hrep.strs]
  refine List.map_congr_left fun a ha => hkept.2 a ?_
  rw [hrep.vec_eq]
  exact List.mem_append_left _ (List.mem_map_of_mem ha)

/-- What does not touch the blocks of a vector keeps it. -/
theorem Rep.kept {h h' : CHeap} {v : Nat} {addrs : List Nat}
    {l : List CString} (hrep : Rep h v addrs l)
    (hf : Frame h h' fun _ => False) : Kept h h' v := by
  refine ⟨hf.keep v (hrep.lt_next List.mem_cons_self) (fun hS => hS), ?_⟩
  intro a ha
  rw [hrep.vec_eq, List.mem_append] at ha
  rcases ha with ha | ha
  · obtain ⟨b, hb, hab⟩ := List.mem_map.mp ha
    cases hab
    exact hf.keep a (hrep.lt_next (List.mem_cons_of_mem v hb)) fun hS => hS
  · cases List.mem_singleton.mp ha

theorem nodup_upsert {l : List CString} (h : (l.map envName).Nodup)
    (s : CString) : ((upsert envName l s).map envName).Nodup := by
  rw [map_key_upsert]
  split
  · exact h
  · next hnew =>
    rw [List.nodup_append]
    refine ⟨h, List.nodup_singleton _, ?_⟩
    intro a ha b hb
    rw [List.mem_singleton.mp hb]
    exact ne_of_mem_of_not_mem ha hnew

/-- A vector that was made has its strings, one for each name. -/
theorem EnvBuilt.names {h : CHeap} {envp : Nat} (hbuilt : EnvBuilt h envp) :
    ∃ addrs l, Names h envp addrs l := by
  induction hbuilt with
  | init hinit =>
      rename_i h h' envp
      rcases envInit_spec h with ⟨h1, heq, -⟩ | ⟨v, h1, heq, hrep, -⟩
      · rw [heq] at hinit
        cases hinit
      · rw [heq] at hinit
        cases hinit
        exact ⟨[], [], hrep, List.nodup_nil⟩
  | set hbuilt hset ih =>
      rename_i h h' envp s r
      obtain ⟨addrs, l, hnames⟩ := ih
      rcases envSet_spec hnames.rep hnames.nodup s with
        ⟨h1, heq, hfailed, -⟩ | ⟨v, h1, addrs1, heq, hrep, -⟩
      · rw [heq] at hset
        cases hset
        exact ⟨addrs, l, (hnames.rep.kept hfailed).rep hnames.rep,
          hnames.nodup⟩
      · rw [heq] at hset
        cases hset
        exact ⟨addrs1, _, hrep, nodup_upsert hnames.nodup s⟩
  | other hbuilt hkept ih =>
      obtain ⟨addrs, l, hnames⟩ := ih
      exact ⟨addrs, l, hkept.rep hnames.rep, hnames.nodup⟩

/-- `env_get` finds the string with the name, if that has a value. -/
theorem Names.get {h : CHeap} {v : Nat} {addrs : List Nat}
    {l : List CString} (hnames : Names h v addrs l) (name : List UInt8) :
    envGet h name v
      = (l.find? fun s => decide (envName s = name)).bind fun s =>
          if equals ∈ s.bytes then some (envValue s) else none := by
  rw [envGet_find hnames.rep]
  have hnodup := hnames.nodup
  clear hnames
  induction l with
  | nil => rfl
  | cons s l ih =>
      obtain ⟨hnew, hnodup'⟩ := List.nodup_cons.mp hnodup
      rw [List.find?_cons, List.find?_cons]
      by_cases hname : envName s = name
      · by_cases hs : equals ∈ s.bytes
        · simp [hname, hs]
        · -- the only string of the name has no value
          have hnone : ∀ t ∈ l, equals ∈ t.bytes → ¬ envName t = name := by
            intro t ht _ htname
            refine hnew ?_
            rw [hname, ← htname]
            exact List.mem_map_of_mem ht
          simpa [hname, hs] using hnone
      · have hrest := ih hnodup'
        simpa [hname] using hrest

-- ======================================================== one variable

/-- The string of a variable, `name=value`, as `env_set` stores it. -/
def varString (name value : List UInt8) : CString :=
  CString.ofBuf (glued name value equals)

/-- A name and a value that can be put together. -/
structure Settable (name value : List UInt8) : Prop where
  name_plain : equals ∉ name ∧ nul ∉ name
  value_plain : nul ∉ value

/-- A `name=value` string, with its NUL, has room in the buffer. -/
def FitsEnvstr (name value : List UInt8) : Prop :=
  (glued name value equals).length ≤ maxEnvstr

instance (name value : List UInt8) : Decidable (FitsEnvstr name value) :=
  inferInstanceAs (Decidable (_ ≤ _))

theorem glued_equals (name value : List UInt8) :
    glued name value equals = (name ++ equals :: value) ++ [nul] := by
  unfold glued glueSeparator
  rw [if_neg (fun h => absurd h.1 (by decide))]
  simp

section

variable {name value : List UInt8}

theorem Settable.bytes_eq (h : Settable name value) :
    (varString name value).bytes = name ++ equals :: value := by
  have hnul : nul ∉ name ++ equals :: value := by
    rw [List.mem_append, List.mem_cons, not_or, not_or]
    exact ⟨h.name_plain.2, by decide, h.value_plain⟩
  show (glued name value equals).takeWhile _ = _
  rw [glued_equals, List.takeWhile_append_of_pos]
  · simp
  · intro c hc
    simpa using ne_of_mem_of_not_mem hc hnul

theorem stops_before_equals (h : equals ∉ name) (rest : List UInt8) :
    (name ++ equals :: rest).takeWhile (fun c => c != equals) = name
      ∧ (name ++ equals :: rest).dropWhile (fun c => c != equals)
        = equals :: rest := by
  have hname : ∀ c ∈ name, (c != equals) = true := by
    intro c hc
    simpa using ne_of_mem_of_not_mem hc h
  refine ⟨?_, ?_⟩
  · rw [List.takeWhile_append_of_pos hname]
    simp
  · rw [List.dropWhile_append_of_pos hname]
    simp

theorem Settable.envName_eq (h : Settable name value) :
    envName (varString name value) = name := by
  unfold envName
  rw [h.bytes_eq]
  exact (stops_before_equals h.name_plain.1 value).1

theorem Settable.envValue_eq (h : Settable name value) :
    envValue (varString name value) = value := by
  unfold envValue
  rw [h.bytes_eq, (stops_before_equals h.name_plain.1 value).2,
    List.tail_cons]

end

/-- The update of a vector is an update of the function it reads as. -/
theorem Names.upsert_get {h h' : CHeap} {v v' : Nat}
    {addrs addrs' : List Nat} {l : List CString} {name value : List UInt8}
    (hset : Settable name value) (hnames : Names h v addrs l)
    (hnames' : Names h' v' addrs' (upsert envName l (varString name value)))
    (n : List UInt8) :
    envGet h' n v'
      = Function.update (fun m => envGet h m v) name (some value) n := by
  rw [hnames'.get, find_upsert, hset.envName_eq]
  by_cases hn : n = name
  · have hmem : equals ∈ (varString name value).bytes := by
      rw [hset.bytes_eq]
      exact List.mem_append_right _ List.mem_cons_self
    rw [hn, if_pos rfl, Function.update_self, Option.bind_some, if_pos hmem,
      hset.envValue_eq]
  · rw [if_neg (fun h => hn h.symm), Function.update_of_ne hn, hnames.get]

-- ================================================= the copy is made up

/-- A vector of blocks that are not in `h0`, whose blocks are all still
there. -/
structure Own (h0 h : CHeap) (v : Nat) (addrs : List Nat)
    (l : List CString) : Prop where
  names : Names h v addrs l
  frame : Frame h0 h fun _ => False
  fresh : ∀ a ∈ v :: addrs, h0.next ≤ a

/-- Giving a vector of its own back takes nothing from anybody else. -/
theorem Own.envFree {h0 h : CHeap} {v : Nat} {addrs : List Nat}
    {l : List CString} (hown : Own h0 h v addrs l) :
    Frame h0 (envFree h v) fun _ => False := by
  have hfree : ∀ (as : List Nat) (h : CHeap), Frame h0 h (fun _ => False) →
      (∀ a ∈ as, h0.next ≤ a) →
      Frame h0 ((as.map Cell.ptr).foldl freeCell h) fun _ => False := by
    intro as
    induction as with
    | nil => exact fun _ hf _ => hf
    | cons a as ih =>
        intro h hf has
        refine ih _ ?_ fun b hb => has b (List.mem_cons_of_mem a hb)
        refine hf.trans (frame_free h (S := fun b => b = a) rfl) ?_
        intro b hb hba
        have := has a List.mem_cons_self
        omega
  have hcells : (vec h v).takeWhile (fun c => decide (c ≠ Cell.null))
      = addrs.map Cell.ptr := by
    rw [hown.names.rep.vec_eq, List.takeWhile_append_of_pos]
    · simp
    · intro c hc
      obtain ⟨a, -, rfl⟩ := List.mem_map.mp hc
      simp
  have hstrs := hfree addrs h hown.frame
    fun a ha => hown.fresh a (List.mem_cons_of_mem v ha)
  unfold Tinjac.envFree
  rw [hcells]
  refine hstrs.trans (frame_free _ (S := fun b => b = v) rfl) ?_
  intro b hb hbv
  have := hown.fresh v List.mem_cons_self
  omega

/-- The fixing-up of an environment of its own, which reads as `get`
where nothing has failed. -/
def Reads (h0 : CHeap) (get : List UInt8 → Option (List UInt8))
    (s : EnvState) : Prop :=
  (∃ addrs l, Own h0 s.heap s.envp addrs l)
    ∧ (s.ecode = .none → ∀ n, envGet s.heap n s.envp = get n)

/-- What setting a variable does to the function a vector reads as. -/
def assign (name value : List UInt8)
    (get : List UInt8 → Option (List UInt8)) :
    List UInt8 → Option (List UInt8) :=
  if FitsEnvstr name value then Function.update get name (some value)
  else get

/-- What setting a variable that has no value does to it. -/
def assignDefault (name value : List UInt8)
    (get : List UInt8 → Option (List UInt8)) :
    List UInt8 → Option (List UInt8) :=
  if get name = none then assign name value get else get

section

variable {h0 : CHeap} {get : List UInt8 → Option (List UInt8)}
  {s : EnvState} {name value : List UInt8}

theorem Reads.setVar (hset : Settable name value) (msg : String)
    (hs : Reads h0 get s) (hecode : s.ecode = .none) :
    Reads h0 (assign name value get) (setVar name value msg s) := by
  unfold Tinjac.setVar assign
  rcases glueStrings_cases maxEnvstr name value equals with
    ⟨hfits, hglue⟩ | ⟨hlong, buf, hglue, -⟩
  case inr =>
    have hno : ¬ FitsEnvstr name value := Nat.not_le.mpr hlong
    rw [hglue, if_neg hno]
    exact hs
  have hyes : FitsEnvstr name value := hfits
  rw [hglue, if_pos hyes]
  obtain ⟨⟨addrs, l, hown⟩, hget⟩ := hs
  have hget := hget hecode
  dsimp only
  rcases envSet_spec hown.names.rep hown.names.nodup
      (CString.ofBuf (glued name value equals)) with
    ⟨h', heq, hfailed, -⟩ | ⟨v', h', addrs', heq, hrep, hf, hnew⟩
  · rw [heq]
    refine ⟨⟨addrs, l, ⟨hown.names.rep.frame hfailed fun _ _ hS => hS,
      hown.names.nodup⟩, hown.frame.trans hfailed fun _ _ hS => hS,
      hown.fresh⟩, ?_⟩
    intro he
    cases he
  · rw [heq]
    have hnames' : Names h' v' addrs'
        (upsert envName l (varString name value)) :=
      ⟨hrep, nodup_upsert hown.names.nodup _⟩
    refine ⟨⟨addrs', _, hnames', ?_, ?_⟩, ?_⟩
    · refine hown.frame.trans hf ?_
      intro a ha hmem
      have := hown.fresh a hmem
      omega
    · intro a ha
      rcases hnew a ha with hold | hfresh
      · exact hown.fresh a hold
      · exact Nat.le_trans hown.frame.next_le hfresh
    · intro _ n
      have hupd := hown.names.upsert_get hset hnames' n
      rw [funext hget] at hupd
      exact hupd

/-- A default is set where there is no value, and only there. -/
theorem Reads.defaultVar (hset : Settable name value) (msg : String)
    (hs : Reads h0 get s) (hecode : s.ecode = .none) :
    Reads h0 (assignDefault name value get)
      (defaultVar name value msg s) := by
  have hget := hs.2 hecode
  unfold Tinjac.defaultVar assignDefault
  rw [hget]
  split
  · exact hs.setVar hset msg hecode
  · exact hs

/-- A stage that is skipped keeps what it would have worked on. -/
theorem Reads.andThen {get' : List UInt8 → Option (List UInt8)}
    {k : EnvState → EnvState} (hs : Reads h0 get s)
    (hk : s.ecode = .none → Reads h0 get' (k s)) :
    Reads h0 get' (s.andThen k) := by
  unfold EnvState.andThen
  split
  · next hecode => exact hk hecode
  · next hecode => exact ⟨hs.1, fun h => absurd h hecode⟩

end

-- ===================================================== the environment

/-- The environment of a job of this user, as a function of the one it
is made from. -/
def jobEnv (pw : Passwd) (get : List UInt8 → Option (List UInt8)) :
    List UInt8 → Option (List UInt8) :=
  let get := assignDefault (bytes "SHELL") pathBshell get
  let get := assignDefault (bytes "HOME") pw.pwDir.bytes get
  let get := assignDefault (bytes "PATH") pathDefpath get
  let get := assign (bytes "LOGNAME") pw.pwName.bytes get
  assign (bytes "USER") pw.pwName.bytes get

-- the five variables of a job
theorem settable_shell : Settable (bytes "SHELL") pathBshell :=
  ⟨by decide, by decide⟩

theorem settable_home (pw : Passwd) :
    Settable (bytes "HOME") pw.pwDir.bytes :=
  ⟨by decide, pw.pwDir.noNul⟩

theorem settable_path : Settable (bytes "PATH") pathDefpath :=
  ⟨by decide, by decide⟩

theorem settable_logname (pw : Passwd) :
    Settable (bytes "LOGNAME") pw.pwName.bytes :=
  ⟨by decide, pw.pwName.noNul⟩

theorem settable_user (pw : Passwd) :
    Settable (bytes "USER") pw.pwName.bytes :=
  ⟨by decide, pw.pwName.noNul⟩

/-- `loadEnv` on a vector that was made: a vector of its own, which reads
as `jobEnv` says if nothing failed, or none. -/
theorem loadEnv_reads {h : CHeap} {envp : Nat} (hbuilt : EnvBuilt h envp)
    (pw : Passwd) (fname : String) :
    match loadEnv h envp pw fname with
    | (ecode, none, h', _) => ecode ≠ .none ∧ Frame h h' (fun _ => False)
    | (ecode, some p, h', _) =>
        (∃ addrs l, Own h h' p addrs l)
          ∧ (ecode = .none → ∀ n,
            envGet h' n p = jobEnv pw (fun m => envGet h m envp) n) := by
  obtain ⟨addrs, l, hnames⟩ := hbuilt.names
  unfold loadEnv
  rcases envCopy_spec hnames.rep with
    ⟨h1, hcopy, hfailed, -⟩ | ⟨p, h1, addrs1, hcopy, hrep, hf, hfresh⟩
  · rw [hcopy]
    exact ⟨by decide, hfailed⟩
  rw [hcopy]
  dsimp only
  have hcopied : Names h1 p addrs1 l := ⟨hrep, hnames.nodup⟩
  have h0 : Reads h (fun m => envGet h m envp)
      { ecode := .none, envp := p, heap := h1, log := [] } := by
    refine ⟨⟨addrs1, l, hcopied, hf, hfresh⟩, ?_⟩
    intro _ n
    show envGet h1 n p = envGet h n envp
    rw [hcopied.get, hnames.get]
  have h1 := h0.defaultVar settable_shell ("ERROR: can't set SHELL in " ++ fname) rfl
  have h2 := h1.andThen
    (h1.defaultVar (settable_home pw) ("ERROR: can't set HOME in " ++ fname))
  have h3 := h2.andThen
    (h2.defaultVar settable_path ("ERROR can't set PATH in " ++ fname))
  have h4 := h3.andThen
    (h3.setVar (settable_logname pw) ("ERROR can't set LOGNAME in " ++ fname))
  exact h4.andThen (h4.setVar (settable_user pw) ("ERROR can't set USER in " ++ fname))

-- ============================================================ the line

section

variable {getpwnam : CString → Option Passwd} {pw : Option Passwd}
  {h : CHeap} {envp : Nat} {fname : String}

theorem frame_request (h : CHeap) :
    Frame h { h with asked := h.asked + 1 } fun _ => False :=
  ⟨Nat.le_refl _, rfl, fun _ _ _ => rfl⟩

/-- The environment of a job in the making: its own, or none. -/
def Prepared (h : CHeap) (envp : Nat) (pw : Passwd)
    (r : Except (Ecode × Option Nat) Nat × CHeap × List String) : Prop :=
  match r with
  | (.error (_, none), h', _) => Frame h h' fun _ => False
  | (.error (_, some p), h', _) => ∃ addrs l, Own h h' p addrs l
  | (.ok p, h', _) =>
      (∃ addrs l, Own h h' p addrs l)
        ∧ ∀ n, envGet h' n p = jobEnv pw (fun m => envGet h m envp) n

/-- What was set up after a request was set up after what preceded it. -/
theorem Own.of_request {h' : CHeap} {v : Nat} {addrs : List Nat}
    {l : List CString}
    (hown : Own { h with asked := h.asked + 1 } h' v addrs l) :
    Own h h' v addrs l :=
  ⟨hown.names, (frame_request h).trans hown.frame fun _ _ hS => hS,
    hown.fresh⟩

theorem EnvBuilt.request (hbuilt : EnvBuilt h envp) :
    EnvBuilt { h with asked := h.asked + 1 } envp :=
  hbuilt.other ⟨rfl, fun _ _ => rfl⟩

theorem prepareJob_prepared (hbuilt : EnvBuilt h envp) (pw : Passwd)
    (fname : String) : Prepared h envp pw (prepareJob h envp pw fname) := by
  unfold prepareJob
  rcases pwDup_eq h pw with heq | heq
  · rw [heq]
    exact frame_request h
  · rw [heq]
    have hreads := loadEnv_reads hbuilt.request pw fname
    dsimp only
    generalize loadEnv { h with asked := h.asked + 1 } envp pw fname = r
      at hreads
    obtain ⟨ecode, p, h', log⟩ := r
    cases p with
    | none =>
        obtain ⟨hecode, hf⟩ := hreads
        have hframe := (frame_request h).trans hf fun _ _ hS => hS
        cases ecode with
        | none => exact absurd rfl hecode
        | _ => exact hframe
    | some p =>
        obtain ⟨⟨addrs, l, hown⟩, hget⟩ := hreads
        have hown' : ∃ addrs l, Own h h' p addrs l :=
          ⟨addrs, l, hown.of_request⟩
        cases ecode with
        | none => exact ⟨hown', hget rfl⟩
        | _ => exact hown'

/-- The username that a text starts with. -/
def userToken (next : List UInt8) : CString :=
  CString.ofBuf (kept (next.takeWhile (isToken wordTerms)))

/-- The record a job is loaded with: the one given, or the one that the
password file has for the username behind the schedule. -/
def UserOf (getpwnam : CString → Option Passwd) (pw : Option Passwd)
    (next : List UInt8) (pwd : Passwd) : Prop :=
  match pw with
  | some pw => pwd = bzeroPasswd pw
  | none => ∃ pw, getpwnam (userToken next) = some pw ∧ pwd = bzeroPasswd pw

/-- So for a line, from its first useful character on: a dash may stand
before the schedule. -/
def IsUser (getpwnam : CString → Option Passwd) (pw : Option Passwd)
    (t : List UInt8) (pwd : Passwd) : Prop :=
  ∃ flags bits flags' next,
    readSchedule flags (if t.head? = some dash then t.tail else t)
        = .accepted bits flags' next
      ∧ UserOf getpwnam pw next pwd

/-- What the body of `load_entry` has made of the heap, and the record of
what it has loaded. -/
def BodyOwns (isUser : Passwd → Prop) (h : CHeap) (envp : Nat)
    (verdict : Verdict) (h' : CHeap) : Prop :=
  match verdict with
  | .null => Frame h h' fun _ => False
  | .eof _ none => Frame h h' fun _ => False
  | .eof _ (some p) => ∃ addrs l, Own h h' p addrs l
  | .entry e =>
      (∃ addrs l, Own h h' e.envp addrs l)
        ∧ isUser e.pwd
        ∧ ∀ n, envGet h' n e.envp
          = jobEnv e.pwd (fun m => envGet h m envp) n

/-- More may be said of the record. -/
theorem BodyOwns.mono {isUser isUser' : Passwd → Prop} {h' : CHeap}
    {verdict : Verdict} (howns : BodyOwns isUser h envp verdict h')
    (himp : ∀ pwd, isUser pwd → isUser' pwd) :
    BodyOwns isUser' h envp verdict h' := by
  unfold BodyOwns at howns ⊢
  split
  · exact howns
  · exact howns
  · exact howns
  · obtain ⟨hown, huser, hget⟩ := howns
    exact ⟨hown, himp _ huser, hget⟩

theorem readUser_isUser {t t' stand : List UInt8} {pw' : Passwd}
    (huser : readUser getpwnam pw t = .ok (pw', t', stand)) :
    UserOf getpwnam pw t (bzeroPasswd pw') := by
  unfold readUser at huser
  cases pw with
  | some pw =>
      cases huser
      rfl
  | none =>
      dsimp only at huser
      split at huser
      · cases huser
      · split at huser
        · cases huser
        · next hname =>
          cases huser
          exact ⟨_, hname, rfl⟩

theorem readJob_owns (hbuilt : EnvBuilt h envp) (bits : Bitmaps)
    (flags : Nat) (t : List UInt8) :
    BodyOwns (UserOf getpwnam pw t) h envp
      (readJob getpwnam pw h envp fname bits flags t).verdict
      (readJob getpwnam pw h envp fname bits flags t).heap := by
  unfold readJob
  cases huser : readUser getpwnam pw t with
  | error r => exact Frame.refl h _
  | ok r =>
      obtain ⟨pw', t', stand⟩ := r
      have hprep := prepareJob_prepared hbuilt pw' fname
      dsimp only
      generalize prepareJob h envp pw' fname = r at hprep
      obtain ⟨r, h', log⟩ := r
      cases r with
      | error r =>
          obtain ⟨ecode, p⟩ := r
          cases p with
          | none => exact hprep
          | some p => exact hprep
      | ok p =>
          obtain ⟨⟨addrs, l, hown⟩, hget⟩ := hprep
          have hown' : Own h { h' with asked := h'.asked + 1 } p addrs l :=
            ⟨⟨hown.names.rep.frame (frame_request h') fun _ _ hS => hS,
              hown.names.nodup⟩,
              hown.frame.trans (frame_request h') fun _ _ hS => hS,
              hown.fresh⟩
          dsimp only
          split
          · exact ⟨addrs, l, hown⟩
          · unfold Heap.request
            dsimp only
            split
            · exact ⟨⟨addrs, l, hown'⟩, readUser_isUser huser, hget⟩
            · exact ⟨addrs, l, hown'⟩

theorem readLine_owns (hbuilt : EnvBuilt h envp) (flags : Nat)
    (t : List UInt8) :
    BodyOwns (fun pwd => ∃ flags bits flags' next,
        readSchedule flags t = .accepted bits flags' next
          ∧ UserOf getpwnam pw next pwd) h envp
      (readLine getpwnam pw h envp fname flags t).verdict
      (readLine getpwnam pw h envp fname flags t).heap := by
  unfold readLine
  cases hsched : readSchedule flags t with
  | accepted bits flags' next =>
      exact (readJob_owns hbuilt bits flags' next).mono fun pwd huser =>
        ⟨flags, bits, flags', next, hsched, huser⟩
  | rejected _ _ => exact Frame.refl h _

theorem readUseful_owns (hbuilt : EnvBuilt h envp) (t : List UInt8) :
    BodyOwns (IsUser getpwnam pw t) h envp
      (readUseful getpwnam pw h envp fname t).verdict
      (readUseful getpwnam pw h envp fname t).heap := by
  cases t with
  | nil => exact Frame.refl h _
  | cons c t =>
      unfold readUseful IsUser
      dsimp only
      by_cases hdash : c = dash
      · rw [if_pos hdash, List.head?_cons, hdash, if_pos rfl, List.tail_cons]
        split
        · split
          · exact Frame.refl h _
          · exact readLine_owns hbuilt dontLog t
        · exact Frame.refl h _
      · rw [if_neg hdash, List.head?_cons,
          if_neg fun h => hdash (Option.some.inj h)]
        exact readLine_owns hbuilt 0 (c :: t)

theorem loadBody_owns (hbuilt : EnvBuilt h envp) (file : Stream) :
    BodyOwns (IsUser getpwnam pw (usefulText file.rest)) h envp
      (loadBody getpwnam file pw h envp fname).verdict
      (loadBody getpwnam file pw h envp fname).heap := by
  have hshows := loadBody_shows getpwnam file pw h envp fname
  rw [hshows.verdict, hshows.heap]
  exact readUseful_owns hbuilt _

/-- The heap after the label `eof`, before the recovery: what was built of
an environment has been given back. -/
def Body.heapLeft (b : Body) : CHeap :=
  match b.verdict with
  | .eof _ (some envp) => envFree b.heap envp
  | _ => b.heap

theorem BodyOwns.kept {isUser : Passwd → Prop} {b : Body}
    (howns : BodyOwns isUser h envp b.verdict b.heap) :
    Frame h b.heap (fun _ => False)
      ∧ Frame h b.heapLeft (fun _ => False) := by
  unfold BodyOwns at howns
  unfold Body.heapLeft
  cases hverdict : b.verdict with
  | null =>
      rw [hverdict] at howns
      exact ⟨howns, howns⟩
  | eof ecode p =>
      rw [hverdict] at howns
      cases p with
      | none => exact ⟨howns, howns⟩
      | some p =>
          obtain ⟨addrs, l, hown⟩ := howns
          exact ⟨hown.frame, hown.envFree⟩
  | entry e =>
      rw [hverdict] at howns
      obtain ⟨⟨addrs, l, hown⟩, -⟩ := howns
      exact ⟨hown.frame, hown.frame⟩

/-- What a call returns, in terms of its body. -/
theorem loadEntry_body {fuel : Nat} {file : Stream} {errorFunc : Bool}
    {r : LoadResult}
    (hload : loadEntry fuel getpwnam file errorFunc pw h envp fname
      = some r) :
    r.heap = (loadBody getpwnam file pw h envp fname).heapLeft
      ∧ ∀ e, r.entry = some e →
        (loadBody getpwnam file pw h envp fname).verdict = .entry e := by
  unfold loadEntry at hload
  unfold Body.heapLeft
  dsimp only at hload
  split at hload
  · next e hverdict =>
    cases hload
    rw [hverdict]
    exact ⟨rfl, fun e' he => by cases he; rfl⟩
  · next hverdict =>
    cases hload
    rw [hverdict]
    exact ⟨rfl, fun e' he => by cases he⟩
  · next ecode p hverdict =>
    split at hload
    · cases hload
    · cases hload
      rw [hverdict]
      refine ⟨?_, fun e' he => by cases he⟩
      cases p with
      | none => rfl
      | some p => rfl

end

-- ======================================================= the variables

/-- The variables of a job. -/
structure JobVars (h : CHeap) (envp : Nat) (h' : CHeap) (e : Entry) :
    Prop where
  shell : envGet h' (bytes "SHELL") e.envp
    = some ((envGet h (bytes "SHELL") envp).getD pathBshell)
  home : envGet h' (bytes "HOME") e.envp
    = some ((envGet h (bytes "HOME") envp).getD e.pwd.pwDir.bytes)
  path : envGet h' (bytes "PATH") e.envp
    = some ((envGet h (bytes "PATH") envp).getD pathDefpath)
  logname : envGet h' (bytes "LOGNAME") e.envp = some e.pwd.pwName.bytes
  user : envGet h' (bytes "USER") e.envp = some e.pwd.pwName.bytes
  others : ∀ n, n ∉ [bytes "SHELL", bytes "HOME", bytes "PATH",
      bytes "LOGNAME", bytes "USER"] →
    envGet h' n e.envp = envGet h n envp

/-- The strings that depend on the record have room in the buffer. -/
structure PasswdFits (pwd : Passwd) : Prop where
  home : FitsEnvstr (bytes "HOME") pwd.pwDir.bytes
  logname : FitsEnvstr (bytes "LOGNAME") pwd.pwName.bytes
  user : FitsEnvstr (bytes "USER") pwd.pwName.bytes

theorem assign_apply {name value : List UInt8}
    (hfits : FitsEnvstr name value)
    (get : List UInt8 → Option (List UInt8)) (n : List UInt8) :
    assign name value get n = if n = name then some value else get n := by
  unfold assign
  rw [if_pos hfits, Function.update_apply]

theorem assignDefault_apply {name value : List UInt8}
    (hfits : FitsEnvstr name value)
    (get : List UInt8 → Option (List UInt8)) (n : List UInt8) :
    assignDefault name value get n
      = if n = name then some ((get name).getD value) else get n := by
  unfold assignDefault
  cases hold : get name with
  | none =>
      rw [if_pos rfl, assign_apply hfits]
      rfl
  | some old =>
      rw [if_neg (by simp)]
      by_cases hn : n = name
      · rw [if_pos hn, hn, hold, Option.getD_some]
      · rw [if_neg hn]

/-- The environment of a job name by name, if the strings of the user's
record fit their buffer. -/
theorem jobEnv_apply {pwd : Passwd} (hfits : PasswdFits pwd)
    (get : List UInt8 → Option (List UInt8)) (n : List UInt8) :
    jobEnv pwd get n
      = if n = bytes "USER" then some pwd.pwName.bytes
        else if n = bytes "LOGNAME" then some pwd.pwName.bytes
        else if n = bytes "PATH" then
          some ((get (bytes "PATH")).getD pathDefpath)
        else if n = bytes "HOME" then
          some ((get (bytes "HOME")).getD pwd.pwDir.bytes)
        else if n = bytes "SHELL" then
          some ((get (bytes "SHELL")).getD pathBshell)
        else get n := by
  have hshell : FitsEnvstr (bytes "SHELL") pathBshell := by decide
  have hpath : FitsEnvstr (bytes "PATH") pathDefpath := by decide
  unfold jobEnv
  rw [assign_apply hfits.user, assign_apply hfits.logname]
  simp only [assignDefault_apply hpath, assignDefault_apply hfits.home,
    assignDefault_apply hshell]
  rw [if_neg (show bytes "PATH" ≠ bytes "HOME" by decide),
    if_neg (show bytes "PATH" ≠ bytes "SHELL" by decide),
    if_neg (show bytes "HOME" ≠ bytes "SHELL" by decide)]

/-- The environment of a loaded job, from any environment that was made
and any line: SHELL, HOME and PATH are defaults, LOGNAME and USER are the
user's name whatever the environment said, everything else is as it was.
The user is the one given, or the one that the line names. The caller's
environment is untouched, whether the line is loaded or refused, and
before the recovery that a refused line needs. -/
theorem job_environment {getpwnam : CString → Option Passwd}
    {pw : Option Passwd} {h : CHeap} {envp : Nat} {fname : String}
    (hbuilt : EnvBuilt h envp) (file : Stream) :
    Kept h (loadBody getpwnam file pw h envp fname).heap envp
      ∧ Kept h (loadBody getpwnam file pw h envp fname).heapLeft envp
      ∧ ∀ fuel errorFunc r,
        loadEntry fuel getpwnam file errorFunc pw h envp fname = some r →
        Kept h r.heap envp
          ∧ (∀ n, envGet r.heap n envp = envGet h n envp)
          ∧ ∀ e, r.entry = some e →
            IsUser getpwnam pw (usefulText file.rest) e.pwd
              ∧ (PasswdFits e.pwd → JobVars h envp r.heap e) := by
  obtain ⟨addrs, l, hnames⟩ := hbuilt.names
  have howns : BodyOwns (IsUser getpwnam pw (usefulText file.rest)) h envp
      (loadBody getpwnam file pw h envp fname).verdict
      (loadBody getpwnam file pw h envp fname).heap :=
    loadBody_owns hbuilt file
  obtain ⟨hf, hleft⟩ := howns.kept
  refine ⟨hnames.rep.kept hf, hnames.rep.kept hleft, ?_⟩
  intro fuel errorFunc r hload
  obtain ⟨hheap, hentry⟩ := loadEntry_body hload
  have hkept : Kept h r.heap envp := by
    rw [hheap]
    exact hnames.rep.kept hleft
  refine ⟨hkept, ?_, ?_⟩
  · intro n
    have hsame : Names r.heap envp addrs l :=
      ⟨hkept.rep hnames.rep, hnames.nodup⟩
    rw [hsame.get, hnames.get]
  · intro e he
    have hverdict := hentry e he
    have hheap' : r.heap
        = (loadBody getpwnam file pw h envp fname).heap := by
      rw [hheap, Body.heapLeft, hverdict]
    rw [hverdict, ← hheap'] at howns
    obtain ⟨-, huser, hget⟩ := howns
    refine ⟨huser, fun hfits => ?_⟩
    have happly := fun n => (hget n).trans
      (jobEnv_apply hfits (fun m => envGet h m envp) n)
    refine ⟨?_, ?_, ?_, ?_, ?_, ?_⟩
    · rw [happly]
      rfl
    · rw [happly]
      rfl
    · rw [happly]
      rfl
    · rw [happly]
      rfl
    · rw [happly]
      rfl
    · intro n hn
      simp only [List.mem_cons, List.not_mem_nil, or_false, not_or] at hn
      obtain ⟨hshell, hhome, hpath, hlogname, huser⟩ := hn
      rw [happly, if_neg huser, if_neg hlogname, if_neg hpath,
        if_neg hhome, if_neg hshell]

/-- An environment with a login name of its own. -/
def otherLogname : Option Nat × CHeap :=
  envSet freshHeap 0 (CString.ofString "LOGNAME=mallory")

/-- The name is overridden in the environment of the job, and is as it was
in the caller's. -/
theorem logname_overridden :
    ∃ r e, loadEntry 64 rootOnly (Stream.ofBytes (bytes "@daily root true\n"))
          false none otherLogname.2 (otherLogname.1.getD 0) "crontab" = some r
      ∧ r.entry = some e
      ∧ JobVars otherLogname.2 (otherLogname.1.getD 0) r.heap e
      ∧ envGet r.heap (bytes "LOGNAME") (otherLogname.1.getD 0)
        = some (bytes "mallory") := by
  have hfresh : EnvBuilt freshHeap 0 :=
    .init (h := Heap.empty fun _ => true) rfl
  have hbuilt : EnvBuilt otherLogname.2 (otherLogname.1.getD 0) :=
    hfresh.set rfl
  have hsome : ((loadEntry 64 rootOnly
      (Stream.ofBytes (bytes "@daily root true\n")) false none
      otherLogname.2 (otherLogname.1.getD 0) "crontab").bind
        (·.entry)).isSome = true := by
    decide +kernel
  obtain ⟨e, he⟩ := Option.isSome_iff_exists.mp hsome
  obtain ⟨r, hload, hentry⟩ := Option.bind_eq_some_iff.mp he
  obtain ⟨-, -, hreturns⟩ := @job_environment rootOnly none _ _ "crontab"
    hbuilt (Stream.ofBytes (bytes "@daily root true\n"))
  obtain ⟨-, hget, hjob⟩ := hreturns 64 false r hload
  obtain ⟨⟨-, -, -, next, -, pw, hname, hpwd⟩, hvars⟩ := hjob e hentry
  have hroot : pw = rootPasswd := by
    unfold rootOnly at hname
    split at hname
    · exact (Option.some.inj hname).symm
    · cases hname
  have hfits : PasswdFits e.pwd := by
    rw [hpwd, hroot]
    exact ⟨by decide, by decide, by decide⟩
  refine ⟨r, e, hload, hentry, hvars hfits, ?_⟩
  rw [hget]
  decide +kernel

end Tinjac
