/-
`load_entry` here and in crond.

The two read the same lines in the same way: stage by stage they end
with the same code, leave the same stream and the same heap, and the
entries they return are the same but for the flag that crond does not
have (`loadEntry_ported`). So they go through a file alike, call by call
(`load_runs_ported`).

What is logged is worded differently, and is compared message by message
(`MessagePorted`): where the one cannot set a variable, refuses the `-`
option or rejects a line, so does the other, for the same reason.
-/
import Tinjac.Crond.Model.LoadEntry
import Tinjac.Proofs.LineByLine
import Tinjac.Proofs.Loaded
import Mathlib.Data.List.Forall2
import Mathlib.Data.Option.Defs

namespace Tinjac.Crond

open BlockHeap CHeap

-- ============================================================ relations

/-- Crond's flags, and those here: the month's may be more. -/
structure FlagsPorted (flags' flags : Nat) : Prop where
  none_here : hasFlag flags' monStar = false
  same_or : flags = flags' ∨ flags = flags' ||| monStar

/-- A schedule there and here, on the way through the fields. -/
structure SchedPorted (s' s : Sched) : Prop where
  ecode : s'.ecode = s.ecode
  bits : s'.bits = s.bits
  ch : s'.ch = s.ch
  file : s'.file = s.file
  flags : FlagsPorted s'.flags s.flags

/-- An entry there and here: but for the flag of the month they are the
same. -/
structure EntryPorted (e' e : Entry) : Prop where
  pwd : e'.pwd = e.pwd
  envp : e'.envp = e.envp
  cmd : e'.cmd = e.cmd
  bits : e'.bits = e.bits
  flags : FlagsPorted e'.flags e.flags

/-- What the body comes to, there and here. -/
inductive VerdictPorted : Verdict → Verdict → Prop
  | entry {e' e : Entry} (h : EntryPorted e' e) :
      VerdictPorted (.entry e') (.entry e)
  | eof (ecode : Ecode) (envp : Option Nat) :
      VerdictPorted (.eof ecode envp) (.eof ecode envp)
  | null : VerdictPorted .null .null

/-- The two messages about a variable that cannot be set. -/
def envMessages (fname : String) : List (String × String) :=
  [(cantSet "SHELL", "ERROR: can't set SHELL in " ++ fname),
   (cantSet "HOME", "ERROR: can't set HOME in " ++ fname),
   (cantSet "PATH", "ERROR can't set PATH in " ++ fname),
   (cantSet "LOGNAME", "ERROR can't set LOGNAME in " ++ fname),
   (cantSet "USER", "ERROR can't set USER in " ++ fname)]

/-- A message of crond, and the message here that says the same. -/
inductive MessagePorted (errorFunc' : Option (String → String))
    (fname : String) : String → String → Prop
  | cantSet {msg' msg : String} (h : (msg', msg) ∈ envMessages fname) :
      MessagePorted errorFunc' fname msg' msg
  | option :
      MessagePorted errorFunc' fname optionMsg (Tinjac.optionMsg fname)
  | error {report : String → String} (h : errorFunc' = some report)
      (ecode : Ecode) :
      MessagePorted errorFunc' fname (report (ecodes ecode))
        (errorMsg ecode fname)

section

variable (errorFunc' : Option (String → String)) (fname : String)

/-- The body there and here: it leaves the same stream and heap, and logs
the same messages, each in its own words. -/
structure BodyPorted (b' b : Body) : Prop where
  verdict : VerdictPorted b'.verdict b.verdict
  ch : b'.ch = b.ch
  file : b'.file = b.file
  heap : b'.heap = b.heap
  log : List.Forall₂ (MessagePorted errorFunc' fname) b'.log b.log

/-- The messages are the same if both have an `error_func` or neither
has. -/
structure ResultPorted (errorFunc : Bool) (r' r : LoadResult) : Prop where
  entry : Option.Rel EntryPorted r'.entry r.entry
  file : r'.file = r.file
  heap : r'.heap = r.heap
  log : errorFunc = errorFunc'.isSome →
    List.Forall₂ (MessagePorted errorFunc' fname) r'.log r.log

end

-- ================================================================ flags

/-- A flag is missing if its bit is. -/
theorem hasFlag_eq_false {flags flag : Nat} :
    hasFlag flags flag = false ↔ flags &&& flag = 0 := by
  unfold hasFlag
  exact bne_eq_false_iff_eq

/-- A flag other than the month's is set in both. -/
theorem FlagsPorted.or {flags' flags flag : Nat}
    (h : FlagsPorted flags' flags) (hflag : hasFlag flag monStar = false) :
    FlagsPorted (flags' ||| flag) (flags ||| flag) where
  none_here := by
    have hnone := h.none_here
    rw [hasFlag_eq_false] at hflag hnone ⊢
    rw [Nat.and_or_distrib_right, hnone, hflag]
    rfl
  same_or := by
    rcases h.same_or with heq | heq
    · exact Or.inl (by rw [heq])
    · refine Or.inr ?_
      rw [heq, Nat.or_assoc, Nat.or_assoc, Nat.or_comm monStar]

/-- Setting the flag of the month here makes no other difference. -/
theorem FlagsPorted.month {flags' flags : Nat}
    (h : FlagsPorted flags' flags) :
    FlagsPorted flags' (flags ||| monStar) where
  none_here := h.none_here
  same_or := by
    rcases h.same_or with heq | heq
    · exact Or.inr (by rw [heq])
    · refine Or.inr ?_
      rw [heq, Nat.or_assoc, Nat.or_self]

-- ========================================================= the schedule

section

variable {s' s : Sched}

/-- Two parts of a schedule one after the other. -/
theorem SchedPorted.andThen (h : SchedPorted s' s) {k' k : Sched → Sched}
    (hk : ∀ {s' s}, SchedPorted s' s → SchedPorted (k' s') (k s)) :
    SchedPorted (s'.andThen k') (s.andThen k) := by
  unfold Sched.andThen
  rw [h.ecode]
  split
  · exact hk h
  · exact h

/-- The fields that are read there as here. -/
theorem SchedPorted.field (h : SchedPorted s' s) (f : Field) {flag : Nat}
    (hflag : hasFlag flag monStar = false) (ecode : Ecode) :
    SchedPorted (loadField f flag ecode s') (loadField f flag ecode s) := by
  have hflags : FlagsPorted
      (if s'.ch = some star then s'.flags ||| flag else s'.flags)
      (if s.ch = some star then s.flags ||| flag else s.flags) := by
    rw [h.ch]
    split
    · exact h.flags.or hflag
    · exact h.flags
  unfold loadField
  rw [h.bits, h.file]
  rw [h.ch] at hflags ⊢
  exact { ecode := rfl, bits := rfl, ch := rfl, file := rfl, flags := hflags }

/-- The month, which has a flag of its own only here. -/
theorem SchedPorted.month (h : SchedPorted s' s) :
    SchedPorted (loadMonth s') (loadField monthField monStar .month s) := by
  have hflags : FlagsPorted s'.flags
      (if s.ch = some star then s.flags ||| monStar else s.flags) := by
    split
    · exact h.flags.month
    · exact h.flags
  unfold loadMonth loadField
  rw [h.bits, h.file, h.ch]
  exact { ecode := rfl, bits := rfl, ch := rfl, file := rfl, flags := hflags }

/-- The five fields, one after the other, the month with its flag here and
without one there. -/
theorem SchedPorted.fields (h : SchedPorted s' s) :
    SchedPorted (loadFields s') (Tinjac.loadFields s) := by
  unfold loadFields Tinjac.loadFields
  refine ((((h.field minuteField (by decide) .minute).andThen ?_).andThen
    ?_).andThen ?_).andThen ?_
  · exact fun hs => hs.field hourField (by decide) .hour
  · exact fun hs => hs.field domField (by decide) .dom
  · exact fun hs => hs.month
  · exact fun hs => hs.field dowField (by decide) .dow

/-- No nickname has the month's flag. -/
theorem setNickname_monStar (w : List UInt8) (bits : Bitmaps) :
    ∀ r, setNickname w bits 0 = some r → hasFlag r.2 monStar = false := by
  have hnone : ∀ flag ∈ [0 ||| whenReboot, 0 ||| dowStar, 0, 0 ||| hrStar],
      hasFlag flag monStar = false := by
    decide
  intro r hr
  apply hnone
  unfold setNickname at hr
  split at hr
  · cases hr
    simp
  · split at hr
    · cases hr
      simp
    · split at hr
      · cases hr
        simp
      · split at hr
        · cases hr
          simp
        · split at hr
          · cases hr
            simp
          · split at hr
            · cases hr
              simp
            · cases hr

/-- The nicknames set the same bits and flags, with the flag of the month
more here where the month is a star. -/
theorem SchedPorted.nickname (h : SchedPorted s' s) :
    SchedPorted (loadNickname s') (loadNickname s) := by
  unfold loadNickname
  rw [h.bits, h.file]
  dsimp only
  generalize getString maxCommand s.file (bytes " \t\n") = got
  obtain ⟨cmd, ch, file⟩ := got
  dsimp only
  rw [setNickname_flags _ s.bits s'.flags, setNickname_flags _ s.bits s.flags]
  cases hset : setNickname (CString.ofBuf cmd).bytes s.bits 0 with
  | none =>
      exact { ecode := rfl, bits := rfl, ch := rfl, file := rfl,
              flags := h.flags }
  | some r =>
      have hmon := setNickname_monStar _ _ r hset
      exact { ecode := rfl, bits := rfl, ch := rfl, file := rfl,
              flags := h.flags.or hmon }

/-- The end of a schedule looks at nothing that differs. -/
theorem SchedPorted.checkEol (h : SchedPorted s' s) :
    SchedPorted (checkEol s') (checkEol s) := by
  unfold Tinjac.checkEol
  dsimp only
  rw [h.bits, h.ch]
  split
  · exact { ecode := rfl, bits := rfl, ch := rfl, file := h.file,
            flags := h.flags }
  · exact { ecode := h.ecode, bits := rfl, ch := rfl, file := h.file,
            flags := h.flags }

/-- So a schedule of either kind is read there as here. -/
theorem SchedPorted.schedule (h : SchedPorted s' s) :
    SchedPorted (loadSchedule s') (Tinjac.loadSchedule s) := by
  unfold loadSchedule Tinjac.loadSchedule
  refine SchedPorted.andThen ?_ fun hs => hs.checkEol
  rw [h.ch]
  split
  · exact h.nickname
  · exact h.fields

end

-- ====================================================== the environment

/-- The same vector in the same heap, and the same was logged. -/
structure EnvPorted (errorFunc' : Option (String → String))
    (fname : String) (s' s : EnvState) : Prop where
  ecode : s'.ecode = s.ecode
  envp : s'.envp = s.envp
  heap : s'.heap = s.heap
  log : List.Forall₂ (MessagePorted errorFunc' fname) s'.log s.log

section

variable {errorFunc' : Option (String → String)} {fname : String}
  {s' s : EnvState}

/-- An assignment does the same, and if it does not fit logs it in its own
words. -/
theorem EnvPorted.setVar (h : EnvPorted errorFunc' fname s' s)
    (name value : List UInt8) {msg' msg : String}
    (hmsg : (msg', msg) ∈ envMessages fname) :
    EnvPorted errorFunc' fname (setVar name value msg' s')
      (setVar name value msg s) := by
  unfold Tinjac.setVar
  rw [h.envp, h.heap]
  split
  · split
    · exact { ecode := rfl, envp := rfl, heap := rfl, log := h.log }
    · exact { ecode := h.ecode, envp := rfl, heap := rfl, log := h.log }
  · exact { ecode := h.ecode, envp := rfl, heap := rfl,
            log := List.rel_append h.log (.cons (.cantSet hmsg) .nil) }

/-- So does one that is only made where there is no value. -/
theorem EnvPorted.defaultVar (h : EnvPorted errorFunc' fname s' s)
    (name value : List UInt8) {msg' msg : String}
    (hmsg : (msg', msg) ∈ envMessages fname) :
    EnvPorted errorFunc' fname (defaultVar name value msg' s')
      (defaultVar name value msg s) := by
  unfold Tinjac.defaultVar
  rw [h.envp, h.heap]
  split
  · exact h.setVar name value hmsg
  · exact h

/-- The assignments one after the other, as long as they go well. -/
theorem EnvPorted.andThen (h : EnvPorted errorFunc' fname s' s)
    {k' k : EnvState → EnvState}
    (hk : ∀ {s' s}, EnvPorted errorFunc' fname s' s →
      EnvPorted errorFunc' fname (k' s') (k s)) :
    EnvPorted errorFunc' fname (s'.andThen k') (s.andThen k) := by
  unfold EnvState.andThen
  rw [h.ecode]
  split
  · exact hk h
  · exact h

end

section

variable (errorFunc' : Option (String → String))

/-- The environment of a job is built by the same assignments in the same
order. -/
theorem prepareEnv_ported (h : CHeap) (envp : Nat) (pw : Passwd)
    (fname : String) :
    (prepareEnv h envp pw).1 = (Tinjac.loadEnv h envp pw fname).1
      ∧ (prepareEnv h envp pw).2.1 = (Tinjac.loadEnv h envp pw fname).2.1
      ∧ (prepareEnv h envp pw).2.2.1
        = (Tinjac.loadEnv h envp pw fname).2.2.1
      ∧ List.Forall₂ (MessagePorted errorFunc' fname)
        (prepareEnv h envp pw).2.2.2
        (Tinjac.loadEnv h envp pw fname).2.2.2 := by
  unfold prepareEnv Tinjac.loadEnv
  generalize envCopy h envp = copy
  obtain ⟨copied, h⟩ := copy
  cases copied with
  | none => exact ⟨rfl, rfl, rfl, .nil⟩
  | some p =>
    have hstart : EnvPorted errorFunc' fname
        { ecode := .none, envp := p, heap := h, log := [] }
        { ecode := .none, envp := p, heap := h, log := [] } :=
      ⟨rfl, rfl, rfl, .nil⟩
    have hall := ((((hstart.defaultVar (bytes "SHELL") pathBshell
        (.head _)).andThen
      fun hs => hs.defaultVar (bytes "HOME") pw.pwDir.bytes
        (.tail _ (.head _))).andThen
      fun hs => hs.defaultVar (bytes "PATH") pathDefpath
        (.tail _ (.tail _ (.head _)))).andThen
      fun hs => hs.setVar (bytes "LOGNAME") pw.pwName.bytes
        (.tail _ (.tail _ (.tail _ (.head _))))).andThen
      fun hs => hs.setVar (bytes "USER") pw.pwName.bytes
        (.tail _ (.tail _ (.tail _ (.tail _ (.head _)))))
    exact ⟨hall.ecode, congrArg some hall.envp, hall.heap, hall.log⟩

end

-- =========================================================== load_entry

section

variable (getpwnam : CString → Option Passwd) (pw : Option Passwd)
  (h : CHeap) (envp : Nat) (fname : String)
  (errorFunc' : Option (String → String))

/-- Username and command are read there as here, and cost the same
allocations. -/
theorem loadJob_ported {s' s : Sched} (hs : SchedPorted s' s) :
    BodyPorted errorFunc' fname (loadJob getpwnam pw h envp s')
      (Tinjac.loadJob getpwnam pw h envp fname s) := by
  unfold loadJob Tinjac.loadJob
  rw [hs.ch, hs.file]
  generalize Tinjac.loadUser getpwnam pw s.ch (ungetChar s.ch s.file) = user
  obtain ⟨who, ch, file⟩ := user
  cases who with
  | error ecode =>
      exact { verdict := .eof _ _, ch := rfl, file := rfl, heap := rfl
              log := .nil }
  | ok pw' =>
    dsimp only
    generalize pwDup h pw' = dup
    obtain ⟨copied, h'⟩ := dup
    cases copied with
    | none =>
        exact { verdict := .eof _ _, ch := rfl, file := rfl, heap := rfl
                log := .nil }
    | some pwd =>
      obtain ⟨hecode, henvp, hheap, hlog⟩ :=
        prepareEnv_ported errorFunc' h' envp pw' fname
      dsimp only
      generalize prepareEnv h' envp pw' = r' at *
      generalize Tinjac.loadEnv h' envp pw' fname = r at *
      obtain ⟨ecode', p', g', log'⟩ := r'
      obtain ⟨ecode, p, g, log⟩ := r
      dsimp only at hecode henvp hheap hlog
      subst hecode henvp hheap
      cases ecode' with
      | none =>
          cases p' with
          | none =>
              exact { verdict := .eof _ _, ch := rfl, file := rfl,
                      heap := rfl, log := hlog }
          | some p =>
              generalize getString maxCommand file (bytes "\n") = got
              obtain ⟨cmd, ch, file⟩ := got
              dsimp only
              split
              · exact { verdict := .eof _ _, ch := rfl, file := rfl,
                        heap := rfl, log := hlog }
              · split
                · exact { verdict := .entry { pwd := rfl, envp := rfl,
                                              cmd := rfl, bits := hs.bits,
                                              flags := hs.flags }
                          ch := rfl, file := rfl, heap := rfl, log := hlog }
                · exact { verdict := .eof _ _, ch := rfl, file := rfl,
                          heap := rfl, log := hlog }
      | _ => exact { verdict := .eof _ _, ch := rfl, file := rfl,
                     heap := rfl, log := hlog }

/-- A line from its first useful character on. -/
theorem loadLine_ported {flags : Nat} (hflags : hasFlag flags monStar = false)
    (ch : Option UInt8) (file : Stream) :
    BodyPorted errorFunc' fname (loadLine getpwnam pw h envp flags ch file)
      (Tinjac.loadLine getpwnam pw h envp fname flags ch file) := by
  have hstart : SchedPorted
      { ecode := .none, bits := .zero, flags := flags, ch := ch,
        file := file }
      { ecode := .none, bits := .zero, flags := flags, ch := ch,
        file := file } :=
    { ecode := rfl, bits := rfl, ch := rfl, file := rfl
      flags := ⟨hflags, Or.inl rfl⟩ }
  have hs := hstart.schedule
  unfold loadLine Tinjac.loadLine
  dsimp only
  rw [hs.ecode]
  split
  · exact loadJob_ported getpwnam pw h envp fname errorFunc' hs
  · exact { verdict := .eof _ _, ch := hs.ch, file := hs.file, heap := rfl
            log := .nil }

/-- **The body.** The two differ in how a message is put, and in the flag
of the month. -/
theorem loadBody_ported (file : Stream) :
    BodyPorted errorFunc' fname (loadBody getpwnam file pw h envp)
      (Tinjac.loadBody getpwnam file pw h envp fname) := by
  unfold loadBody Tinjac.loadBody
  dsimp only
  split
  · exact { verdict := .null, ch := rfl, file := rfl, heap := rfl
            log := .nil }
  · split
    · split
      · split
        · exact { verdict := .null, ch := rfl, file := rfl, heap := rfl
                  log := .nil }
        · exact loadLine_ported getpwnam pw h envp fname errorFunc'
            (by decide) _ _
      · exact { verdict := .eof _ _, ch := rfl, file := rfl, heap := rfl
                log := .cons .option .nil }
    · exact loadLine_ported getpwnam pw h envp fname errorFunc' (by decide)
        _ _

/-- One call: on every stream, in either mode and under any pattern of
allocation failures, `load_entry` here and in crond return together,
leave the same stream and the same heap, and both reject, or both return
an entry: the same one, but for the flag of a month with a star. If both
have an `error_func` then the same is logged, error by error. -/
theorem loadEntry_ported (fuel : Nat) (file : Stream) (errorFunc : Bool) :
    Option.Rel (ResultPorted errorFunc' fname errorFunc)
      (loadEntry fuel getpwnam file errorFunc' pw h envp)
      (Tinjac.loadEntry fuel getpwnam file errorFunc pw h envp fname) := by
  have hbody := loadBody_ported getpwnam pw h envp fname errorFunc' file
  unfold loadEntry Tinjac.loadEntry
  dsimp only
  have hverdict := hbody.verdict
  have hlog := hbody.log
  generalize (loadBody getpwnam file pw h envp).verdict = v' at *
  generalize (Tinjac.loadBody getpwnam file pw h envp fname).verdict = v at *
  cases hverdict with
  | entry he =>
      exact .some { entry := .some he, file := hbody.file,
                    heap := hbody.heap, log := fun _ => hlog }
  | null =>
      exact .some { entry := .none, file := hbody.file, heap := hbody.heap
                    log := fun _ => hlog }
  | eof ecode p =>
      dsimp only
      rw [hbody.ch, hbody.file, hbody.heap]
      cases skipLine fuel (Tinjac.loadBody getpwnam file pw h envp fname).ch
          (Tinjac.loadBody getpwnam file pw h envp fname).file with
      | none => exact .none
      | some file =>
          refine .some { entry := .none, file := rfl, heap := rfl
                         log := fun hboth => ?_ }
          rw [hboth]
          cases hfunc : errorFunc' with
          | none =>
              rw [hfunc] at hlog
              dsimp only
              rw [if_neg (fun h => Bool.noConfusion h.2)]
              exact hlog
          | some report =>
              rw [hfunc] at hlog
              dsimp only
              by_cases hnone : ecode = .none
              · rw [if_neg (not_not.mpr hnone), if_neg (fun h => h.1 hnone)]
                exact hlog
              · rw [if_pos hnone, if_pos ⟨hnone, rfl⟩]
                exact List.rel_append hlog (.cons (.error rfl ecode) .nil)

/-- An entry here is an entry in crond. -/
theorem loadEntry_of_entry {fuel : Nat} {file : Stream} {errorFunc : Bool}
    {r : LoadResult} {e : Entry}
    (hr : Tinjac.loadEntry fuel getpwnam file errorFunc pw h envp fname
      = some r) (he : r.entry = some e)
    (errorFunc' : Option (String → String)) :
    ∃ r' e', loadEntry fuel getpwnam file errorFunc' pw h envp = some r'
      ∧ r'.entry = some e' ∧ EntryPorted e' e ∧ r'.file = r.file
      ∧ r'.heap = r.heap := by
  have hported := loadEntry_ported getpwnam pw h envp fname errorFunc' fuel
    file errorFunc
  rw [hr] at hported
  generalize loadEntry fuel getpwnam file errorFunc' pw h envp = o at *
  obtain ⟨hrel⟩ := hported
  rename_i r'
  have hentry := hrel.entry
  rw [he] at hentry
  generalize ho : r'.entry = o at hentry
  obtain ⟨hsame⟩ := hentry
  exact ⟨r', _, rfl, ho, hsame, hrel.file, hrel.heap⟩

end

-- ================================================================ runs

section

variable (getpwnam : CString → Option Passwd) (pw : Option Passwd)
  (envp : Nat)

/-- Calls of crond's `load_entry`, each on what the one before it
left. -/
inductive LoadRun (errorFunc : Option (String → String)) :
    Stream → CHeap → List LoadResult → Prop
  | none {file : Stream} {h : CHeap} : LoadRun errorFunc file h []
  | call {file : Stream} {h : CHeap} {fuel : Nat} {r : LoadResult}
      {rs : List LoadResult}
      (hload : loadEntry fuel getpwnam file errorFunc pw h envp = some r)
      (hrest : LoadRun errorFunc r.file r.heap rs) :
      LoadRun errorFunc file h (r :: rs)

/-- **The port.** Called again and again on a file, in either mode and
under any pattern of allocation failures, `load_entry` here and in crond
return the same results one after the other: both reject, or both return
the same entry but for the flag of a month with a star, and each leaves
the same of the file and the same heap to the next call. If both have an
`error_func` then every call logs the same: crond tells its `error_func`
of exactly the errors that are reported here. -/
theorem load_runs_ported (errorFunc' : Option (String → String))
    (errorFunc : Bool) (fname : String) (file : Stream) (h : CHeap) :
    (∀ rs', LoadRun getpwnam pw envp errorFunc' file h rs' →
        ∃ rs, Tinjac.LoadRun getpwnam errorFunc pw envp fname file h rs
          ∧ List.Forall₂ (ResultPorted errorFunc' fname errorFunc) rs' rs)
      ∧ ∀ rs, Tinjac.LoadRun getpwnam errorFunc pw envp fname file h rs →
        ∃ rs', LoadRun getpwnam pw envp errorFunc' file h rs'
          ∧ List.Forall₂ (ResultPorted errorFunc' fname errorFunc) rs' rs := by
  refine ⟨?_, ?_⟩
  · intro rs' hrun
    induction hrun with
    | none => exact ⟨[], .none, .nil⟩
    | @call file h fuel r' rs' hload hrest ih =>
        have hported := loadEntry_ported getpwnam pw h envp fname
          errorFunc' fuel file errorFunc
        rw [hload] at hported
        generalize hr : Tinjac.loadEntry fuel getpwnam file errorFunc pw h
          envp fname = o at hported
        obtain ⟨hrel⟩ := hported
        rename_i r
        obtain ⟨rs, hrun, hall⟩ := ih
        rw [hrel.file, hrel.heap] at hrun
        exact ⟨r :: rs, .call hr hrun, .cons hrel hall⟩
  · intro rs hrun
    induction hrun with
    | none => exact ⟨[], .none, .nil⟩
    | @call file h fuel r rs hload hrest ih =>
        have hported := loadEntry_ported getpwnam pw h envp fname
          errorFunc' fuel file errorFunc
        rw [hload] at hported
        generalize hr : loadEntry fuel getpwnam file errorFunc' pw h envp
          = o at hported
        obtain ⟨hrel⟩ := hported
        rename_i r'
        obtain ⟨rs', hrun, hall⟩ := ih
        rw [← hrel.file, ← hrel.heap] at hrun
        exact ⟨r' :: rs', .call hr hrun, .cons hrel hall⟩

end

end Tinjac.Crond
