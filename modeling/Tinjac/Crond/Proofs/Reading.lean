/-
How a user's crontab is read.

`load_entry` needs memory for a job; if there is memory, what it makes of
a line does not depend on the heap, nor on the environment
(`readUseful_alike`). So there is one way to read a line (`NextLine`),
and every line is read by it (`next_line`): the program that checks a
crontab and the one that runs it see the same.
-/
import Tinjac.Crond.Text.Reading
import Tinjac.Crond.Model.Crontab
import Tinjac.Crond.Proofs.LoadUser
import Tinjac.Proofs.Granted
import Tinjac.Proofs.LineByLine

namespace Tinjac.Crond

open BlockHeap CHeap

theorem verdict_of_job {v : Verdict} (h : kindOf v = some .job) :
    ∃ e, v = .entry e := by
  cases v with
  | entry e => exact ⟨e, rfl⟩
  | eof ecode ev => cases h
  | null => cases h

theorem verdict_of_bad {v : Verdict} {ecode : Ecode}
    (h : kindOf v = some (.bad ecode)) : ∃ ev, v = .eof ecode ev := by
  cases v with
  | entry e => cases h
  | eof ecode' ev =>
      cases h
      exact ⟨ev, rfl⟩
  | null => cases h

-- ==================================================== without the heap

/-- Two readings of a line that came to the same. -/
structure Alike (b b' : BodyText) : Prop where
  kind : kindOf b.verdict = kindOf b'.verdict
  left : b.left = b'.left

section

variable {getpwnam : CString → Option Passwd} {pw : Option Passwd}
  {h h' : CHeap}

theorem readJob_alike (hg : AllGranted h) (hg' : AllGranted h')
    (envp envp' : Nat) (fname fname' : String) (bits : Bitmaps)
    (flags : Nat) (t : List UInt8) :
    Alike (readJob getpwnam pw h envp fname bits flags t)
      (readJob getpwnam pw h' envp' fname' bits flags t) := by
  cases huser : readUser getpwnam pw t with
  | error e =>
      unfold readJob
      rw [huser]
      exact ⟨rfl, rfl⟩
  | ok r =>
      obtain ⟨pw', t', stand⟩ := r
      obtain ⟨p, h1, log, hprep, hg1⟩ := hg.prepareJob envp pw' fname
      obtain ⟨p', h1', log', hprep', hg1'⟩ :=
        hg'.prepareJob envp' pw' fname'
      by_cases hcmd : t'.dropWhile (isToken lineTerms) = []
      · unfold readJob
        rw [huser]
        dsimp only
        rw [hprep, hprep']
        dsimp only
        rw [if_pos hcmd, if_pos hcmd]
        exact ⟨rfl, rfl⟩
      · rw [readJob_granted huser hcmd hprep (hg1 h1.asked),
          readJob_granted huser hcmd hprep' (hg1' h1'.asked)]
        exact ⟨rfl, rfl⟩

/-- With memory to spare, the heap and the environment do not show. -/
theorem readUseful_alike (hg : AllGranted h) (hg' : AllGranted h')
    (envp envp' : Nat) (fname fname' : String) (t : List UInt8) :
    Alike (readUseful getpwnam pw h envp fname t)
      (readUseful getpwnam pw h' envp' fname' t) := by
  have hline : ∀ flags t, Alike (readLine getpwnam pw h envp fname flags t)
      (readLine getpwnam pw h' envp' fname' flags t) := by
    intro flags t
    unfold readLine
    cases readSchedule flags t with
    | accepted bits flags next => exact readJob_alike hg hg' _ _ _ _ _ _ _
    | rejected ecode left => exact ⟨rfl, rfl⟩
  unfold readUseful
  cases t with
  | nil => exact ⟨rfl, rfl⟩
  | cons c t =>
      dsimp only
      by_cases hdash : c = dash
      · rw [if_pos hdash, if_pos hdash]
        by_cases hmay : mayDisableLog pw = true
        · rw [if_pos hmay, if_pos hmay]
          by_cases hnil : t = []
          · rw [if_pos hnil, if_pos hnil]
            exact ⟨rfl, rfl⟩
          · rw [if_neg hnil, if_neg hnil]
            exact hline dontLog t
        · rw [if_neg hmay, if_neg hmay]
          exact ⟨rfl, rfl⟩
      · rw [if_neg hdash, if_neg hdash]
        exact hline 0 (c :: t)

theorem readAlone_alike {pw : Passwd} (hg : AllGranted h) (envp : Nat)
    (fname : String) (t : List UInt8) :
    Alike (readUseful getpwnam (some pw) h envp fname (usefulText t))
      (readAlone getpwnam pw t) :=
  readUseful_alike hg (fun _ => rfl) envp 0 fname "" (usefulText t)

/-- A job that was given its memory needs no other. -/
theorem readUseful_job_alike (hg' : AllGranted h') {envp : Nat}
    {fname : String} {t : List UInt8}
    (hk : kindOf (readUseful getpwnam pw h envp fname t).verdict = some .job)
    (envp' : Nat) (fname' : String) :
    Alike (readUseful getpwnam pw h envp fname t)
      (readUseful getpwnam pw h' envp' fname' t) := by
  obtain ⟨hopt, next, hs, pw', t', stand, huser, hcmd, hgiven⟩ :=
    readUseful_entry_iff.mp (verdict_of_job hk)
  obtain ⟨bits, flags, hjob⟩ := @readUseful_job getpwnam pw t next hopt hs
  obtain ⟨p, h1, log, hprep, hlast⟩ := hgiven
  obtain ⟨p', h1', log', hprep', hlast'⟩ := hg'.jobGranted envp' pw' fname'
  rw [hjob, hjob, readJob_granted huser hcmd hprep hlast,
    readJob_granted huser hcmd hprep' hlast']
  exact ⟨rfl, rfl⟩

end

-- =========================================================== line numbers

/-- The line counter, and the newlines to come. -/
def lineSum (file : Stream) : Int :=
  file.lineNumber + file.rest.count newline

theorem lineSum_of_counted {start file : Stream} (h : Counted start file) :
    lineSum file = lineSum start := by
  obtain ⟨consumed, hrest, hcount⟩ := h
  unfold lineSum
  rw [hrest, List.count_append]
  push_cast
  omega

-- ============================================================ one call

section

variable {getpwnam : CString → Option Passwd} {h : CHeap} {envp : Nat}

theorem loadUser_ecode {pw : Option Passwd} {ch : Option UInt8}
    {file : Stream} {ecode : Ecode}
    (h : (Tinjac.loadUser getpwnam pw ch file).1 = .error ecode) :
    ecode ≠ .none := by
  unfold Tinjac.loadUser at h
  split at h
  · cases h
  · dsimp only at h
    split at h
    · cases h
      decide
    · split at h
      · cases h
        decide
      · cases h

theorem prepareEnv_some {pw : Passwd}
    (h0 : (prepareEnv h envp pw).1 = .none) :
    ∃ p, (prepareEnv h envp pw).2.1 = some p := by
  unfold prepareEnv at h0 ⊢
  split
  · next heq =>
    rw [heq] at h0
    cases h0
  · exact ⟨_, rfl⟩

theorem loadJob_ecode {pw : Option Passwd} {s : Sched} {ecode : Ecode}
    {ev : Option Nat}
    (hv : (loadJob getpwnam pw h envp s).verdict = .eof ecode ev) :
    ecode ≠ .none := by
  unfold loadJob at hv
  split at hv
  · next heq =>
    cases hv
    exact loadUser_ecode (congrArg Prod.fst heq)
  · split at hv
    · cases hv
      decide
    · next h1 hdup =>
      split at hv
      · dsimp only at hv
        split at hv
        · cases hv
          decide
        · split at hv
          · cases hv
          · cases hv
            decide
      · next hno heq =>
        cases hv
        intro hnone
        rw [hnone] at heq
        obtain ⟨p, hp⟩ := prepareEnv_some (congrArg Prod.fst heq)
        rw [heq] at hp
        exact hno p hnone hp

/-- A line that is rejected is rejected for something. -/
theorem loadBody_ecode {pw : Option Passwd} {file : Stream} {ecode : Ecode}
    {ev : Option Nat}
    (hv : (loadBody getpwnam file pw h envp).verdict = .eof ecode ev) :
    ecode ≠ .none := by
  have hline : ∀ {flags ch file},
      (loadLine getpwnam pw h envp flags ch file).verdict = .eof ecode ev →
      ecode ≠ .none := by
    intro flags ch file hv
    unfold loadLine at hv
    dsimp only at hv
    split at hv
    · exact loadJob_ecode hv
    · next hne =>
      cases hv
      exact hne
  unfold loadBody at hv
  dsimp only at hv
  split at hv
  · cases hv
  · split at hv
    · split at hv
      · split at hv
        · cases hv
        · exact hline hv
      · cases hv
        decide
    · exact hline hv

theorem kindOf_ne_setting (v : Verdict) : kindOf v ≠ some .setting := by
  cases v with
  | _ =>
      intro h
      cases h

/-- `error_func` is told of what is rejected. -/
theorem complaint_eq {pw : Option Passwd} {file : Stream} {k : LineKind}
    (hk : kindOf (loadBody getpwnam file pw h envp).verdict = some k) :
    complaint (loadBody getpwnam file pw h envp) = k.complaint := by
  unfold complaint
  cases hv : (loadBody getpwnam file pw h envp).verdict with
  | entry e =>
      rw [hv] at hk
      cases hk
      rfl
  | null =>
      rw [hv] at hk
      cases hk
  | eof ecode ev =>
      rw [hv] at hk
      cases hk
      dsimp only
      rw [if_pos (loadBody_ecode hv)]
      rfl

/-- An entry is returned for a job. -/
theorem loadEntry_job {pw : Option Passwd} {file : Stream} {fuel : Nat}
    {errorFunc : Option (String → String)} {r : LoadResult}
    (hload : loadEntry fuel getpwnam file errorFunc pw h envp = some r) :
    kindOf (loadBody getpwnam file pw h envp).verdict = some .job
      ↔ ∃ e, r.entry = some e := by
  unfold loadEntry at hload
  dsimp only at hload
  split at hload
  · next e hv =>
    cases hload
    rw [hv]
    exact ⟨fun _ => ⟨e, rfl⟩, fun _ => rfl⟩
  · next hv =>
    cases hload
    rw [hv]
    simp [kindOf]
  · next ecode ev hv =>
    rw [hv]
    split at hload
    · cases hload
    · cases hload
      simp [kindOf]

variable {pw : Passwd}

/-- A call of `load_entry` ends, unless reads fail. -/
theorem loadEntry_returns {pw : Option Passwd} {file : Stream}
    (hfails : file.fails = false) {fuel : Nat}
    (hfuel : file.rest.length + 2 ≤ fuel)
    (errorFunc : Option (String → String)) :
    ∃ r, loadEntry fuel getpwnam file errorFunc pw h envp = some r := by
  obtain ⟨r0, hload0, -⟩ := loadEntry_text getpwnam file false pw h envp ""
    hfails hfuel
  have hported := loadEntry_ported getpwnam pw h envp "" errorFunc fuel file
    false
  rw [hload0] at hported
  generalize loadEntry fuel getpwnam file errorFunc pw h envp = o at hported
  obtain ⟨-⟩ := hported
  exact ⟨_, rfl⟩

/-- What a call leaves of the file and what it returns, by what the
reading of its line says. -/
theorem loadEntry_reads {pw : Option Passwd} {file : Stream}
    (hfails : file.fails = false) {fuel : Nat}
    {errorFunc : Option (String → String)} {r : LoadResult}
    (hload : loadEntry fuel getpwnam file errorFunc pw h envp = some r) :
    r.file.rest
        = (readUseful getpwnam pw h envp "" (usefulText file.rest)).left
      ∧ lineSum r.file = lineSum file ∧ r.file.fails = false
      ∧ kindOf (loadBody getpwnam file pw h envp).verdict
        = kindOf (readUseful getpwnam pw h envp ""
          (usefulText file.rest)).verdict := by
  have hported := loadEntry_ported getpwnam pw h envp "" errorFunc fuel file
    false
  rw [hload] at hported
  generalize hload0 : Tinjac.loadEntry fuel getpwnam file false pw h envp ""
    = o at hported
  obtain ⟨hrel⟩ := hported
  have hshows := loadEntry_shows hfails hload0
  have hsound : Sound file r.file := by
    rw [hrel.file]
    exact loadEntry_sound hload0 .start
  have hbody := loadBody_shows getpwnam file pw h envp ""
  have hverdict := (loadBody_ported getpwnam pw h envp "" none file).verdict
  rw [hbody.verdict] at hverdict
  refine ⟨?_, lineSum_of_counted hsound.counted, hsound.fails.trans hfails,
    ?_⟩
  · rw [hrel.file, hshows.left]
    unfold readEntry BodyText.finish
    split
    · rfl
    · rfl
    · rfl
  · generalize (loadBody getpwnam file pw h envp).verdict = v' at hverdict
    generalize (readUseful getpwnam pw h envp ""
      (usefulText file.rest)).verdict = v at hverdict
    cases hverdict with
    | entry _ => rfl
    | eof _ _ => rfl
    | null => rfl

end

-- ================================================================ progress

theorem fieldsTaken_suffix {fs : List Field} {t next : List UInt8}
    (h : FieldsTaken fs t next) : next <:+ t := by
  induction fs generalizing t with
  | nil =>
      obtain rfl : t = next := h
      exact List.suffix_refl t
  | cons f fs ih =>
      obtain ⟨rs, after, rfl, -, -, hrest⟩ := h
      have hskip : skipField after <:+ after :=
        (List.dropWhile_suffix _).trans (List.dropWhile_suffix _)
      exact ((ih hrest).trans hskip).trans (List.suffix_append _ _)

theorem usefulText_suffix (t : List UInt8) : usefulText t <:+ t := by
  have hskip : ∀ t, skipIgnorable t <:+ t := by
    intro t
    fun_induction skipIgnorable t with
    | case1 => exact List.suffix_refl []
    | case2 t _ _ ih =>
        exact ih.trans ((List.tail_suffix _).trans (List.dropWhile_suffix _))
    | case3 t _ _ => exact List.suffix_refl t
  exact (List.dropWhile_suffix _).trans (hskip t)

theorem scheduleTaken_suffix {t next : List UInt8}
    (h : ScheduleTaken (afterOption t) next) : next <:+ t := by
  have hopt : afterOption t <:+ t := by
    unfold afterOption
    split
    · exact List.tail_suffix t
    · exact List.suffix_refl t
  refine List.IsSuffix.trans ?_ hopt
  have htaken := h.taken
  split at htaken
  · rw [htaken.left]
    exact (List.dropWhile_suffix _).trans
      ((List.dropWhile_suffix _).trans (List.tail_suffix _))
  · exact fieldsTaken_suffix htaken

section

variable {getpwnam : CString → Option Passwd} {pw : Passwd}
  {t : List UInt8}

/-- A job takes its line, and leaves what is behind. -/
theorem job_left (hk : kindOf (readAlone getpwnam pw t).verdict = some .job) :
    (readAlone getpwnam pw t).left.length < (usefulText t).length := by
  unfold readAlone at hk ⊢
  generalize usefulText t = u at hk ⊢
  obtain ⟨hopt, next, hs, pw', t', stand, huser, hcmd, hg⟩ :=
    readUseful_entry_iff.mp (verdict_of_job hk)
  obtain ⟨bits, flags, hjob⟩ :=
    @readUseful_job getpwnam (some pw) u next hopt hs
  obtain ⟨envp', h', log, hprep, hgranted⟩ := hg
  rw [hjob, readJob_granted huser hcmd hprep hgranted]
  -- the user of the table has no name in it
  have hsame : next = t' := by
    unfold readUser at huser
    cases huser
    rfl
  have hle : (t'.dropWhile (isToken lineTerms)).length ≤ u.length := by
    rw [← hsame]
    exact ((List.dropWhile_suffix _).trans
      (scheduleTaken_suffix hs)).length_le
  have hpos := List.length_pos_iff.mpr hcmd
  show (t'.dropWhile (isToken lineTerms)).tail.length < u.length
  rw [List.length_tail]
  omega

/-- What is left behind an error. -/
theorem bad_left {ecode : Ecode}
    (hk : kindOf (readAlone getpwnam pw t).verdict = some (.bad ecode)) :
    (¬ Swallows (some pw) (usefulText t)
        ∧ (readAlone getpwnam pw t).left = dropLine (usefulText t))
      ∨ (Swallows (some pw) (usefulText t)
        ∧ (readAlone getpwnam pw t).left
          = dropLine (dropLine (usefulText t))) := by
  have hshows := loadBody_shows getpwnam (Stream.ofBytes t) (some pw)
    (Heap.empty fun _ => true) 0 ""
  have hbody : BodyShows (readAlone getpwnam pw t) false _ := hshows
  obtain ⟨ev, hv⟩ := verdict_of_bad hk
  have hleft := hbody.left
  rw [hv] at hleft
  have hleft : recovered _ _ = (readAlone getpwnam pw t).left := hleft
  rw [recovered_eq] at hleft
  have hstands := loadBody_stands getpwnam (Stream.ofBytes t) (some pw)
    (Heap.empty fun _ => true) 0 "" (hbody.verdict.trans hv)
  rcases hstands with ⟨hno, hend⟩ | ⟨hswallow, hend⟩
  · exact Or.inl ⟨hno, hleft.symm.trans (congrArg List.tail hend)⟩
  · refine Or.inr ⟨hswallow, hleft.symm.trans ?_⟩
    rw [hend]
    rfl

theorem NextLine.more {k : LineKind} {next : List UInt8}
    (h : NextLine getpwnam pw t k next) : afterLine t ≠ [] := by
  cases h with
  | setting more _ => exact more
  | entry more _ _ => exact more

/-- Every line takes something of the text, so a loop over lines comes to
its end. -/
theorem NextLine.length_lt {k : LineKind} {next : List UInt8}
    (h : NextLine getpwnam pw t k next) : next.length < t.length := by
  have hsuffix := (usefulText_suffix t).length_le
  have hafter : afterLine t ≠ [] → 0 < (afterLine t).length
      ∧ (afterLine t).length ≤ (usefulText t).length := fun h =>
    ⟨List.length_pos_iff.mpr h, (List.dropWhile_suffix _).length_le⟩
  cases h with
  | setting more text =>
      have := hafter more
      rw [List.length_tail]
      omega
  | entry more refused kind =>
      have := hafter more
      have hne : usefulText t ≠ [] := List.length_pos_iff.mp (by omega)
      have hdrop := dropLine_length_lt hne
      cases k with
      | setting => exact absurd kind (kindOf_ne_setting _)
      | job =>
          have := job_left kind
          omega
      | bad ecode =>
          rcases bad_left kind with ⟨-, hleft⟩ | ⟨-, hleft⟩
          · rw [hleft]
            omega
          · rw [hleft]
            have hle : (dropLine (dropLine (usefulText t))).length
                ≤ (dropLine (usefulText t)).length :=
              ((List.tail_suffix _).trans
                (List.dropWhile_suffix _)).length_le
            omega

end

-- ============================================================= load_env

/-- `load_env` counts the lines it takes, and none that it goes back
over. -/
theorem loadEnv_counted {envstr envstr' : List UInt8} {file f : Stream}
    {status : EnvStatus} (h : loadEnv envstr file = some (status, envstr', f)) :
    lineSum f = lineSum file ∧ f.fails = file.fails := by
  have hskip := skipComments_sound (@Sound.start file)
  have hget := (getString_reading maxEnvstr (bytes "\n") hskip).sound
  unfold loadEnv at h
  dsimp only at h
  generalize getString maxEnvstr (skipComments file) (bytes "\n") = r
    at h hget
  obtain ⟨string, ch, f1⟩ := r
  have hread : lineSum f1 = lineSum file ∧ f1.fails = file.fails :=
    ⟨lineSum_of_counted hget.counted, hget.fails⟩
  split at h
  · cases h
    exact hread
  · split at h
    · cases h
    · split at h
      · cases h
        exact ⟨rfl, hread.2⟩
      · dsimp only at h
        generalize (if _ = EnvScanState.value then _ else _) = val at h
        split at h
        · cases h
          exact hread
        · cases h
          exact hread

section

variable {getpwnam : CString → Option Passwd} {pw : Passwd}

/-- A line that is not the last is a setting, or is read by
`load_entry`. -/
theorem next_line {t : List UInt8} (hclosed : ¬ EndsOpen (envLine t))
    (hmore : afterLine t ≠ []) :
    (∃ name value, SettingText (envLine t) name value)
      ∨ readSetting (envLine t) = .refused
        ∧ (∀ name value, ¬ SettingText (envLine t) name value)
        ∧ ∃ k, kindOf (readAlone getpwnam pw t).verdict = some k := by
  cases hread : readSetting (envLine t) with
  | setting name value => exact Or.inl ⟨name, value, readSetting_iff.mp hread⟩
  | opened q name =>
      refine absurd ?_ hclosed
      cases name with
      | none => exact Or.inr ⟨q, readSetting_quote hread⟩
      | some name => exact Or.inl ⟨q, name, readSetting_opened.mp hread⟩
  | refused =>
      refine Or.inr ⟨rfl, ?_, ?_⟩
      · intro name value htext
        rw [readSetting_iff.mpr htext] at hread
        cases hread
      · cases hv : (readAlone getpwnam pw t).verdict with
        | entry e => exact ⟨.job, rfl⟩
        | eof ecode ev => exact ⟨.bad ecode, rfl⟩
        | null =>
            exfalso
            apply hmore
            unfold afterLine
            rcases readUseful_null_iff.mp hv with hnil | ⟨hdash, -⟩
            · rw [hnil]
              rfl
            · rw [hdash]
              decide

/-- There is a way to read it. -/
theorem exists_nextLine {t : List UInt8} (hclosed : ¬ EndsOpen (envLine t))
    (hmore : afterLine t ≠ []) :
    ∃ k next, NextLine getpwnam pw t k next := by
  rcases @next_line getpwnam pw t hclosed hmore with
    ⟨name, value, htext⟩ | ⟨-, hno, k, hk⟩
  · exact ⟨_, _, .setting hmore htext⟩
  · exact ⟨_, _, .entry hmore hno hk⟩

/-- There is one way to read a line. -/
theorem NextLine.unique {t next next' : List UInt8} {k k' : LineKind}
    (h : NextLine getpwnam pw t k next)
    (h' : NextLine getpwnam pw t k' next') : k = k' ∧ next = next' := by
  cases h with
  | setting more text =>
      cases h' with
      | setting _ _ => exact ⟨rfl, rfl⟩
      | entry _ refused _ => exact absurd text (refused _ _)
  | entry more refused kind =>
      cases h' with
      | setting _ text => exact absurd text (refused _ _)
      | entry _ _ kind' =>
          rw [kind] at kind'
          injection kind' with hk
          exact ⟨hk, rfl⟩

/-- A line that does not end where a quote opens, above others. -/
theorem Closed.above {t next : List UInt8} {k : LineKind}
    (hnext : NextLine getpwnam pw t k next) (hopen : ¬ EndsOpen (envLine t))
    (hclosed : Closed getpwnam pw next) : Closed getpwnam pw t := by
  intro ks u hreads
  cases hreads with
  | none => exact hopen
  | line first rest =>
      obtain ⟨-, rfl⟩ := hnext.unique first
      exact hclosed _ u rest

theorem not_endsOpen_of_refused {l : List UInt8}
    (h : readSetting l = .refused) : ¬ EndsOpen l := by
  intro hopen
  obtain ⟨q, name, hread⟩ := hopen.opened
  rw [h] at hread
  cases hread

/-- A line that `load_env` refuses. -/
theorem NextLine.of_refused {t : List UInt8} {k : LineKind}
    (hmore : afterLine t ≠ []) (hread : readSetting (envLine t) = .refused)
    (hk : kindOf (readAlone getpwnam pw t).verdict = some k) :
    NextLine getpwnam pw t k (readAlone getpwnam pw t).left := by
  refine .entry hmore (fun name value htext => ?_) hk
  rw [readSetting_iff.mpr htext] at hread
  cases hread

/-- What is behind the last newline. -/
theorem Closed.last {t : List UInt8} (hend : afterLine t = [])
    (hopen : ¬ EndsOpen (envLine t)) : Closed getpwnam pw t := by
  intro ks u hreads
  cases hreads with
  | none => exact hopen
  | line first _ => exact absurd hend first.more

end

end Tinjac.Crond
