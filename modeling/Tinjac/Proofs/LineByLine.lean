/-
Calls of `load_entry` and the lines of a text.

# One call

A call takes up the first line that is neither blank nor a comment. It
leaves the text behind that line unless the line's own newline was
swallowed (`Swallows`), or the command ended at a NUL with more of the
line behind it (`SplitByNul`): `loadEntry_left_iff`.

# Many calls

A run of calls threads the stream and the heap. As long as each call
leaves the text behind its line, the n-th call takes up the n-th useful
line, and a line is read the same in the text and alone
(`readUseful_alone`); the induction is on the run (`LoadRun.one_by_one`).
-/
import Tinjac.Proofs.Ending
import Tinjac.Proofs.OneLine

namespace Tinjac

open Span BlockHeap CHeap

-- =================================================== where a job stops

theorem fieldsTaken_lineEnd {fs : List Field} {t next : List UInt8}
    (h : FieldsTaken fs t next) : lineEnd next = lineEnd t := by
  induction fs generalizing t with
  | nil => rw [show t = next from h]
  | cons f fs ih =>
      obtain ⟨rs, mid, hread, hrest⟩ := fieldsTaken_cons.mp h
      have hends := readList_ends f t
      rw [hread] at hends
      exact (ih hrest).trans hends

/-- A schedule is taken off its line. -/
theorem ScheduleTaken.lineEnd {t next : List UInt8}
    (h : ScheduleTaken t next) : lineEnd next = Tinjac.lineEnd t := by
  have htaken := h.taken
  by_cases hat : t.head? = some atSign
  · rw [if_pos hat] at htaken
    have hhead : t.head? ≠ some newline := by
      rw [hat]
      decide
    rw [htaken.left, lineEnd_dropWhile (by decide),
      lineEnd_dropWhile (by decide), lineEnd_tail hhead]
  · rw [if_neg hat] at htaken
    exact fieldsTaken_lineEnd htaken

/-- A schedule is taken off in one way. -/
theorem ScheduleTaken.unique {t next next' : List UInt8}
    (h : ScheduleTaken t next) (h' : ScheduleTaken t next') :
    next = next' := by
  obtain ⟨bits, flags, hread⟩ := (@readSchedule_leaves 0 t next).mpr h
  obtain ⟨bits', flags', hread'⟩ := (@readSchedule_leaves 0 t next').mpr h'
  rw [hread] at hread'
  injection hread'

/-- Fields that are taken swallow nothing. -/
theorem fieldsTaken_not_swallow {fs : List Field} {t next : List UInt8}
    (h : FieldsTaken fs t next) : ¬ FieldsSwallow fs t := by
  induction fs generalizing t with
  | nil => exact fun hs => hs
  | cons f fs ih =>
      obtain ⟨rs, mid, hread, hrest⟩ := fieldsTaken_cons.mp h
      rw [fieldsSwallow_cons, ← readList_eaten, hread]
      intro hs
      rcases hs with ⟨s, hs⟩ | ⟨rs', mid', hs, hswallow⟩
      · cases hs
      · injection hs with _ hmid
        rw [← hmid] at hswallow
        exact ih hrest hswallow

theorem afterOption_lineEnd (t : List UInt8) :
    lineEnd (afterOption t) = lineEnd t := by
  unfold afterOption
  split
  · next hdash =>
    apply lineEnd_tail
    rw [hdash]
    decide
  · rfl

section

variable {getpwnam : CString → Option Passwd} {pw : Option Passwd}
  {h : CHeap} {envp : Nat} {fname : String}

theorem readUser_lineEnd {t t' stand : List UInt8} {pw' : Passwd}
    (huser : readUser getpwnam pw t = .ok (pw', t', stand)) :
    lineEnd t' = lineEnd t := by
  unfold readUser at huser
  cases pw with
  | some pw =>
      cases huser
      rfl
  | none =>
      dsimp only at huser
      split at huser
      · cases huser
      · next hend =>
        rw [not_or] at hend
        split at huser
        · cases huser
        · cases huser
          rw [lineEnd_tail hend.2]
          exact lineEnd_dropWhile (by decide) t

/-- The line is read as its job, whatever the heap. -/
theorem readUseful_job {t next : List UInt8}
    (hopt : t.head? = some dash → mayDisableLog pw = true)
    (hs : ScheduleTaken (afterOption t) next) :
    ∃ bits flags, ∀ h envp fname,
      readUseful getpwnam pw h envp fname t
        = readJob getpwnam pw h envp fname bits flags next := by
  have hline : ∀ {flags : Nat} {u : List UInt8}, ScheduleTaken u next →
      ∃ bits fl, ∀ h envp fname,
        readLine getpwnam pw h envp fname flags u
          = readJob getpwnam pw h envp fname bits fl next := by
    intro flags u hu
    obtain ⟨bits, fl, hsched⟩ := (@readSchedule_leaves flags u next).mpr hu
    refine ⟨bits, fl, fun h envp fname => ?_⟩
    unfold readLine
    rw [hsched]
  cases t with
  | nil => exact absurd rfl hs.ne_nil
  | cons c l =>
      unfold readUseful
      dsimp only
      by_cases hdash : c = dash
      · rw [hdash, afterOption_dash] at hs
        simp only [if_pos hdash, if_pos (hopt (congrArg some hdash)),
          if_neg hs.ne_nil]
        exact hline hs
      · have hhead : (c :: l).head? ≠ some dash :=
          fun hd => hdash (Option.some.inj hd)
        rw [afterOption_none hhead] at hs
        simp only [if_neg hdash]
        exact hline hs

-- ============================================================ one call

/-- The line is taken, and its command ends at a NUL with something
behind it. -/
def SplitByNul (getpwnam : CString → Option Passwd) (pw : Option Passwd)
    (h : CHeap) (envp : Nat) (fname : String) (t : List UInt8) : Prop :=
  (t.head? = some dash → mayDisableLog pw = true)
    ∧ ∃ next pw' t' stand s, ScheduleTaken (afterOption t) next
      ∧ readUser getpwnam pw next = .ok (pw', t', stand)
      ∧ t'.dropWhile (isToken lineTerms) = nul :: s ∧ s ≠ []
      ∧ JobGranted h envp pw' fname

theorem SplitByNul.taken {t : List UInt8}
    (hsplit : SplitByNul getpwnam pw h envp fname t) :
    LineTaken getpwnam pw h envp fname t := by
  obtain ⟨hopt, next, pw', t', stand, s, hs, huser, hcmd, -, hg⟩ := hsplit
  refine ⟨hopt, next, hs, pw', t', stand, huser, ?_, hg⟩
  rw [hcmd]
  exact List.cons_ne_nil _ _

theorem not_splitByNul {t : List UInt8}
    (hv : ∀ e, (readUseful getpwnam pw h envp fname t).verdict ≠ .entry e) :
    ¬ SplitByNul getpwnam pw h envp fname t := by
  intro hsplit
  obtain ⟨e, he⟩ := readUseful_entry_iff.mpr hsplit.taken
  exact hv e he

theorem dropLine_eq_self {t : List UInt8} : dropLine t = t ↔ t = [] := by
  constructor
  · intro heq
    by_contra hne
    have hlt := dropLine_length_lt hne
    rw [heq] at hlt
    omega
  · intro hnil
    rw [hnil]
    rfl

/-- What a taken line leaves. -/
theorem taken_left_iff {t : List UInt8}
    (htaken : LineTaken getpwnam pw h envp fname t) :
    (readUseful getpwnam pw h envp fname t).left = dropLine t
      ↔ ¬ SplitByNul getpwnam pw h envp fname t := by
  obtain ⟨hopt, next, hs, pw', t', stand, huser, hcmd, hg⟩ := htaken
  obtain ⟨bits, flags, hjob⟩ :=
    @readUseful_job getpwnam pw t next hopt hs
  have hstop : lineEnd (t'.dropWhile (isToken lineTerms)) = lineEnd t := by
    rw [lineEnd_dropWhile (by decide), readUser_lineEnd huser, hs.lineEnd,
      afterOption_lineEnd]
  obtain ⟨c, s, hcons⟩ := List.exists_cons_of_ne_nil hcmd
  have hleft : (readUseful getpwnam pw h envp fname t).left = s := by
    obtain ⟨envp', h', log, hprep, hgranted⟩ := hg
    rw [hjob, readJob_granted huser hcmd hprep hgranted, hcons]
    rfl
  have hdrop : dropLine t = dropLine (c :: s) := by
    rw [dropLine_eq, ← hstop, hcons]
    rfl
  rw [hleft, hdrop, dropLine_cons]
  rcases stop_of_token hcons with hnul | hnl
  · rw [hnul] at hcons
    rw [hnul, if_neg (by decide), eq_comm, dropLine_eq_self]
    constructor
    · intro hnil hsplit
      obtain ⟨-, next2, pw2, t2, stand2, s2, hs2, huser2, hcons2, hne, -⟩ :=
        hsplit
      rw [← hs.unique hs2, huser] at huser2
      cases huser2
      rw [hcons] at hcons2
      injection hcons2 with _ hs'
      exact hne (hs'.symm.trans hnil)
    · intro hno
      by_contra hne
      exact hno ⟨hopt, next, pw', t', stand, s, hs, huser, hcons, hne, hg⟩
  · have hc : c = newline := by
      have hterms : lineTerms = [newline] := by decide
      rw [hterms] at hnl
      exact List.mem_singleton.mp hnl
    rw [if_pos hc]
    refine iff_of_true rfl ?_
    intro hsplit
    obtain ⟨-, next2, pw2, t2, stand2, s2, hs2, huser2, hcons2, -, -⟩ :=
      hsplit
    rw [← hs.unique hs2, huser] at huser2
    cases huser2
    rw [hcons] at hcons2
    injection hcons2 with hc' _
    rw [hc] at hc'
    exact absurd hc' (by decide)

/-- What a call that returned came to, whatever its fuel. -/
theorem loadEntry_shows {errorFunc : Bool} {file : Stream} {fuel : Nat}
    {r : LoadResult} (hfails : file.fails = false)
    (hload : loadEntry fuel getpwnam file errorFunc pw h envp fname
      = some r) :
    EntryShows (readEntry getpwnam errorFunc pw h envp fname file.rest)
      r := by
  obtain ⟨r', hload', hshows⟩ := loadEntry_text getpwnam file errorFunc pw h
    envp fname hfails (Nat.le_add_left (file.rest.length + 2) fuel)
  rw [loadEntry_mono hload] at hload'
  injection hload' with hr
  rw [hr]
  exact hshows

/-- The line is left behind whole: no newline of its own was swallowed,
unless it is the last one, and no NUL split it. -/
def KeepsLine (getpwnam : CString → Option Passwd) (pw : Option Passwd)
    (h : CHeap) (envp : Nat) (fname : String) (t : List UInt8) : Prop :=
  ¬ (Swallows pw t ∧ dropLine t ≠ [])
    ∧ ¬ SplitByNul getpwnam pw h envp fname t

theorem LineTaken.not_swallows {t : List UInt8}
    (htaken : LineTaken getpwnam pw h envp fname t) : ¬ Swallows pw t := by
  obtain ⟨-, next, hs, -⟩ := htaken
  intro ⟨_, hat, hswallow⟩
  have hfields := hs.taken
  rw [if_neg hat] at hfields
  exact fieldsTaken_not_swallow hfields hswallow

theorem readUseful_left_iff (getpwnam : CString → Option Passwd)
    (pw : Option Passwd) (h : CHeap) (envp : Nat) (fname : String)
    (file : Stream) :
    (readUseful getpwnam pw h envp fname (usefulText file.rest)).left
        = dropLine (usefulText file.rest)
      ↔ KeepsLine getpwnam pw h envp fname (usefulText file.rest) := by
  have hbody := loadBody_shows getpwnam file pw h envp fname
  unfold KeepsLine
  cases hv : (readUseful getpwnam pw h envp fname
      (usefulText file.rest)).verdict with
  | entry e =>
      have htaken := readUseful_entry_iff.mp ⟨e, hv⟩
      rw [taken_left_iff htaken]
      exact (and_iff_right fun hs => htaken.not_swallows hs.1).symm
  | null =>
      have hno := readUseful_null_iff.mp hv
      have hsplit : ¬ SplitByNul getpwnam pw h envp fname
          (usefulText file.rest) := by
        apply not_splitByNul
        rw [hv]
        exact fun e hc => by cases hc
      have hdrop : dropLine (usefulText file.rest) = [] := by
        rcases hno with hnil | ⟨hdash, -⟩
        · rw [hnil]
          rfl
        · rw [hdash]
          rfl
      rw [hdrop]
      refine iff_of_true ?_ ⟨fun hs => hs.2 rfl, hsplit⟩
      rcases hno with hnil | ⟨hdash, hmay⟩
      · rw [hnil]
        rfl
      · rw [hdash]
        unfold readUseful
        dsimp only
        rw [if_pos rfl, if_pos hmay, if_pos rfl]
  | eof ecode ev =>
      have hsplit : ¬ SplitByNul getpwnam pw h envp fname
          (usefulText file.rest) := by
        apply not_splitByNul
        rw [hv]
        exact fun e hc => by cases hc
      have hleft := hbody.left
      rw [hv] at hleft
      have hleft : recovered (loadBody getpwnam file pw h envp fname).ch
          (loadBody getpwnam file pw h envp fname).file
          = (readUseful getpwnam pw h envp fname
            (usefulText file.rest)).left := hleft
      rw [recovered_eq] at hleft
      rw [← hleft, and_iff_left hsplit]
      rcases loadBody_stands getpwnam file pw h envp fname
          (hbody.verdict.trans hv) with ⟨hno, hend⟩ | ⟨hs, heq⟩
      · exact iff_of_true (congrArg List.tail hend) (fun hs => hno hs.1)
      · rw [heq, dropLine_eq_self]
        constructor
        · exact fun hnil hs' => hs'.2 hnil
        · intro hkeeps
          by_contra hne
          exact hkeeps ⟨hs, hne⟩

theorem dropLine_skip (t : List UInt8) :
    dropLine (skipIgnorable t) = dropLine (usefulText t) :=
  (dropLine_dropBlanks (skipIgnorable t)).symm

/-- **One call** leaves the text behind its line iff the line is left
behind whole. -/
theorem loadEntry_left_iff {errorFunc : Bool} {file : Stream} {fuel : Nat}
    {r : LoadResult} (hfails : file.fails = false)
    (hload : loadEntry fuel getpwnam file errorFunc pw h envp fname
      = some r) :
    r.file.rest = dropLine (skipIgnorable file.rest)
      ↔ KeepsLine getpwnam pw h envp fname (usefulText file.rest) := by
  have hshows := loadEntry_shows hfails hload
  have hleft : r.file.rest
      = (readUseful getpwnam pw h envp fname (usefulText file.rest)).left := by
    rw [hshows.left]
    unfold readEntry BodyText.finish
    split
    · rfl
    · rfl
    · rfl
  rw [hleft, dropLine_skip]
  exact readUseful_left_iff getpwnam pw h envp fname file

end

-- =========================================================== the lines

/-- The lines of a text, each with its newline if it has one. -/
def linesOf (t : List UInt8) : List (List UInt8) :=
  if _h : t = [] then []
  else takeLine t :: linesOf (dropLine t)
termination_by t.length
decreasing_by exact dropLine_length_lt _h

/-- The lines that are neither blank nor a comment. -/
def entryLines (t : List UInt8) : List (List UInt8) :=
  (linesOf t).filter fun l => !ignorable l

theorem linesOf_cons {t : List UInt8} (h : t ≠ []) :
    linesOf t = takeLine t :: linesOf (dropLine t) := by
  rw [linesOf, dif_neg h]

theorem entryLines_nil : entryLines [] = [] := by
  unfold entryLines
  rw [linesOf, dif_pos rfl]
  rfl

theorem entryLines_ignorable {t : List UInt8} (h : ignorable t = true) :
    entryLines t = entryLines (dropLine t) := by
  by_cases hnil : t = []
  · rw [hnil]
    rfl
  · unfold entryLines
    rw [linesOf_cons hnil, List.filter_cons_of_neg]
    rw [ignorable_takeLine, h]
    decide

theorem entryLines_useful {t : List UInt8} (h : ignorable t = false) :
    entryLines t = takeLine t :: entryLines (dropLine t) := by
  have hnil : t ≠ [] := by
    intro hnil
    rw [hnil] at h
    exact absurd h (by decide)
  unfold entryLines
  rw [linesOf_cons hnil, List.filter_cons_of_pos]
  rw [ignorable_takeLine, h]
  rfl

/-- Skipping lines that are ignored skips no other. -/
theorem entryLines_skip (t : List UInt8) :
    entryLines (skipIgnorable t) = entryLines t := by
  fun_induction skipIgnorable t with
  | case1 => rfl
  | case2 t hne hign ih => rw [ih, entryLines_ignorable hign]
  | case3 => rfl

theorem skipIgnorable_cases (t : List UInt8) :
    skipIgnorable t = [] ∨ ignorable (skipIgnorable t) = false := by
  fun_induction skipIgnorable t with
  | case1 => exact Or.inl rfl
  | case2 t hne hign ih => exact ih
  | case3 t hne huse => exact Or.inr (by simpa using huse)

theorem usefulText_skip (t : List UInt8) :
    usefulText (skipIgnorable t) = usefulText t := by
  rcases skipIgnorable_cases t with hnil | huse
  · rw [hnil, usefulText_nil]
    unfold usefulText
    rw [hnil]
    rfl
  · rw [usefulText_useful huse]
    rfl

-- ================================================================ runs

section

variable (getpwnam : CString → Option Passwd) (errorFunc : Bool)
  (pw : Option Passwd) (envp : Nat) (fname : String)

/-- Calls of `load_entry`, each on what the one before it left. -/
inductive LoadRun : Stream → CHeap → List LoadResult → Prop
  | none {file : Stream} {h : CHeap} : LoadRun file h []
  | call {file : Stream} {h : CHeap} {fuel : Nat} {r : LoadResult}
      {rs : List LoadResult}
      (hload : loadEntry fuel getpwnam file errorFunc pw h envp fname
        = some r)
      (hrest : LoadRun r.file r.heap rs) : LoadRun file h (r :: rs)

/-- Every call keeps to its line: none swallows its newline where more is
behind it, and none stops at a NUL inside it. -/
def LinesKept : Stream → CHeap → List LoadResult → Prop
  | _, _, [] => True
  | file, h, r :: rs =>
      KeepsLine getpwnam pw h envp fname (usefulText file.rest)
        ∧ LinesKept r.file r.heap rs

/-- The call returned what it returns for the line alone. -/
def AsAlone (l : List UInt8) (h : CHeap) (r : LoadResult) : Prop :=
  ∃ fuel r', loadEntry fuel getpwnam (Stream.ofBytes l) errorFunc pw h envp
      fname = some r'
    ∧ r.entry = r'.entry ∧ r.heap = r'.heap ∧ r.log = r'.log

/-- The calls returned these lines, one by one, and then nothing. -/
def OneByOne : List (List UInt8) → CHeap → List LoadResult → Prop
  | _, _, [] => True
  | [], h, r :: rs =>
      (r.entry = none ∧ r.heap = h ∧ r.log = [])
        ∧ OneByOne [] r.heap rs
  | l :: ls, h, r :: rs =>
      AsAlone getpwnam errorFunc pw envp fname l h r
        ∧ OneByOne ls r.heap rs

end

section

variable {getpwnam : CString → Option Passwd} {errorFunc : Bool}
  {pw : Option Passwd} {envp : Nat} {fname : String}

/-- A call on a text with no line left. -/
theorem EntryShows.nothing {h : CHeap} {r : LoadResult} {t : List UInt8}
    (hshows : EntryShows (readEntry getpwnam errorFunc pw h envp fname t) r)
    (hnil : skipIgnorable t = []) :
    r.entry = none ∧ r.heap = h ∧ r.log = [] := by
  have huse : usefulText t = [] := by
    unfold usefulText
    rw [hnil]
    rfl
  obtain ⟨hentry, hheap, hlog, -⟩ := hshows
  unfold readEntry at hentry hheap hlog
  rw [huse] at hentry hheap hlog
  exact ⟨hentry, hheap, hlog⟩

/-- A call takes up the first line that is left. -/
theorem EntryShows.as_alone {h : CHeap} {r : LoadResult} {t : List UInt8}
    (hshows : EntryShows (readEntry getpwnam errorFunc pw h envp fname t) r)
    (huse : ignorable (skipIgnorable t) = false) :
    AsAlone getpwnam errorFunc pw envp fname (takeLine (skipIgnorable t)) h
      r := by
  obtain ⟨r', hload, hshows'⟩ := loadEntry_text getpwnam
    (Stream.ofBytes (takeLine (skipIgnorable t))) errorFunc pw h envp fname
    rfl (Nat.le_refl _)
  have hsame := @readUseful_alone getpwnam pw h envp fname _ huse
  rw [usefulText_skip] at hsame
  obtain ⟨hentry, hheap, hlog⟩ := @SameReturn.finish fname errorFunc _ _ hsame
  refine ⟨_, r', hload, ?_, ?_, ?_⟩
  · rw [hshows.entry, hshows'.entry]
    exact hentry
  · rw [hshows.heap, hshows'.heap]
    exact hheap
  · rw [hshows.log, hshows'.log]
    exact hlog

/-- **Many calls**: while no line is lost, they return the lines one by
one. -/
theorem LoadRun.one_by_one {file : Stream} {h : CHeap}
    {rs : List LoadResult}
    (hrun : LoadRun getpwnam errorFunc pw envp fname file h rs)
    (hfails : file.fails = false)
    (hkept : LinesKept getpwnam pw envp fname file h rs) :
    OneByOne getpwnam errorFunc pw envp fname (entryLines file.rest) h
      rs := by
  induction hrun with
  | none => exact trivial
  | @call file h fuel r rs hload hrest ih =>
      obtain ⟨hkeep, hkept⟩ := hkept
      have hshows := loadEntry_shows hfails hload
      have hleft := (loadEntry_left_iff hfails hload).mpr hkeep
      have hsound : Sound file r.file := loadEntry_sound hload .start
      have hnext := ih (hsound.fails.trans hfails) hkept
      rw [hleft] at hnext
      rw [← entryLines_skip]
      rcases skipIgnorable_cases file.rest with hnil | huse
      · rw [hnil] at hnext ⊢
        rw [entryLines_nil]
        rw [dropLine_nil, entryLines_nil] at hnext
        exact ⟨hshows.nothing hnil, hnext⟩
      · rw [entryLines_useful huse]
        exact ⟨hshows.as_alone huse, hnext⟩

/-- Recovery by lines: on a stream whose reads do not fail a call of
`load_entry` ends, and it leaves exactly the text behind the line it took
up if that line has a newline of its own that was not swallowed and no
NUL in it that ended the command; and in a run whose calls all do, the
calls return the lines that are neither blank nor comments, in order,
each as it is returned alone. -/
theorem loadEntry_line_by_line {file : Stream}
    (hfails : file.fails = false) (h : CHeap) :
    (∃ fuel r, loadEntry fuel getpwnam file errorFunc pw h envp fname
        = some r)
      ∧ (∀ fuel r, loadEntry fuel getpwnam file errorFunc pw h envp fname
          = some r →
        (r.file.rest = dropLine (skipIgnorable file.rest)
          ↔ KeepsLine getpwnam pw h envp fname (usefulText file.rest)))
      ∧ ∀ rs, LoadRun getpwnam errorFunc pw envp fname file h rs →
        LinesKept getpwnam pw envp fname file h rs →
        OneByOne getpwnam errorFunc pw envp fname (entryLines file.rest) h
          rs := by
  obtain ⟨r, hload, -⟩ := loadEntry_text getpwnam file errorFunc pw h envp
    fname hfails (Nat.le_refl _)
  refine ⟨⟨_, r, hload⟩, ?_, ?_⟩
  · intro fuel r hload
    exact loadEntry_left_iff hfails hload
  · intro rs hrun hkept
    exact hrun.one_by_one hfails hkept

end

-- ========================================================== two tables

/-- A nickname that is not in the table: rejected, and the next line is
left. -/
theorem unknown_nickname_left :
    ∃ fuel r, loadEntry fuel rootOnly (Stream.ofBytes (bytes "@x\n@y\n"))
        true none freshHeap 0 "crontab" = some r
      ∧ r.file.rest = bytes "@y\n" := by
  have huseful : usefulText (bytes "@x\n@y\n")
      = atSign :: bytes "x\n@y\n" := usefulText_at _
  obtain ⟨⟨fuel, r, hload⟩, hleft, -⟩ :=
    @loadEntry_line_by_line rootOnly true none 0 "crontab"
      (Stream.ofBytes (bytes "@x\n@y\n")) rfl freshHeap
  refine ⟨fuel, r, hload, ?_⟩
  rw [(hleft fuel r hload).mpr]
  · show dropLine (skipIgnorable (bytes "@x\n@y\n")) = _
    rw [dropLine_skip, huseful]
    decide
  · show KeepsLine rootOnly none freshHeap 0 "crontab"
      (usefulText (bytes "@x\n@y\n"))
    rw [huseful]
    refine ⟨fun hs => hs.1.2.1 rfl, ?_⟩
    intro hsplit
    obtain ⟨-, next, hschedule, -⟩ := hsplit.taken
    have hnick : NicknameTaken (bytes "x\n@y\n") next := hschedule.taken
    exact absurd hnick.known (by decide)

/-- A range the wrong way round at the end of its line, and a job. -/
def swallowedTable : List UInt8 := bytes "5-3\n0 0 * * * root true\n"

theorem swallowedTable_useful :
    usefulText swallowedTable = swallowedTable :=
  usefulText_cons (by decide) (by decide) _

theorem swallowedTable_swallows : Swallows none swallowedTable := by
  have hnumeral : ∀ c, isDigit c = true →
      (Num.digits [c]).Scanned minuteField.names := by
    intro c hc
    refine ⟨by simp, ?_, by simp [maxTempstr]⟩
    intro c' hc'
    rw [List.mem_singleton.mp hc']
    exact hc
  refine ⟨fun _ => rfl, by decide, Or.inl ?_⟩
  refine ⟨[], .span (.digits (bytes "5")) (.digits (bytes "3")) none,
    bytes "0 0 * * * root true\n", by simp, ?_, by decide⟩
  exact ⟨hnumeral _ (by decide), hnumeral _ (by decide),
    Or.inl ⟨by decide, rfl⟩⟩

/-- The job is lost with the line before it. -/
theorem next_job_swallowed :
    ∃ fuel r, loadEntry fuel rootOnly (Stream.ofBytes swallowedTable) true
        none freshHeap 0 "crontab" = some r
      ∧ r.file.rest ≠ dropLine (skipIgnorable swallowedTable) := by
  obtain ⟨r, hload, -⟩ := loadEntry_text rootOnly
    (Stream.ofBytes swallowedTable) true none freshHeap 0 "crontab" rfl
    (Nat.le_refl _)
  refine ⟨_, r, hload, ?_⟩
  intro hleft
  obtain ⟨hkeep, -⟩ := (loadEntry_left_iff rfl hload).mp hleft
  apply hkeep
  show Swallows none (usefulText swallowedTable)
    ∧ dropLine (usefulText swallowedTable) ≠ []
  rw [swallowedTable_useful]
  exact ⟨swallowedTable_swallows, by decide⟩

end Tinjac
