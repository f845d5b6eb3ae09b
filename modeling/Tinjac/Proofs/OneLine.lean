/-
A line is read the same in a file and alone.

Every stage of `load_entry` decides within its line (`readList_append`):
behind a newline any text may follow, and what is returned is the same.
The stages are followed in the order of the source, each with the
newline still before it (`SchedText.Extends`, `readUser_append`). So the
first useful line of a text can be cut out and read on its own
(`readUseful_alone`).
-/
import Tinjac.Proofs.LineEnds

namespace Tinjac

open Span BlockHeap CHeap

-- ======================================================== the schedule

/-- The schedule is read the same with more text behind its line. -/
def SchedText.Extends (r : List UInt8) (s s' : SchedText) : Prop :=
  match s with
  | .accepted bits flags next =>
      s' = .accepted bits flags (next ++ r) ∧ newline ∈ next
  | .rejected ecode _ => ∃ left, s' = .rejected ecode left

/-- Two readers of a schedule one after the other, if the first has left
the newline. -/
theorem SchedText.Extends.bind {r : List UInt8} {s s' : SchedText}
    {k : Bitmaps → Nat → List UInt8 → SchedText} (h : s.Extends r s')
    (hk : ∀ bits flags next, newline ∈ next →
      (k bits flags next).Extends r (k bits flags (next ++ r))) :
    (s.bind k).Extends r (s'.bind k) := by
  cases s with
  | accepted bits flags next =>
      obtain ⟨rfl, hnl⟩ := h
      exact hk bits flags next hnl
  | rejected ecode left =>
      obtain ⟨left', rfl⟩ := h
      exact ⟨left', rfl⟩

section

variable {t : List UInt8} (r : List UInt8)

/-- A field does not look behind the line. -/
theorem readField_extends (f : Field) (flag : Nat) (ecode : Ecode)
    (bits : Bitmaps) (flags : Nat) (ht : newline ∈ t) :
    (readField f flag ecode bits flags t).Extends r
      (readField f flag ecode bits flags (t ++ r)) := by
  have hends := readList_ends f t
  unfold readField starFlag
  rw [readList_append f ht, head_append (List.ne_nil_of_mem ht)]
  cases hread : readList f t with
  | done rs next =>
      rw [hread] at hends
      exact ⟨rfl, mem_newline_of_lineEnd hends ht⟩
  | fail left => exact ⟨_, rfl⟩
  | eaten next => exact ⟨_, rfl⟩

/-- Nor do the five of them. -/
theorem readFields_extends (flags : Nat) (ht : newline ∈ t) :
    (readFields flags t).Extends r (readFields flags (t ++ r)) := by
  have hminute :=
    readField_extends r minuteField minStar .minute .zero flags ht
  exact (((hminute.bind fun bits flags _ hnl =>
    readField_extends r hourField hrStar .hour bits flags hnl).bind
    fun bits flags _ hnl =>
      readField_extends r domField domStar .dom bits flags hnl).bind
    fun bits flags _ hnl =>
      readField_extends r monthField monStar .month bits flags hnl).bind
    fun bits flags _ hnl =>
      readField_extends r dowField dowStar .dow bits flags hnl

/-- Nor does a nickname look behind the line. -/
theorem readNickname_extends (flags : Nat) (ht : newline ∈ t) :
    (readNickname flags t).Extends r (readNickname flags (t ++ r)) := by
  have hword : ∃ c ∈ t, isToken wordTerms c = false :=
    ⟨newline, ht, by decide⟩
  have hnext : newline ∈ t.dropWhile (isToken wordTerms) :=
    mem_dropWhile ht (by decide)
  have hblank : ∃ c ∈ t.dropWhile (isToken wordTerms), isBlank c = false :=
    ⟨newline, hnext, by decide⟩
  have hafter : newline
      ∈ (t.dropWhile (isToken wordTerms)).dropWhile isBlank :=
    mem_dropWhile hnext (by decide)
  have hne := List.ne_nil_of_mem hafter
  unfold readNickname
  dsimp only
  rw [takeWhile_append_stop hword, dropWhile_append_stop hword,
    dropWhile_append_stop hblank, head_append hne]
  split
  · exact ⟨_, rfl⟩
  · split
    · next hend =>
      rw [if_pos (Or.inr (hend.resolve_left hne))]
      exact ⟨_, rfl⟩
    · next hend =>
      rw [not_or] at hend
      have hend' : ¬ ((t.dropWhile (isToken wordTerms)).dropWhile isBlank
            ++ r = []
          ∨ ((t.dropWhile (isToken wordTerms)).dropWhile isBlank).head?
            = some newline) := by
        rw [not_or]
        exact ⟨List.append_ne_nil_of_left_ne_nil hne r, hend.2⟩
      rw [if_neg hend']
      exact ⟨rfl, hafter⟩

/-- Nor does the check for the end of the line. -/
theorem readEol_extends (bits : Bitmaps) (flags : Nat)
    (ht : newline ∈ t) :
    (readEol bits flags t).Extends r (readEol bits flags (t ++ r)) := by
  unfold readEol
  rw [head_append (List.ne_nil_of_mem ht)]
  split
  · exact ⟨_, rfl⟩
  · exact ⟨rfl, ht⟩

/-- **The schedule** does not see what follows its line. -/
theorem readSchedule_extends (flags : Nat) (ht : newline ∈ t) :
    (readSchedule flags t).Extends r (readSchedule flags (t ++ r)) := by
  have hne := List.ne_nil_of_mem ht
  unfold readSchedule
  rw [head_append hne]
  apply SchedText.Extends.bind
  · split
    · next hat =>
      rw [tail_append hne]
      apply readNickname_extends
      apply newline_mem_tail ht
      rw [hat]
      decide
    · exact readFields_extends r flags ht
  · intro bits flags next hnl
    exact readEol_extends r bits flags hnl

-- ============================================================= the job

variable {getpwnam : CString → Option Passwd} {pw : Option Passwd}
  {h : CHeap} {envp : Nat} {fname : String}

/-- Nor does a username: it ends at the newline at the latest. -/
theorem readUser_append (ht : newline ∈ t) :
    match readUser getpwnam pw t with
    | .error (ecode, next) =>
        readUser getpwnam pw (t ++ r) = .error (ecode, next ++ r)
    | .ok (pw', t', stand) =>
        readUser getpwnam pw (t ++ r) = .ok (pw', t' ++ r, stand ++ r)
          ∧ newline ∈ t' := by
  cases pw with
  | some pw => exact ⟨rfl, ht⟩
  | none =>
      have hword : ∃ c ∈ t, isToken wordTerms c = false :=
        ⟨newline, ht, by decide⟩
      have hnext : newline ∈ t.dropWhile (isToken wordTerms) :=
        mem_dropWhile ht (by decide)
      have hne := List.ne_nil_of_mem hnext
      unfold readUser
      dsimp only
      rw [takeWhile_append_stop hword, dropWhile_append_stop hword,
        head_append hne, tail_append hne]
      by_cases hnl : (t.dropWhile (isToken wordTerms)).head? = some newline
      · rw [if_pos (Or.inr hnl), if_pos (Or.inr hnl)]
      · rw [if_neg (not_or.mpr ⟨hne, hnl⟩),
          if_neg (not_or.mpr
            ⟨List.append_ne_nil_of_left_ne_nil hne r, hnl⟩)]
        cases getpwnam (CString.ofBuf
            (kept (t.takeWhile (isToken wordTerms)))) with
        | none => rfl
        | some pw => exact ⟨rfl, newline_mem_tail hnext hnl⟩

/-- The same is returned, with the same heap and the same messages; what
is left of the text may differ. -/
structure SameReturn (b b' : BodyText) : Prop where
  verdict : b.verdict = b'.verdict
  heap : b.heap = b'.heap
  log : b.log = b'.log

/-- Nor do the username and the command together. -/
theorem readJob_append (bits : Bitmaps) (flags : Nat)
    (ht : newline ∈ t) :
    SameReturn (readJob getpwnam pw h envp fname bits flags (t ++ r))
      (readJob getpwnam pw h envp fname bits flags t) := by
  have huser := @readUser_append t r getpwnam pw ht
  unfold readJob
  cases hread : readUser getpwnam pw t with
  | error x =>
      obtain ⟨ecode, next⟩ := x
      rw [hread] at huser
      rw [show readUser getpwnam pw (t ++ r) = _ from huser]
      exact ⟨rfl, rfl, rfl⟩
  | ok x =>
      obtain ⟨pw', t', stand⟩ := x
      rw [hread] at huser
      obtain ⟨huser, hnl⟩ := huser
      rw [huser]
      dsimp only
      split
      · exact ⟨rfl, rfl, rfl⟩
      · next envp' h' log hprep =>
        have hline : ∃ c ∈ t', isToken lineTerms c = false :=
          ⟨newline, hnl, by decide⟩
        have hne := dropWhile_ne_nil hline
        rw [takeWhile_append_stop hline, dropWhile_append_stop hline,
          if_neg hne, if_neg (List.append_ne_nil_of_left_ne_nil hne r)]
        split
        · exact ⟨rfl, rfl, rfl⟩
        · exact ⟨rfl, rfl, rfl⟩

-- ============================================================ the line

/-- So a line is read as it is, whatever is behind it. -/
theorem readLine_append (flags : Nat) (ht : newline ∈ t) :
    SameReturn (readLine getpwnam pw h envp fname flags (t ++ r))
      (readLine getpwnam pw h envp fname flags t) := by
  have hsched := readSchedule_extends r flags ht
  unfold readLine
  cases hread : readSchedule flags t with
  | accepted bits fl next =>
      rw [hread] at hsched
      obtain ⟨hmore, hnl⟩ := hsched
      rw [hmore]
      exact readJob_append r bits fl hnl
  | rejected ecode left =>
      rw [hread] at hsched
      obtain ⟨left', hmore⟩ := hsched
      rw [hmore]
      exact ⟨rfl, rfl, rfl⟩

/-- **A line does not see what follows it.** -/
theorem readUseful_append (ht : newline ∈ t) :
    SameReturn (readUseful getpwnam pw h envp fname (t ++ r))
      (readUseful getpwnam pw h envp fname t) := by
  obtain ⟨c, l, rfl⟩ := List.exists_cons_of_ne_nil (List.ne_nil_of_mem ht)
  unfold readUseful
  rw [List.cons_append]
  dsimp only
  by_cases hdash : c = dash
  · rw [if_pos hdash, if_pos hdash]
    have hl : newline ∈ l := by
      apply List.mem_of_ne_of_mem _ ht
      rw [hdash]
      decide
    have hne := List.ne_nil_of_mem hl
    rw [if_neg hne, if_neg (List.append_ne_nil_of_left_ne_nil hne r)]
    split
    · exact readLine_append r dontLog hl
    · exact ⟨rfl, rfl, rfl⟩
  · rw [if_neg hdash, if_neg hdash]
    exact readLine_append r 0 ht

end

-- =========================================================== its lines

/-- The line and what is behind it are the text. -/
theorem takeLine_dropLine (t : List UInt8) :
    takeLine t ++ dropLine t = t := by
  unfold takeLine dropLine
  rw [List.append_assoc]
  generalize hd : t.dropWhile (fun c => c != newline) = d
  have hsplit : t.takeWhile (fun c => c != newline) ++ d = t := by
    rw [← hd]
    exact List.takeWhile_append_dropWhile
  cases d with
  | nil => exact hsplit
  | cons c l => exact hsplit

/-- A line has its newline, or it is the rest of the text. -/
theorem takeLine_cases (t : List UInt8) :
    newline ∈ takeLine t ∨ takeLine t = t ∧ dropLine t = [] := by
  rcases lineEnd_cases t with hnil | hcons
  · refine Or.inr ?_
    have hdrop : dropLine t = [] := by
      rw [dropLine_eq, hnil]
      rfl
    have hsplit := takeLine_dropLine t
    rw [hdrop, List.append_nil] at hsplit
    exact ⟨hsplit, hdrop⟩
  · refine Or.inl ?_
    have htake : takeLine t
        = t.takeWhile (fun c => c != newline) ++ (lineEnd t).take 1 := rfl
    rw [htake, hcons]
    simp

/-- The blanks at the start of a text are those of its first line. -/
theorem dropBlanks_takeLine (t : List UInt8) :
    t.dropWhile isBlank = (takeLine t).dropWhile isBlank ++ dropLine t := by
  rcases takeLine_cases t with hnl | ⟨heq, hdrop⟩
  · have hblank : ∃ c ∈ takeLine t, isBlank c = false :=
      ⟨newline, hnl, by decide⟩
    rw [← dropWhile_append_stop hblank, takeLine_dropLine]
  · rw [heq, hdrop, List.append_nil]

/-- Whether a line is one to be ignored can be seen from the line. -/
theorem ignorable_takeLine (t : List UInt8) :
    ignorable (takeLine t) = ignorable t := by
  rcases takeLine_cases t with hnl | ⟨heq, -⟩
  · have hblank : ∃ c ∈ takeLine t, isBlank c = false :=
      ⟨newline, hnl, by decide⟩
    unfold ignorable
    rw [dropBlanks_takeLine t]
    obtain ⟨c, l, hcons⟩ :=
      List.exists_cons_of_ne_nil (dropWhile_ne_nil hblank)
    rw [hcons]
    rfl
  · rw [heq]

section

variable {getpwnam : CString → Option Passwd} {pw : Option Passwd}
  {h : CHeap} {envp : Nat} {fname : String} {errorFunc : Bool}

/-- And so can what a call returns, after the recovery. -/
theorem SameReturn.finish {b b' : BodyText} (hb : SameReturn b b') :
    (b.finish errorFunc fname).entry = (b'.finish errorFunc fname).entry
      ∧ (b.finish errorFunc fname).heap = (b'.finish errorFunc fname).heap
      ∧ (b.finish errorFunc fname).log
        = (b'.finish errorFunc fname).log := by
  obtain ⟨hverdict, hheap, hlog⟩ := hb
  unfold BodyText.finish
  rw [hverdict, hheap, hlog]
  cases b'.verdict with
  | entry e => exact ⟨rfl, rfl, rfl⟩
  | eof ecode envp => exact ⟨rfl, rfl, rfl⟩
  | null => exact ⟨rfl, rfl, rfl⟩

/-- **A useful line is read the same alone.** -/
theorem readUseful_alone {t : List UInt8} (huse : ignorable t = false) :
    SameReturn (readUseful getpwnam pw h envp fname (usefulText t))
      (readUseful getpwnam pw h envp fname (usefulText (takeLine t))) := by
  have huse' : ignorable (takeLine t) = false := by
    rw [ignorable_takeLine, huse]
  rw [usefulText_useful huse, usefulText_useful huse']
  rcases takeLine_cases t with hnl | ⟨heq, -⟩
  · rw [dropBlanks_takeLine t]
    apply readUseful_append
    exact mem_dropWhile hnl (by decide)
  · rw [heq]
    exact ⟨rfl, rfl, rfl⟩

end

end Tinjac
