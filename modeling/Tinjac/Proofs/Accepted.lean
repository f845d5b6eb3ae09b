/-
Which lines `load_entry` takes.

A line is taken exactly if it is written as one: behind an allowed `-` a
nickname of the table or five lists that the parser takes one after the
other (`ScheduleTaken`), and behind them a job that is taken. So what
`load_entry` returns can be told from the text (`readUseful_entry_iff`,
`readUseful_null_iff`).
-/
import Tinjac.Proofs.Written

namespace Tinjac

open Span BlockHeap CHeap

-- ===================================================== fields in a row

/-- These fields are taken one after the other, up to `next`. -/
def FieldsTaken : List Field → List UInt8 → List UInt8 → Prop
  | [], t, next => t = next
  | f :: fs, t, next =>
      ∃ rs after, t = listText rs ++ after ∧ ListTaken f rs after
        ∧ skipField after ≠ [] ∧ FieldsTaken fs (skipField after) next

/-- A first field and the others. -/
theorem fieldsTaken_cons {f : Field} {fs : List Field}
    {t next : List UInt8} :
    FieldsTaken (f :: fs) t next
      ↔ ∃ rs mid, readList f t = .done rs mid
        ∧ FieldsTaken fs mid next := by
  constructor
  · intro hgiven
    obtain ⟨rs, after, htext, hlist, hne, hrest⟩ := hgiven
    exact ⟨rs, _, readList_done.mpr ⟨after, htext, hlist, hne, rfl⟩, hrest⟩
  · intro hgiven
    obtain ⟨rs, mid, hread, hrest⟩ := hgiven
    obtain ⟨after, htext, hlist, hne, rfl⟩ := readList_done.mp hread
    exact ⟨rs, after, htext, hlist, hne, hrest⟩

/-- Some fields, and then some others. -/
theorem fieldsTaken_append {fs gs : List Field} {t next : List UInt8} :
    FieldsTaken (fs ++ gs) t next
      ↔ ∃ mid, FieldsTaken fs t mid ∧ FieldsTaken gs mid next := by
  induction fs generalizing t with
  | nil =>
      constructor
      · intro h
        exact ⟨t, rfl, h⟩
      · intro hgiven
        obtain ⟨mid, rfl, h⟩ := hgiven
        exact h
  | cons f fs ih =>
      rw [List.cons_append, fieldsTaken_cons]
      constructor
      · intro hgiven
        obtain ⟨rs, nx, hread, hrest⟩ := hgiven
        obtain ⟨mid, hfs, hgs⟩ := ih.mp hrest
        exact ⟨mid, fieldsTaken_cons.mpr ⟨rs, nx, hread, hfs⟩, hgs⟩
      · intro hgiven
        obtain ⟨mid, hfs, hgs⟩ := hgiven
        obtain ⟨rs, nx, hread, hfs⟩ := fieldsTaken_cons.mp hfs
        exact ⟨rs, nx, hread, ih.mpr ⟨mid, hfs, hgs⟩⟩

/-- No field is taken off nothing. -/
theorem fieldsTaken_ne_nil {f : Field} {fs : List Field}
    {t next : List UInt8} (h : FieldsTaken (f :: fs) t next) : t ≠ [] := by
  obtain ⟨rs, after, htext, -, hne, -⟩ := h
  intro hnil
  rw [hnil] at htext
  obtain ⟨-, hafter⟩ := List.append_eq_nil_iff.mp htext.symm
  rw [hafter] at hne
  exact hne rfl

-- =========================================================== schedules

namespace SchedText

/-- The schedule was accepted, and this is left. -/
def Leaves (s : SchedText) (next : List UInt8) : Prop :=
  ∃ bits flags, s = .accepted bits flags next

/-- Two readers of a schedule one after the other. -/
theorem leaves_bind {s : SchedText}
    {k : Bitmaps → Nat → List UInt8 → SchedText} {next : List UInt8} :
    (s.bind k).Leaves next
      ↔ ∃ b fl mid, s = .accepted b fl mid ∧ (k b fl mid).Leaves next := by
  constructor
  · intro hgiven
    obtain ⟨bits, flags, h⟩ := hgiven
    obtain ⟨b, fl, mid, hs, hk⟩ := bind_accepted h
    exact ⟨b, fl, mid, hs, bits, flags, hk⟩
  · intro hgiven
    obtain ⟨b, fl, mid, rfl, hk⟩ := hgiven
    exact hk

end SchedText

/-- One field is accepted if its list is. -/
theorem readField_leaves {f : Field} {flag : Nat} {ecode : Ecode}
    {bits : Bitmaps} {flags : Nat} {t next : List UInt8} :
    (readField f flag ecode bits flags t).Leaves next
      ↔ FieldsTaken [f] t next := by
  rw [fieldsTaken_cons]
  unfold readField
  cases readList f t with
  | done rs mid =>
      constructor
      · intro hgiven
        obtain ⟨_, _, h⟩ := hgiven
        injection h with _ _ h
        exact ⟨rs, mid, rfl, h⟩
      · intro hgiven
        obtain ⟨_, _, h, rfl⟩ := hgiven
        injection h with _ h
        rw [h]
        exact ⟨_, _, rfl⟩
  | fail left =>
      constructor
      · intro hgiven
        obtain ⟨_, _, h⟩ := hgiven
        cases h
      · intro hgiven
        obtain ⟨_, _, h, -⟩ := hgiven
        cases h
  | eaten mid =>
      constructor
      · intro hgiven
        obtain ⟨_, _, h⟩ := hgiven
        cases h
      · intro hgiven
        obtain ⟨_, _, h, -⟩ := hgiven
        cases h

/-- One more field behind those that were read: the schedule leaves what
is behind it if the field is taken there. -/
theorem leaves_andField {fs : List Field} {f : Field} {flag : Nat}
    {ecode : Ecode} {s : SchedText} {t : List UInt8}
    (h : ∀ mid, s.Leaves mid ↔ FieldsTaken fs t mid)
    (next : List UInt8) :
    (s.bind (readField f flag ecode)).Leaves next
      ↔ FieldsTaken (fs ++ [f]) t next := by
  rw [SchedText.leaves_bind, fieldsTaken_append]
  constructor
  · intro hgiven
    obtain ⟨b, fl, mid, hs, hf⟩ := hgiven
    exact ⟨mid, (h mid).mp ⟨b, fl, hs⟩, readField_leaves.mp hf⟩
  · intro hgiven
    obtain ⟨mid, hfs, hf⟩ := hgiven
    obtain ⟨b, fl, hs⟩ := (h mid).mpr hfs
    exact ⟨b, fl, mid, hs, readField_leaves.mpr hf⟩

/-- The five fields are if their lists are, one behind the other. -/
theorem readFields_leaves {flags : Nat} {t next : List UInt8} :
    (readFields flags t).Leaves next ↔ FieldsTaken fields t next :=
  leaves_andField (leaves_andField (leaves_andField (leaves_andField
    (fun _ => readField_leaves)))) next

/-- A nickname is taken off the text behind its `@`. -/
structure NicknameTaken (t next : List UInt8) : Prop where
  known : t.takeWhile (isToken wordTerms) ∈ nicknames
  left : next = (t.dropWhile (isToken wordTerms)).dropWhile isBlank
  ne_nil : next ≠ []
  ne_newline : next.head? ≠ some newline

/-- A nickname is accepted if it is known and something follows on the
line. -/
theorem readNickname_leaves {flags : Nat} {t next : List UInt8} :
    (readNickname flags t).Leaves next ↔ NicknameTaken t next := by
  have hknown : (setNickname (kept (t.takeWhile (isToken wordTerms)))
      .zero flags).isSome = true
      ↔ t.takeWhile (isToken wordTerms) ∈ nicknames :=
    setNickname_isSome.trans kept_mem_nicknames
  unfold readNickname
  dsimp only
  cases hnick : setNickname (kept (t.takeWhile (isToken wordTerms))) .zero
    flags with
  | none =>
      constructor
      · intro hgiven
        obtain ⟨_, _, h⟩ := hgiven
        cases h
      · intro h
        have hsome := hknown.mpr h.known
        rw [hnick] at hsome
        cases hsome
  | some r =>
      obtain ⟨bits, fl⟩ := r
      have hmem := hknown.mp (by rw [hnick]; rfl)
      dsimp only
      split
      · next hend =>
        constructor
        · intro hgiven
          obtain ⟨_, _, h⟩ := hgiven
          cases h
        · intro h
          rw [← h.left] at hend
          rcases hend with hend | hend
          · exact absurd hend h.ne_nil
          · exact absurd hend h.ne_newline
      · next hend =>
        rw [not_or] at hend
        constructor
        · intro hgiven
          obtain ⟨_, _, h⟩ := hgiven
          injection h with _ _ h
          rw [h] at hend
          exact ⟨hmem, h.symm, hend.1, hend.2⟩
        · intro h
          rw [h.left]
          exact ⟨_, _, rfl⟩

/-- A schedule is taken off a text: a nickname with something behind it,
or five lists one behind the other. -/
structure ScheduleTaken (t next : List UInt8) : Prop where
  taken : if t.head? = some atSign then NicknameTaken t.tail next
    else FieldsTaken fields t next
  ne_newline : next.head? ≠ some newline
  ne_star : next.head? ≠ some star

/-- **A schedule** is accepted if it is taken and its line goes on, with
no star. -/
theorem readSchedule_leaves {flags : Nat} {t next : List UInt8} :
    (readSchedule flags t).Leaves next ↔ ScheduleTaken t next := by
  have hread : ∀ mid, (if t.head? = some atSign then
        readNickname flags t.tail else readFields flags t).Leaves mid
      ↔ if t.head? = some atSign then NicknameTaken t.tail mid
        else FieldsTaken fields t mid := by
    intro mid
    split
    · exact readNickname_leaves
    · exact readFields_leaves
  unfold readSchedule
  rw [SchedText.leaves_bind]
  constructor
  · intro hgiven
    obtain ⟨b, fl, mid, hs, bits', fl', heol⟩ := hgiven
    unfold readEol at heol
    split at heol
    · cases heol
    · next hstop =>
      rw [not_or] at hstop
      injection heol with _ _ hnext
      rw [← hnext]
      exact ⟨(hread mid).mp ⟨b, fl, hs⟩, hstop.1, hstop.2⟩
  · intro h
    obtain ⟨b, fl, hs⟩ := (hread next).mpr h.taken
    refine ⟨b, fl, next, hs, foldSundays b, fl, ?_⟩
    unfold readEol
    rw [if_neg (not_or.mpr ⟨h.ne_newline, h.ne_star⟩)]

/-- There is no schedule in an empty text. -/
theorem ScheduleTaken.ne_nil {t next : List UInt8}
    (h : ScheduleTaken t next) : t ≠ [] := by
  intro hgiven
  obtain rfl := hgiven
  have htaken := h.taken
  rw [if_neg (by decide)] at htaken
  exact fieldsTaken_ne_nil htaken rfl

-- =============================================================== lines

section

variable {getpwnam : CString → Option Passwd} {pw : Option Passwd}
  {h : CHeap} {envp : Nat} {fname : String}

/-- A line becomes an entry if its schedule and its job are taken,
whatever the bits and flags. -/
theorem readLine_entry_iff {flags : Nat} {t : List UInt8} :
    (∃ e, (readLine getpwnam pw h envp fname flags t).verdict = .entry e)
      ↔ ∃ next, ScheduleTaken t next
        ∧ JobTaken getpwnam pw h envp fname next := by
  have hleaves : ∀ next, (readSchedule flags t).Leaves next
      ↔ ScheduleTaken t next := fun _ => readSchedule_leaves
  unfold readLine
  cases hsched : readSchedule flags t with
  | accepted bits fl next =>
      rw [hsched] at hleaves
      have htaken := (hleaves next).mp ⟨bits, fl, rfl⟩
      dsimp only
      rw [readJob_entry_iff]
      constructor
      · exact fun hjob => ⟨next, htaken, hjob⟩
      · intro hgiven
        obtain ⟨next', htaken', hjob⟩ := hgiven
        obtain ⟨_, _, heq⟩ := (hleaves next').mpr htaken'
        injection heq with _ _ heq
        rw [heq]
        exact hjob
  | rejected ecode left =>
      rw [hsched] at hleaves
      constructor
      · intro hgiven
        obtain ⟨e, he⟩ := hgiven
        cases he
      · intro hgiven
        obtain ⟨next, htaken, -⟩ := hgiven
        obtain ⟨_, _, heq⟩ := (hleaves next).mpr htaken
        cases heq

/-- The first useful line of a text is taken: an option that the user may
have, a schedule, and a job. -/
def LineTaken (getpwnam : CString → Option Passwd) (pw : Option Passwd)
    (h : CHeap) (envp : Nat) (fname : String) (t : List UInt8) : Prop :=
  (t.head? = some dash → mayDisableLog pw = true)
    ∧ ∃ next, ScheduleTaken (afterOption t) next
      ∧ JobTaken getpwnam pw h envp fname next

/-- **What is returned for a line** is an entry iff the line is taken. -/
theorem readUseful_entry_iff {t : List UInt8} :
    (∃ e, (readUseful getpwnam pw h envp fname t).verdict = .entry e)
      ↔ LineTaken getpwnam pw h envp fname t := by
  unfold LineTaken
  cases t with
  | nil =>
      constructor
      · intro hgiven
        obtain ⟨e, he⟩ := hgiven
        cases he
      · intro hgiven
        obtain ⟨-, next, htaken, -⟩ := hgiven
        exact absurd rfl htaken.ne_nil
  | cons c l =>
      unfold readUseful
      dsimp only
      by_cases hdash : c = dash
      · rw [if_pos hdash, hdash, afterOption_dash]
        by_cases hmay : mayDisableLog pw = true
        · rw [if_pos hmay]
          by_cases hnil : l = []
          · rw [if_pos hnil]
            constructor
            · intro hgiven
              obtain ⟨e, he⟩ := hgiven
              cases he
            · intro hgiven
              obtain ⟨-, next, htaken, -⟩ := hgiven
              exact absurd hnil htaken.ne_nil
          · rw [if_neg hnil, readLine_entry_iff]
            exact (and_iff_right fun _ => hmay).symm
        · rw [if_neg hmay]
          constructor
          · intro hgiven
            obtain ⟨e, he⟩ := hgiven
            cases he
          · intro hgiven
            obtain ⟨hopt, -⟩ := hgiven
            exact absurd (hopt rfl) hmay
      · have hhead : (c :: l).head? ≠ some dash :=
          fun hd => hdash (Option.some.inj hd)
        rw [if_neg hdash, afterOption_none hhead, readLine_entry_iff]
        exact (and_iff_right fun hd => absurd hd hhead).symm

/-- Behind a schedule every failure is an error, and not the end of the
file. -/
theorem readJob_ne_null {bits : Bitmaps} {flags : Nat} {t : List UInt8} :
    (readJob getpwnam pw h envp fname bits flags t).verdict ≠ .null := by
  unfold readJob
  split
  · exact fun hn => by cases hn
  · split
    · exact fun hn => by cases hn
    · dsimp only
      split
      · exact fun hn => by cases hn
      · split
        · exact fun hn => by cases hn
        · exact fun hn => by cases hn

/-- So it is for a line that has begun. -/
theorem readLine_ne_null {flags : Nat} {t : List UInt8} :
    (readLine getpwnam pw h envp fname flags t).verdict ≠ .null := by
  unfold readLine
  split
  · exact readJob_ne_null
  · exact fun hn => by cases hn

/-- The text ends before a line, or at a lone `-`. -/
def NoLine (pw : Option Passwd) (t : List UInt8) : Prop :=
  t = [] ∨ t = [dash] ∧ mayDisableLog pw = true

/-- There is nothing to return, and no line to skip. -/
theorem readUseful_null_iff {t : List UInt8} :
    (readUseful getpwnam pw h envp fname t).verdict = .null
      ↔ NoLine pw t := by
  unfold NoLine
  cases t with
  | nil => exact iff_of_true rfl (Or.inl rfl)
  | cons c l =>
      unfold readUseful
      dsimp only
      by_cases hdash : c = dash
      · rw [if_pos hdash, hdash]
        by_cases hmay : mayDisableLog pw = true
        · rw [if_pos hmay]
          by_cases hnil : l = []
          · rw [if_pos hnil, hnil]
            exact iff_of_true rfl (Or.inr ⟨rfl, hmay⟩)
          · rw [if_neg hnil]
            refine iff_of_false readLine_ne_null ?_
            intro hgiven
            rcases hgiven with hn | ⟨hn, -⟩
            · cases hn
            · injection hn with _ hn
              exact hnil hn
        · rw [if_neg hmay]
          refine iff_of_false (fun hn => by cases hn) ?_
          intro hgiven
          rcases hgiven with hn | ⟨-, hn⟩
          · cases hn
          · exact hmay hn
      · rw [if_neg hdash]
        refine iff_of_false readLine_ne_null ?_
        intro hgiven
        rcases hgiven with hn | ⟨hn, -⟩
        · cases hn
        · injection hn with hn _
          exact hdash hn

end

end Tinjac
