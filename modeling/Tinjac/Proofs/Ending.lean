/-
When a call of `load_entry` ends.

Every loop of the parser reads on only while it has a character, and so
ends with the bytes of the stream; the model has them as functions. The
one loop that goes on without a character is the one that skips a
rejected line: it waits for a newline or for `feof`. If the stream ends
in a read error `feof` never comes, so there has to be a newline where
the loop starts (`skipLine_ends`, `skipLine_stuck`). That is in the
rejected line, or in the line behind it if its own newline was swallowed
(`loadBody_stands`).
-/
import Tinjac.Proofs.Accepted
import Tinjac.Proofs.Pushback
import Tinjac.Proofs.Recovery

namespace Tinjac

open BlockHeap CHeap

-- ===================================================== what reads keep

theorem getChar_eof (file : Stream) (hfails : file.fails = true) :
    (getChar file).2.eof = file.eof := by
  unfold getChar
  split
  · simp [hfails]
  · rfl

theorem Sound.fails {start file : Stream} (h : Sound start file) :
    file.fails = start.fails := by
  induction h with
  | start => rfl
  | get _ ih => rw [getChar_fails, ih]
  | back _ _ ih => rw [ungetChar_fails, getChar_fails, ih]

/-- The end of a stream that fails is never seen. -/
theorem Sound.not_eof {start file : Stream} (h : Sound start file)
    (hfails : start.fails = true) (heof : start.eof = false) :
    file.eof = false := by
  induction h with
  | start => exact heof
  | get hread ih =>
      rw [getChar_eof _ (hread.fails.trans hfails)]
      exact ih
  | back _ _ _ => rfl

-- ======================================================= the last loop

/-- The loop ends where a newline is left to read. -/
theorem skipLine_ends {fuel : Nat} {ch : Option UInt8} {file : Stream}
    (hnl : newline ∈ text ch file) (hfuel : file.rest.length + 1 ≤ fuel) :
    ∃ file', skipLine fuel ch file = some file' := by
  induction fuel generalizing ch file with
  | zero => omega
  | succ fuel ih =>
      unfold skipLine
      split
      · next hgo =>
        have hrest : newline ∈ file.rest := by
          cases ch with
          | none => exact hnl
          | some c =>
              apply List.mem_of_ne_of_mem _ hnl
              exact fun hc => hgo.1 (congrArg some hc.symm)
        have hpos : 0 < file.rest.length := List.length_pos_of_mem hrest
        apply ih
        · rw [text_getChar]
          exact hrest
        · rw [getChar_rest, List.length_tail]
          omega
      · exact ⟨file, rfl⟩

/-- Without one it reads the error for ever. -/
theorem skipLine_stuck {fuel : Nat} {ch : Option UInt8} {file : Stream}
    (hfails : file.fails = true) (heof : file.eof = false)
    (hnl : newline ∉ text ch file) : skipLine fuel ch file = none := by
  induction fuel generalizing ch file with
  | zero => rfl
  | succ fuel ih =>
      have hgo : ch ≠ some newline ∧ ¬ file.feof := by
        refine ⟨fun hch => hnl ?_, ?_⟩
        · rw [hch]
          exact List.mem_cons_self
        · simp [Stream.feof, heof]
      unfold skipLine
      rw [if_pos hgo]
      apply ih
      · rw [getChar_fails, hfails]
      · rw [getChar_eof file hfails, heof]
      · rw [text_getChar]
        exact fun hmem => hnl (List.mem_append_right _ hmem)

theorem skipLine_mono {fuel : Nat} {ch : Option UInt8} {file p : Stream}
    (hskip : skipLine fuel ch file = some p) (k : Nat) :
    skipLine (fuel + k) ch file = some p := by
  induction fuel generalizing ch file with
  | zero => cases hskip
  | succ fuel ih =>
      rw [Nat.succ_add_eq_add_succ, Nat.add_succ]
      unfold skipLine at hskip ⊢
      split at hskip
      · next hgo =>
        rw [if_pos hgo]
        exact ih hskip
      · next hstop =>
        rw [if_neg hstop]
        exact hskip

-- ============================================================ the call

section

variable {getpwnam : CString → Option Passwd} {pw : Option Passwd}
  {h : CHeap} {envp : Nat} {fname : String} {errorFunc : Bool}
  {file : Stream}

/-- A rejected line: the call ends with its last loop. -/
theorem loadEntry_rejected {ecode : Ecode} {ev : Option Nat}
    (hv : (loadBody getpwnam file pw h envp fname).verdict
      = .eof ecode ev) (fuel : Nat) :
    (∃ r, loadEntry fuel getpwnam file errorFunc pw h envp fname = some r)
      ↔ ∃ file', skipLine fuel
          (loadBody getpwnam file pw h envp fname).ch
          (loadBody getpwnam file pw h envp fname).file = some file' := by
  unfold loadEntry
  dsimp only
  rw [hv]
  dsimp only
  split
  · next hnone =>
    simp [hnone]
  · next file' hsome =>
    simp [hsome]

/-- Anything else is returned on the spot. -/
theorem loadEntry_returned
    (hv : ∀ ecode ev, (loadBody getpwnam file pw h envp fname).verdict
      ≠ .eof ecode ev) (fuel : Nat) :
    ∃ r, loadEntry fuel getpwnam file errorFunc pw h envp fname = some r := by
  unfold loadEntry
  dsimp only
  split
  · exact ⟨_, rfl⟩
  · exact ⟨_, rfl⟩
  · next hverdict => exact absurd hverdict (hv _ _)

theorem loadEntry_mono {fuel : Nat} {r : LoadResult}
    (hload : loadEntry fuel getpwnam file errorFunc pw h envp fname
      = some r) {k : Nat} :
    loadEntry (fuel + k) getpwnam file errorFunc pw h envp fname
      = some r := by
  unfold loadEntry at hload ⊢
  dsimp only at hload ⊢
  split at hload
  · exact hload
  · exact hload
  · split at hload
    · cases hload
    · next hskip =>
      rw [skipLine_mono hskip]
      exact hload

theorem LeftAt.newline_mem {P : Prop} {t u : List UInt8}
    (hleft : LeftAt P t u) :
    newline ∈ u ↔ (¬ P ∧ newline ∈ t) ∨ (P ∧ newline ∈ dropLine t) := by
  rcases hleft with ⟨hP, hend⟩ | ⟨hP, rfl⟩
  · rw [← lineEnd_ne_nil, hend, lineEnd_ne_nil]
    simp [hP]
  · simp [hP]

/-- The line that is taken up, if it is rejected, has its newline, or
has swallowed it and the next line has one. -/
def Recovers (pw : Option Passwd) (t : List UInt8) : Prop :=
  (¬ Swallows pw t ∧ newline ∈ t)
    ∨ (Swallows pw t ∧ newline ∈ dropLine t)

/-- What is neither taken nor the end of the text is rejected. -/
theorem verdict_rejected (hno : ¬ NoLine pw (usefulText file.rest))
    (htaken : ¬ LineTaken getpwnam pw h envp fname (usefulText file.rest)) :
    ∃ ecode ev, (loadBody getpwnam file pw h envp fname).verdict
      = .eof ecode ev := by
  have hbody := loadBody_shows getpwnam file pw h envp fname
  rw [hbody.verdict]
  cases hv : (readUseful getpwnam pw h envp fname
      (usefulText file.rest)).verdict with
  | null => exact absurd (readUseful_null_iff.mp hv) hno
  | entry e => exact absurd (readUseful_entry_iff.mp ⟨e, hv⟩) htaken
  | eof ecode ev => exact ⟨ecode, ev, rfl⟩

/-- A line that needs no recovery. -/
theorem loadEntry_unrejected
    (hline : NoLine pw (usefulText file.rest)
      ∨ LineTaken getpwnam pw h envp fname (usefulText file.rest)) :
    ∃ r, loadEntry 0 getpwnam file errorFunc pw h envp fname = some r := by
  have hbody := loadBody_shows getpwnam file pw h envp fname
  apply loadEntry_returned
  intro ecode ev hv
  rw [hbody.verdict] at hv
  rcases hline with hno | htaken
  · rw [readUseful_null_iff.mpr hno] at hv
    cases hv
  · obtain ⟨e, he⟩ := readUseful_entry_iff.mpr htaken
    rw [he] at hv
    cases hv

/-- A rejected line on a stream that fails. -/
theorem loadEntry_recovers_iff (hfails : file.fails = true)
    (heof : file.eof = false) {ecode : Ecode} {ev : Option Nat}
    (hv : (loadBody getpwnam file pw h envp fname).verdict
      = .eof ecode ev) :
    (∃ fuel r, loadEntry fuel getpwnam file errorFunc pw h envp fname
        = some r)
      ↔ Recovers pw (usefulText file.rest) := by
  have hsound : Sound file (loadBody getpwnam file pw h envp fname).file :=
    loadBody_sound getpwnam pw h envp fname .start
  have hleft := loadBody_stands getpwnam file pw h envp fname hv
  unfold Recovers
  rw [← hleft.newline_mem]
  constructor
  · intro ⟨fuel, hload⟩
    obtain ⟨file', hskip⟩ := (loadEntry_rejected hv fuel).mp hload
    by_contra hnl
    rw [skipLine_stuck (hsound.fails.trans hfails)
      (hsound.not_eof hfails heof) hnl] at hskip
    cases hskip
  · intro hnl
    exact ⟨_, (loadEntry_rejected hv _).mpr
      (skipLine_ends hnl (Nat.le_refl _))⟩

/-- `load_entry` ends iff the stream ends at end of file, or its error is
not met: there is no line to take up before it, the line is taken, or
the recovery from it finds a newline. A read error is one that
persists. -/
theorem loadEntry_ends_iff (herror : file.fails = true → file.eof = false) :
    (∃ fuel r, loadEntry fuel getpwnam file errorFunc pw h envp fname
        = some r)
      ↔ file.fails = false
        ∨ NoLine pw (usefulText file.rest)
        ∨ LineTaken getpwnam pw h envp fname (usefulText file.rest)
        ∨ Recovers pw (usefulText file.rest) := by
  by_cases hfails : file.fails = false
  · refine iff_of_true ?_ (Or.inl hfails)
    obtain ⟨r, hload, -⟩ := loadEntry_text getpwnam file errorFunc pw h envp
      fname hfails (Nat.le_refl _)
    exact ⟨_, r, hload⟩
  rw [or_iff_right hfails]
  have hfails : file.fails = true := by simpa using hfails
  by_cases hline : NoLine pw (usefulText file.rest)
      ∨ LineTaken getpwnam pw h envp fname (usefulText file.rest)
  · rw [← or_assoc]
    exact iff_of_true ⟨0, loadEntry_unrejected hline⟩ (Or.inl hline)
  · rw [← or_assoc, or_iff_right hline]
    obtain ⟨hno, htaken⟩ := not_or.mp hline
    obtain ⟨ecode, ev, hv⟩ := verdict_rejected hno htaken
    exact loadEntry_recovers_iff hfails (herror hfails) hv

end

-- =================================================== a line broken off

/-- A stream that fails behind these bytes. -/
def brokenStream (bs : List UInt8) : Stream :=
  { Stream.ofBytes bs with fails := true }

theorem usefulText_at (l : List UInt8) :
    usefulText (atSign :: l) = atSign :: l :=
  usefulText_cons (by decide) (by decide) l

/-- The error comes behind the line: it is rejected, and that is it. -/
theorem unknown_nickname_ends :
    ∃ fuel r, loadEntry fuel rootOnly (brokenStream (bytes "@hourl\n"))
      true none freshHeap 0 "crontab" = some r := by
  apply (loadEntry_ends_iff fun _ => rfl).mpr
  refine Or.inr (Or.inr (Or.inr (Or.inl ⟨?_, ?_⟩)))
  · show ¬ Swallows none (usefulText (atSign :: bytes "hourl\n"))
    rw [usefulText_at]
    exact fun hs => hs.2.1 rfl
  · show newline ∈ usefulText (atSign :: bytes "hourl\n")
    rw [usefulText_at]
    decide

/-- The error comes in the line: the skip to its end never ends. -/
theorem broken_nickname_runs_on :
    ¬ ∃ fuel r, loadEntry fuel rootOnly (brokenStream (bytes "@hourl"))
      true none freshHeap 0 "crontab" = some r := by
  have huseful : usefulText (brokenStream (bytes "@hourl")).rest
      = atSign :: bytes "hourl" := usefulText_at _
  have hno : ¬ NoLine none
      (usefulText (brokenStream (bytes "@hourl")).rest) := by
    rw [huseful]
    intro hno
    rcases hno with hno | ⟨hno, -⟩
    · cases hno
    · exact absurd hno (by decide)
  have htaken : ¬ LineTaken rootOnly none freshHeap 0 "crontab"
      (usefulText (brokenStream (bytes "@hourl")).rest) := by
    rw [huseful]
    intro ⟨_, next, hschedule, _⟩
    have hnick : NicknameTaken (bytes "hourl") next := hschedule.taken
    exact absurd hnick.known (by decide)
  obtain ⟨ecode, ev, hv⟩ := verdict_rejected hno htaken
  have hrecovers : ¬ Recovers none
      (usefulText (brokenStream (bytes "@hourl")).rest) := by
    rw [huseful]
    intro hrec
    rcases hrec with ⟨-, hmem⟩ | ⟨-, hmem⟩
    · exact absurd hmem (by decide)
    · exact absurd hmem (by decide)
  intro hends
  exact hrecovers ((loadEntry_recovers_iff rfl rfl hv).mp hends)

end Tinjac
