/-
The second half of a line: username, environment and command.

Whether a job is taken depends on what follows the schedule and on the
heap (`JobTaken`), never on the sets and flags of the schedule, which go
into the entry as they are. `readJob_granted` and `readJob_entry_iff` say
so; what compares two lines then only has to compare their halves.
-/
import Tinjac.Proofs.Schedule

namespace Tinjac

open Span BlockHeap CHeap

-- ============================================================ the heap

/-- Every allocation of a job succeeds: the copy of the password record,
the environment, and the copy of the command behind them. -/
def JobGranted (h : CHeap) (envp : Nat) (pw : Passwd) (fname : String) :
    Prop :=
  ∃ envp' h' log, prepareJob h envp pw fname = (.ok envp', h', log)
    ∧ h'.granted h'.asked = true

/-- What follows a schedule is a job that is taken. -/
def JobTaken (getpwnam : CString → Option Passwd) (pw : Option Passwd)
    (h : CHeap) (envp : Nat) (fname : String) (t : List UInt8) : Prop :=
  ∃ pw' t' stand, readUser getpwnam pw t = .ok (pw', t', stand)
    ∧ t'.dropWhile (isToken lineTerms) ≠ []
    ∧ JobGranted h envp pw' fname

section

variable {getpwnam : CString → Option Passwd} {pw : Option Passwd}
  {h h' : CHeap} {envp envp' : Nat} {fname : String} {bits : Bitmaps}
  {flags : Nat} {t t' stand : List UInt8} {pw' : Passwd}
  {log : List String}

/-- The entry of a job whose allocations succeed. -/
theorem readJob_granted
    (huser : readUser getpwnam pw t = .ok (pw', t', stand))
    (hcmd : t'.dropWhile (isToken lineTerms) ≠ [])
    (hprep : prepareJob h envp pw' fname = (.ok envp', h', log))
    (hgranted : h'.granted h'.asked = true) :
    readJob getpwnam pw h envp fname bits flags t
      = { verdict := .entry
            { pwd := bzeroPasswd pw', envp := envp',
              cmd := CString.ofBuf
                (kept (t'.takeWhile (isToken lineTerms))),
              bits := bits, flags := flags }
          heap := { h' with asked := h'.asked + 1 }, log := log,
          left := (t'.dropWhile (isToken lineTerms)).tail } := by
  unfold readJob
  rw [huser]
  dsimp only
  rw [hprep]
  dsimp only
  rw [if_neg hcmd]
  unfold Heap.request
  dsimp only
  rw [if_pos hgranted]

theorem readJob_user_error {r : Ecode × List UInt8}
    (huser : readUser getpwnam pw t = .error r) (e : Entry) :
    (readJob getpwnam pw h envp fname bits flags t).verdict ≠ .entry e := by
  unfold readJob
  rw [huser]
  intro he
  cases he

theorem readJob_no_newline
    (huser : readUser getpwnam pw t = .ok (pw', t', stand))
    (hcmd : t'.dropWhile (isToken lineTerms) = []) (e : Entry) :
    (readJob getpwnam pw h envp fname bits flags t).verdict ≠ .entry e := by
  unfold readJob
  rw [huser]
  dsimp only
  split
  · intro he
    cases he
  · rw [if_pos hcmd]
    intro he
    cases he

theorem readJob_refused
    (huser : readUser getpwnam pw t = .ok (pw', t', stand))
    (hno : ¬ JobGranted h envp pw' fname) (e : Entry) :
    (readJob getpwnam pw h envp fname bits flags t).verdict ≠ .entry e := by
  unfold readJob
  rw [huser]
  dsimp only
  split
  · intro he
    cases he
  · next envp' h' log hprep =>
    split
    · intro he
      cases he
    · unfold Heap.request
      dsimp only
      split
      · next hgranted => exact absurd ⟨envp', h', log, hprep, hgranted⟩ hno
      · intro he
        cases he

theorem readJob_entry_iff :
    (∃ e, (readJob getpwnam pw h envp fname bits flags t).verdict
        = .entry e)
      ↔ JobTaken getpwnam pw h envp fname t := by
  constructor
  · intro ⟨e, he⟩
    cases huser : readUser getpwnam pw t with
    | error r => exact absurd he (readJob_user_error huser e)
    | ok r =>
        obtain ⟨pw', t', stand⟩ := r
        refine ⟨pw', t', stand, huser, ?_, ?_⟩
        · intro hcmd
          exact readJob_no_newline huser hcmd e he
        · by_contra hno
          exact readJob_refused huser hno e he
  · intro ⟨pw', t', stand, huser, hcmd, envp', h', log, hprep, hgranted⟩
    exact ⟨_, by rw [readJob_granted huser hcmd hprep hgranted]⟩

end

-- ======================================================== the username

/-- A username as it is written. -/
structure UserToken (u : List UInt8) : Prop where
  ne_nil : u ≠ []
  token : ∀ c ∈ u, isToken wordTerms c = true
  no_star : u.head? ≠ some star

section

variable {getpwnam : CString → Option Passwd} {pw : Passwd}
  {u : List UInt8}

theorem UserToken.stops_blank (hu : UserToken u) (l : List UInt8) :
    Stops isBlank (u ++ l) := by
  obtain ⟨b, u, rfl⟩ := List.exists_cons_of_ne_nil hu.ne_nil
  refine stops_cons.mpr ?_
  have hb := hu.token b List.mem_cons_self
  by_contra hblank
  rw [Bool.not_eq_false, isBlank, Bool.or_eq_true, beq_iff_eq,
    beq_iff_eq] at hblank
  rcases hblank with rfl | rfl
  · exact absurd hb (by decide)
  · exact absurd hb (by decide)

theorem UserToken.not_endsEarly (hu : UserToken u) (l : List UInt8) :
    ¬ Schedule.EndsEarly (u ++ l) := by
  have hstar := hu.no_star
  obtain ⟨b, u, rfl⟩ := List.exists_cons_of_ne_nil hu.ne_nil
  have hb := hu.token b List.mem_cons_self
  intro h
  rcases h with h | h | h
  · cases h
  · injection h with h
    rw [h] at hb
    exact absurd hb (by decide)
  · exact hstar h

theorem nul_not_mem_of_token {terms w : List UInt8}
    (hw : ∀ c ∈ w, isToken terms c = true) : nul ∉ w := by
  intro h
  have htok := hw nul h
  simp [isToken, strchr, uchar] at htok

/-- A C string that was written out is read back whole. -/
theorem CString.ofBuf_bytes {w : List UInt8} (hw : nul ∉ w) :
    (CString.ofBuf w).bytes = w :=
  List.takeWhile_eq_self_iff.mpr fun _ hc =>
    bne_iff_ne.mpr (ne_of_mem_of_not_mem hc hw)

/-- The username takes its token and one blank. -/
theorem readUser_system (hu : UserToken u)
    (hknown : getpwnam (CString.ofBuf u) = some pw)
    (hshort : u.length < maxCommand) {sep : UInt8}
    (hsep : isBlank sep = true) (l : List UInt8) :
    readUser getpwnam none (u ++ (sep :: l)) = .ok (pw, l, sep :: l) := by
  have hstop : Stops (isToken wordTerms) (sep :: l) :=
    stops_cons.mpr (isToken_of_isBlank hsep)
  have hkept : kept u = u :=
    List.take_of_length_le (by unfold maxCommand at hshort ⊢; omega)
  unfold readUser
  dsimp only
  rw [dropWhile_run hu.token hstop, takeWhile_run hu.token hstop, hkept,
    hknown]
  rw [if_neg]
  · rfl
  · intro h
    rcases h with h | h
    · cases h
    · injection h with h
      rw [h] at hsep
      exact absurd hsep (by decide)

end

-- ===================================================== a password file

/-- The record of a superuser. -/
def rootPasswd : Passwd :=
  { pwName := .ofString "root", pwPasswd := .ofString "x", pwUid := 0,
    pwGid := 0, pwGecos := .ofString "root", pwDir := .ofString "/root",
    pwShell := .ofString "/bin/sh" }

/-- `getpwnam` on a password file of one user. -/
def rootOnly (name : CString) : Option Passwd :=
  if name.bytes = bytes "root" then some rootPasswd else none

/-- The names of a password file are short. -/
theorem rootOnly_short (n : CString) (pw : Passwd)
    (h : rootOnly n = some pw) : n.bytes.length < maxCommand := by
  unfold rootOnly at h
  split at h
  · next hname =>
    rw [hname]
    decide
  · cases h

/-- A heap with an empty environment at address 0, where every request
is granted. -/
def freshHeap : CHeap := (envInit (Heap.empty fun _ => true)).2

-- ============================================================ the line

theorem finish_entry {b : BodyText} {errorFunc : Bool} {fname : String}
    {e : Entry} :
    (b.finish errorFunc fname).entry = some e ↔ b.verdict = .entry e := by
  unfold BodyText.finish
  cases b.verdict with
  | entry e' => simp
  | eof ecode envp => simp
  | null => simp

theorem finish_none {b : BodyText} {errorFunc : Bool} {fname : String}
    (h : ∀ e, b.verdict ≠ .entry e) :
    (b.finish errorFunc fname).entry = none := by
  cases he : (b.finish errorFunc fname).entry with
  | none => rfl
  | some e => exact absurd (finish_entry.mp he) (h e)

/-- A line that starts with neither a blank nor a `#` is taken up where
it starts. -/
theorem usefulText_cons {c : UInt8} (hc : isNonblank c = true)
    (hhash : c ≠ hash) (t : List UInt8) :
    usefulText (c :: t) = c :: t := by
  have hblank : isBlank c = false := by
    by_contra hb
    rw [Bool.not_eq_false] at hb
    rw [isNonblank_of_isBlank hb] at hc
    cases hc
  have hnl : c ≠ newline := by
    intro h
    rw [h] at hc
    exact absurd hc (by decide)
  have hdrop : (c :: t).dropWhile isBlank = c :: t := by
    rw [List.dropWhile_cons, hblank]
    rfl
  rw [usefulText_useful, hdrop]
  unfold ignorable
  rw [hdrop]
  simp [hnl, hhash]

namespace Schedule

theorem text_cons (s : Schedule) :
    ∃ c t, s.text = c :: t ∧ isNonblank c = true ∧ c ≠ dash := by
  cases s with
  | five s hd ha =>
      obtain ⟨c, w, hw⟩ := List.exists_cons_of_ne_nil s.word1.ne_nil
      have htext : s.text = c :: s.text.tail := by
        unfold FiveWords.text
        rw [hw]
        rfl
      refine ⟨c, s.text.tail, htext, ?_, ?_⟩
      · exact s.word1.nonblank c (by rw [hw]; exact List.mem_cons_self)
      · intro hc
        rw [hw, hc] at hd
        exact hd rfl
  | nickname w hw => exact ⟨atSign, w, rfl, by decide, by decide⟩

/-- A line that is no comment is taken up at its schedule. -/
theorem usefulText_text (s : Schedule) (hhash : s.text.head? ≠ some hash)
    (r : List UInt8) : usefulText (s.text ++ r) = s.text ++ r := by
  obtain ⟨c, t, htext, hc, -⟩ := s.text_cons
  rw [htext] at hhash ⊢
  have hne : c ≠ hash := fun h => hhash (congrArg some h)
  exact usefulText_cons hc hne (t ++ r)

theorem readEntry_text (s : Schedule) (hhash : s.text.head? ≠ some hash)
    (getpwnam : CString → Option Passwd) (errorFunc : Bool)
    (pw : Option Passwd) (h : CHeap) (envp : Nat) (fname : String)
    (r : List UInt8) :
    readEntry getpwnam errorFunc pw h envp fname (s.text ++ r)
      = (readLine getpwnam pw h envp fname 0 (s.text ++ r)).finish
          errorFunc fname := by
  obtain ⟨c, t, htext, -, hdash⟩ := s.text_cons
  unfold readEntry
  rw [s.usefulText_text hhash, htext, List.cons_append]
  unfold readUseful
  dsimp only
  rw [if_neg hdash]

/-- No schedule that is taken looks like a comment. -/
theorem Taken.no_hash {s : Schedule} (hs : s.Taken) :
    s.text.head? ≠ some hash := by
  cases s with
  | five s hd ha =>
      obtain ⟨c, l, hw, hc⟩ := hs.1.head
      show s.text.head? ≠ _
      unfold FiveWords.text
      rw [s.word1.head, hw]
      intro h
      injection h with h
      rw [h] at hc
      exact absurd hc (by decide)
  | nickname w hw =>
      show some atSign ≠ some hash
      decide

/-- The line of a schedule that is taken. -/
theorem readEntry_taken (s : Schedule) {getpwnam : CString → Option Passwd}
    {errorFunc : Bool} {pw : Option Passwd} {h : CHeap} {envp : Nat}
    {fname : String} {gap l : List UInt8} {bits : Bitmaps} {flags : Nat}
    (hgap : Gap gap) (hl : Stops isBlank l) (hend : ¬ EndsEarly l)
    (hread : s.read 0 = some (bits, flags)) :
    readEntry getpwnam errorFunc pw h envp fname (s.text ++ (gap ++ l))
      = (readJob getpwnam pw h envp fname (foldSundays bits) flags l).finish
          errorFunc fname := by
  have hsome : (s.read 0).isSome = true := by
    rw [hread]
    rfl
  have htaken : s.Taken := read_isSome.mp hsome
  have hreads := s.readSchedule_reads 0 hgap hl
  rw [if_neg hend, hread] at hreads
  have hsched : readSchedule 0 (s.text ++ (gap ++ l))
      = .accepted (foldSundays bits) flags l := hreads
  rw [s.readEntry_text htaken.no_hash]
  unfold readLine
  rw [hsched]

/-- The line of a schedule that is not taken, or that ends early. -/
theorem readEntry_rejected (s : Schedule)
    (hhash : s.text.head? ≠ some hash)
    {getpwnam : CString → Option Passwd} {errorFunc : Bool}
    {pw : Option Passwd} {h : CHeap} {envp : Nat} {fname : String}
    {gap l : List UInt8} (hgap : Gap gap) (hl : Stops isBlank l)
    (hno : EndsEarly l ∨ ¬ s.Taken) :
    (readEntry getpwnam errorFunc pw h envp fname
      (s.text ++ (gap ++ l))).entry = none := by
  have hreads := s.readSchedule_reads 0 hgap hl
  have hrej : (readSchedule 0 (s.text ++ (gap ++ l))).Rejected := by
    by_cases hend : EndsEarly l
    · rw [if_pos hend] at hreads
      exact hreads
    · have hnone : s.read 0 = none := by
        rw [← Option.not_isSome_iff_eq_none, read_isSome]
        exact hno.resolve_left hend
      rw [if_neg hend, hnone] at hreads
      exact hreads
  rw [s.readEntry_text hhash]
  apply finish_none
  intro e he
  unfold readLine at he
  cases hsched : readSchedule 0 (s.text ++ (gap ++ l)) with
  | accepted bits flags next =>
      rw [hsched] at hrej
      exact hrej
  | rejected ecode left =>
      rw [hsched] at he
      cases he

end Schedule

end Tinjac
