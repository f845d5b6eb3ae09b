/-
`load_entry` reads what `Text/Line.lean` says it reads.

Stage by stage, as in `Proofs/FieldText.lean`, up to `loadEntry_text`:
on a stream whose reads do not fail, `load_entry` returns, and entry,
heap, log and the bytes left are those of `readEntry`. A rejected stage
is followed up to where its recovery will leave the stream
(`recovered`), so that the final skip is one lemma (`skipLine_rest`).
-/
import Tinjac.Text.Line
import Tinjac.Proofs.FieldText
import Tinjac.Proofs.Consume

namespace Tinjac

open Span BlockHeap CHeap

-- ============================================================ recovery

theorem dropLine_nil : dropLine [] = [] := rfl

theorem dropLine_cons (c : UInt8) (l : List UInt8) :
    dropLine (c :: l) = if c = newline then l else dropLine l := by
  unfold dropLine
  rw [List.dropWhile_cons]
  by_cases h : c = newline
  · simp [h]
  · simp [h]

/-- A stream that stands at a text leaves what follows its first
newline. -/
theorem recovered_at {ch : Option UInt8} {file : Stream} {t : List UInt8}
    (h : At ch file t) : recovered ch file = dropLine t := by
  unfold recovered
  rw [h.head, h.tail]
  cases t with
  | nil => rfl
  | cons c l => simp [dropLine_cons]

/-- A stream behind its lookahead leaves what follows its first
newline. -/
theorem recovered_none (file : Stream) :
    recovered none file = dropLine file.rest := by
  simp [recovered]

/-- The loop that skips a rejected line ends, when reads do not fail,
behind the next newline. -/
theorem skipLine_rest (fuel : Nat) (ch : Option UInt8) (file : Stream)
    (hfails : file.fails = false) (hfuel : file.rest.length + 2 ≤ fuel) :
    ∃ file', skipLine fuel ch file = some file'
      ∧ file'.rest = recovered ch file := by
  induction fuel generalizing ch file with
  | zero => omega
  | succ fuel ih =>
      rw [skipLine]
      by_cases hstop : ch ≠ some newline ∧ ¬ file.feof
      · rw [if_pos hstop]
        have hrec : recovered (getChar file).1 (getChar file).2
            = recovered ch file := by
          rw [recovered_at (at_getChar file), recovered, if_neg hstop.1]
        by_cases hend : file.rest = []
        · -- the read that sets the end-of-file indicator
          have heof : (getChar file).2.feof = true := by
            unfold getChar Stream.feof
            split
            · simp [hfails]
            · rename_i heq
              rw [hend] at heq
              cases heq
          obtain ⟨fuel', rfl⟩ : ∃ n, fuel = n + 1 := ⟨fuel - 1, by omega⟩
          refine ⟨(getChar file).2, ?_, ?_⟩
          · rw [skipLine, if_neg (fun hc => hc.2 heof)]
          · rw [getChar_rest, hend, recovered, if_neg hstop.1, hend]
            rfl
        · have hpos := List.length_pos_iff.mpr hend
          obtain ⟨file', hskip, hrest⟩ :=
            ih (getChar file).1 (getChar file).2
              (by rw [getChar_fails, hfails])
              (by rw [getChar_rest, List.length_tail]; omega)
          exact ⟨file', hskip, by rw [hrest, hrec]⟩
      · rw [if_neg hstop]
        refine ⟨file, rfl, ?_⟩
        unfold recovered
        by_cases hnl : ch = some newline
        · rw [if_pos hnl]
        · -- end of file was seen: nothing is left
          have heof : file.eof = true := by
            by_contra hne
            exact hstop ⟨hnl, hne⟩
          rw [if_neg hnl, file.atEnd heof]
          rfl

-- ======================================================= skip_comments

/-- Leading blanks do not matter for where the line ends. -/
theorem dropLine_dropBlanks (t : List UInt8) :
    dropLine (t.dropWhile isBlank) = dropLine t := by
  induction t with
  | nil => rfl
  | cons c l ih =>
      rw [List.dropWhile_cons]
      split
      · rename_i hblank
        have hnl : c ≠ newline := by
          intro hgiven
          obtain rfl := hgiven
          exact absurd hblank (by decide)
        rw [ih, dropLine_cons, if_neg hnl]
      · rfl

@[simp] theorem usefulText_nil : usefulText [] = [] := by
  simp [usefulText, skipIgnorable]

/-- An ignorable line is skipped whole. -/
theorem usefulText_ignorable {t : List UInt8} (h : ignorable t = true) :
    usefulText t = usefulText (dropLine t) := by
  by_cases hnil : t = []
  · rw [hnil]
    rfl
  · unfold usefulText
    rw [skipIgnorable, dif_neg hnil, if_pos h]

/-- Any other line is taken up behind its blanks. -/
theorem usefulText_useful {t : List UInt8} (h : ignorable t = false) :
    usefulText t = t.dropWhile isBlank := by
  have hnil : t ≠ [] := by
    intro hgiven
    obtain rfl := hgiven
    exact absurd h (by decide)
  unfold usefulText
  rw [skipIgnorable, dif_neg hnil, if_neg (by simp [h])]

/-- Where the loop of `skip_comments` stops. -/
theorem skipCommentsLoop_at (file : Stream) :
    At (skipCommentsLoop file).1 (skipCommentsLoop file).2
        (usefulText file.rest)
      ∧ (skipCommentsLoop file).2.fails = file.fails := by
  fun_induction skipCommentsLoop file with
  | case1 file hread =>
      rw [getChar_fst, List.head?_eq_none_iff] at hread
      have hat := at_getChar file
      rw [hread] at hat ⊢
      exact ⟨by rw [usefulText_nil]; exact hat, getChar_fails file⟩
  | case2 file c hread r hnone =>
      -- the last line, blank and without a newline
      have hat : At r.1 r.2 (file.rest.dropWhile isBlank) :=
        skipWhile_at (at_getChar file)
      have hnil : file.rest.dropWhile isBlank = [] := by
        rw [← List.head?_eq_none_iff, ← hat.head]
        exact hnone
      have hign : ignorable file.rest = true := by
        unfold ignorable
        rw [hnil]
      have hdrop : dropLine file.rest = [] := by
        rw [← dropLine_dropBlanks, hnil]
        rfl
      rw [usefulText_ignorable hign, hdrop, usefulText_nil, ← hnil]
      exact ⟨hat, (skipWhile_fails ..).trans (getChar_fails file)⟩
  | case3 file c hread r hnone huse =>
      have hat : At r.1 r.2 (file.rest.dropWhile isBlank) :=
        skipWhile_at (at_getChar file)
      have hign : ignorable file.rest = false := by
        unfold ignorable
        rw [hat.head] at huse hnone
        cases hu : file.rest.dropWhile isBlank with
        | nil => rw [hu] at hnone; exact absurd rfl hnone
        | cons c l =>
            rw [hu] at huse
            simpa using huse
      rw [usefulText_useful hign]
      exact ⟨hat, (skipWhile_fails ..).trans (getChar_fails file)⟩
  | case4 file c hread r hnone huse ih =>
      have hat : At r.1 r.2 (file.rest.dropWhile isBlank) :=
        skipWhile_at (at_getChar file)
      have hign : ignorable file.rest = true := by
        unfold ignorable
        rw [hat.head] at huse
        cases hu : file.rest.dropWhile isBlank with
        | nil => rfl
        | cons c l =>
            rw [hu] at huse
            by_contra hc
            refine huse ?_
            simpa using hc
      have hat2 := skipWhile_at (p := fun c => c != newline) hat
      have hrest : (skipWhile (fun c => c != newline) r.1 r.2).2.rest
          = dropLine file.rest := by
        rw [hat2.tail, ← dropLine_dropBlanks]
        rfl
      rw [hrest] at ih
      rw [usefulText_ignorable hign]
      refine ⟨ih.1, ih.2.trans ?_⟩
      rw [skipWhile_fails]
      exact (skipWhile_fails ..).trans (getChar_fails file)

theorem skipComments_rest (file : Stream) :
    (skipComments file).rest = usefulText file.rest
      ∧ (skipComments file).fails = file.fails := by
  obtain ⟨hat, hfails⟩ := skipCommentsLoop_at file
  unfold skipComments
  dsimp only
  split
  · exact ⟨by rw [ungetChar_rest, hat.text],
      by rw [ungetChar_fails, hfails]⟩
  · rename_i hnone
    rw [not_not] at hnone
    refine ⟨?_, hfails⟩
    have htext := hat.text
    rw [hnone] at htext
    exact htext

-- ========================================================== get_string

/-- The loop of `get_string` keeps what still fits of its token. -/
theorem getStringLoop_eq (terms : List UInt8) (buf : List UInt8)
    (size : Nat) (file : Stream) (hsize : 1 ≤ size) :
    ∃ file', getStringLoop buf size file terms
        = (buf ++ (file.rest.takeWhile (isToken terms)).take (size - 1),
            (file.rest.dropWhile (isToken terms)).head?, file')
      ∧ file'.rest = (file.rest.dropWhile (isToken terms)).tail
      ∧ file'.fails = file.fails := by
  fun_induction getStringLoop buf size file terms with
  | case1 buf size file hrest =>
      refine ⟨(getChar file).2, ?_, ?_, getChar_fails file⟩
      · rw [hrest]
        simp [hrest]
      · rw [getChar_rest, hrest]
        rfl
  | case2 buf size file c l hrest hterm =>
      refine ⟨(getChar file).2, ?_, ?_, getChar_fails file⟩
      · rw [hrest]
        simp [isToken, hterm, hrest]
      · rw [getChar_rest, hrest]
        simp [isToken, hterm]
  | case3 buf size file c l hrest hterm hroom ih =>
      obtain ⟨file', hget, hrest', hfails⟩ := ih (by omega)
      have htok : isToken terms c = true := by simp [isToken, hterm]
      simp only [getChar_rest, hrest, List.tail_cons] at hget hrest'
      refine ⟨file', ?_, ?_, by rw [hfails, getChar_fails]⟩
      · obtain ⟨n, hn⟩ : ∃ n, size = n + 2 := ⟨size - 2, by omega⟩
        rw [hget, hrest, List.takeWhile_cons_of_pos htok,
          List.dropWhile_cons_of_pos htok, hn]
        simp
      · rw [hrest', hrest, List.dropWhile_cons_of_pos htok]
  | case4 buf size file c l hrest hterm hroom ih =>
      obtain ⟨file', hget, hrest', hfails⟩ := ih hsize
      have htok : isToken terms c = true := by simp [isToken, hterm]
      simp only [getChar_rest, hrest, List.tail_cons] at hget hrest'
      refine ⟨file', ?_, ?_, by rw [hfails, getChar_fails]⟩
      · have hone : size = 1 := by omega
        rw [hget, hrest, List.dropWhile_cons_of_pos htok, hone]
        simp
      · rw [hrest', hrest, List.dropWhile_cons_of_pos htok]

/-- `get_string` into a buffer of `MAX_COMMAND` bytes. -/
theorem getString_eq (terms : List UInt8) (file : Stream) :
    ∃ file', getString maxCommand file terms
        = (kept (file.rest.takeWhile (isToken terms)),
            (file.rest.dropWhile (isToken terms)).head?, file')
      ∧ At (file.rest.dropWhile (isToken terms)).head? file'
          (file.rest.dropWhile (isToken terms))
      ∧ file'.fails = file.fails := by
  obtain ⟨file', hget, hrest, hfails⟩ :=
    getStringLoop_eq terms [] maxCommand file (by decide)
  exact ⟨file', by rw [getString, hget]; rfl, ⟨rfl, hrest⟩, hfails⟩

-- =========================================================== schedules

/-- What a stage of the schedule comes to, by what the text says: the
bits, the flags and the place in the stream, or the error and what it
leaves. -/
structure SchedShows (o : SchedText) (fails : Bool) (s : Sched) : Prop where
  fails : s.file.fails = fails
  accepted : ∀ bits flags next, o = .accepted bits flags next →
    s.ecode = .none ∧ s.bits = bits ∧ s.flags = flags ∧ next ≠ []
      ∧ At s.ch s.file next
  rejected : ∀ ecode left, o = .rejected ecode left →
    s.ecode = ecode ∧ ecode ≠ .none ∧ recovered s.ch s.file = left

theorem schedAccepted_shows {bits : Bitmaps} {flags : Nat}
    {next : List UInt8} {fails : Bool} {s : Sched}
    (hfails : s.file.fails = fails) (hecode : s.ecode = .none)
    (hbits : s.bits = bits) (hflags : s.flags = flags) (hne : next ≠ [])
    (hat : At s.ch s.file next) :
    SchedShows (.accepted bits flags next) fails s := by
  refine ⟨hfails, ?_, ?_⟩
  · intro b fl nx h
    injection h with hb hf hn
    exact ⟨hecode, hbits.trans hb, hflags.trans hf, hn ▸ hne, hn ▸ hat⟩
  · intro e l h
    cases h

theorem schedRejected_shows {ecode : Ecode} {left : List UInt8}
    {fails : Bool} {s : Sched} (hfails : s.file.fails = fails)
    (hecode : s.ecode = ecode) (hne : ecode ≠ .none)
    (hleft : recovered s.ch s.file = left) :
    SchedShows (.rejected ecode left) fails s := by
  refine ⟨hfails, ?_, ?_⟩
  · intro b fl nx h
    cases h
  · intro e l h
    injection h with he hl
    exact ⟨hecode.trans he, he ▸ hne, hleft.trans hl⟩

/-- Two stages of a schedule one after the other, if each does to the
stream what its reader says of the text. -/
theorem SchedShows.andThen {o : SchedText} {fails : Bool} {s : Sched}
    {k : Bitmaps → Nat → List UInt8 → SchedText} {k' : Sched → Sched}
    (h : SchedShows o fails s)
    (hk : ∀ next, s.file.fails = fails → s.ecode = .none → next ≠ [] →
      At s.ch s.file next → SchedShows (k s.bits s.flags next) fails (k' s)) :
    SchedShows (o.bind k) fails (s.andThen k') := by
  unfold Sched.andThen
  cases o with
  | accepted bits flags next =>
      obtain ⟨hecode, rfl, rfl, hne, hat⟩ := h.accepted _ _ _ rfl
      rw [if_pos hecode]
      exact hk next h.fails hecode hne hat
  | rejected ecode left =>
      obtain ⟨hecode, hne, hleft⟩ := h.rejected _ _ rfl
      rw [if_neg (by rw [hecode]; exact hne)]
      exact schedRejected_shows h.fails hecode hne hleft

theorem loadField_shows (f : Field) (flag : Nat) {ecode : Ecode}
    (he : ecode ≠ .none) {fails : Bool} {s : Sched} {t : List UInt8}
    (hf : s.file.fails = fails) (h : At s.ch s.file t) :
    SchedShows (readField f flag ecode s.bits s.flags t) fails
      (loadField f flag ecode s) := by
  obtain ⟨hshows, hfails, hbits⟩ := getList_shows f s.bits h
  rw [hf] at hfails
  unfold loadField readField
  generalize getList s.bits f s.ch s.file = r at hshows hbits hfails
  obtain ⟨ch, bits, file⟩ := r
  dsimp only at hbits hfails ⊢
  cases ho : readList f t with
  | done rs next =>
      rw [ho] at hshows
      obtain ⟨hne, hch, hrest⟩ := hshows
      dsimp only at hch hrest ⊢
      refine schedAccepted_shows hfails ?_ (hbits _ _ ho) ?_ hne ⟨hch, hrest⟩
      · dsimp only
        rw [if_neg (by rw [hch]; simpa using hne)]
      · rw [starFlag, ← h.head]
  | fail left =>
      rw [ho] at hshows
      obtain ⟨hch, hrest⟩ := hshows
      dsimp only at hch hrest ⊢
      refine schedRejected_shows hfails ?_ he ?_
      · dsimp only
        rw [if_pos hch]
      · dsimp only
        rw [hch, recovered_none, hrest]
  | eaten next =>
      rw [ho] at hshows
      obtain ⟨hch, hrest⟩ := hshows
      dsimp only at hch hrest ⊢
      refine schedRejected_shows hfails ?_ he ?_
      · dsimp only
        rw [if_pos hch]
      · dsimp only
        rw [hch, recovered_none, hrest]

theorem loadFields_shows {s : Sched} {t : List UInt8}
    (hbits : s.bits = .zero) (h : At s.ch s.file t) :
    SchedShows (readFields s.flags t) s.file.fails (loadFields s) := by
  unfold loadFields readFields
  have hminute : SchedShows
      (readField minuteField minStar .minute .zero s.flags t) s.file.fails
      (loadField minuteField minStar .minute s) := by
    rw [← hbits]
    exact loadField_shows _ _ (by decide) rfl h
  refine (((hminute.andThen ?_).andThen ?_).andThen ?_).andThen ?_
  · intro next hfails _ _ hat
    exact loadField_shows _ _ (by decide) hfails hat
  · intro next hfails _ _ hat
    exact loadField_shows _ _ (by decide) hfails hat
  · intro next hfails _ _ hat
    exact loadField_shows _ _ (by decide) hfails hat
  · intro next hfails _ _ hat
    exact loadField_shows _ _ (by decide) hfails hat

/-- A kept token has no NUL, so it reads back as it is. -/
theorem ofBuf_kept_token (terms t : List UInt8) :
    (CString.ofBuf (kept (t.takeWhile (isToken terms)))).bytes
      = kept (t.takeWhile (isToken terms)) := by
  unfold CString.ofBuf
  refine List.takeWhile_eq_self_iff.mpr fun c hc => ?_
  have htok := List.mem_takeWhile_imp (List.mem_of_mem_take hc)
  simp only [isToken, strchr, uchar, Option.getD_some, Bool.not_eq_true',
    Bool.or_eq_false_iff] at htok
  simpa using htok.1

theorem loadNickname_shows {s : Sched} (hbits : s.bits = .zero) :
    SchedShows (readNickname s.flags s.file.rest) s.file.fails
      (loadNickname s) := by
  unfold loadNickname readNickname
  obtain ⟨file', hget, hat, hfails⟩ := getString_eq wordTerms s.file
  rw [show bytes " \t\n" = wordTerms from rfl, hget]
  dsimp only
  rw [ofBuf_kept_token, hbits]
  cases hnick : setNickname (kept (s.file.rest.takeWhile (isToken wordTerms)))
      .zero s.flags with
  | none => exact schedRejected_shows hfails rfl (by decide) (recovered_at hat)
  | some r =>
      obtain ⟨bits, flags⟩ := r
      have hat2 := skipBlanks_at hat
      have hfails2 : (skipBlanks
          (s.file.rest.dropWhile (isToken wordTerms)).head? file').2.fails
          = s.file.fails := (skipWhile_fails ..).trans hfails
      dsimp only
      by_cases hend : (s.file.rest.dropWhile (isToken wordTerms)).dropWhile
            isBlank = []
          ∨ ((s.file.rest.dropWhile (isToken wordTerms)).dropWhile
            isBlank).head? = some newline
      · rw [if_pos hend]
        refine schedRejected_shows hfails2 ?_ (by decide) (recovered_at hat2)
        dsimp only
        rw [if_pos]
        have hhead := hat2.head
        rcases hend with hend | hend
        · rw [hend] at hhead
          exact Or.inl hhead
        · rw [hend] at hhead
          exact Or.inr hhead
      · rw [if_neg hend]
        refine schedAccepted_shows hfails2 ?_ rfl rfl
          (fun hn => hend (Or.inl hn)) hat2
        dsimp only
        rw [if_neg]
        intro hc
        refine hend ?_
        have hhead := hat2.head
        rcases hc with hc | hc
        · exact Or.inl (List.head?_eq_none_iff.mp (hhead.symm.trans hc))
        · exact Or.inr (hhead.symm.trans hc)

theorem checkEol_shows {s : Sched} {next : List UInt8} {fails : Bool}
    (hfails : s.file.fails = fails) (hecode : s.ecode = .none)
    (hne : next ≠ []) (h : At s.ch s.file next) :
    SchedShows (readEol s.bits s.flags next) fails (checkEol s) := by
  unfold checkEol readEol
  dsimp only
  rw [← h.head]
  split
  · exact schedRejected_shows hfails rfl (by decide) (recovered_at h)
  · exact schedAccepted_shows hfails hecode rfl rfl hne h

theorem loadSchedule_shows {s : Sched} {t : List UInt8}
    (hbits : s.bits = .zero) (h : At s.ch s.file t) :
    SchedShows (readSchedule s.flags t) s.file.fails (loadSchedule s) := by
  unfold loadSchedule readSchedule
  refine SchedShows.andThen ?_ ?_
  · rw [h.head]
    split
    · rw [← h.tail]
      exact loadNickname_shows hbits
    · exact loadFields_shows hbits h
  · intro next hfails hecode hne hat
    exact checkEol_shows hfails hecode hne hat

-- ================================================ username and command

theorem pwDup_eq (h : CHeap) (pw : Passwd) :
    pwDup h pw = (none, { h with asked := h.asked + 1 })
      ∨ pwDup h pw = (some pw, { h with asked := h.asked + 1 }) := by
  unfold pwDup Heap.request
  dsimp only
  cases h.granted h.asked with
  | true => exact Or.inr rfl
  | false => exact Or.inl rfl

/-- What a username or a command stops at. -/
theorem stop_of_token {terms t next : List UInt8} {c : UInt8}
    (h : t.dropWhile (isToken terms) = c :: next) :
    c = nul ∨ c ∈ terms := by
  have hstop := stops_dropWhile (isToken terms) t
  rw [h, stops_cons] at hstop
  simp only [isToken, strchr, uchar, Option.getD_some, Bool.not_eq_false',
    Bool.or_eq_true, beq_iff_eq, List.contains_iff_mem] at hstop
  exact hstop

/-- What the reading of the username comes to. -/
theorem loadUser_eq (getpwnam : CString → Option Passwd)
    (pw : Option Passwd) {s : Sched} {t : List UInt8}
    (h : At s.ch s.file t) (hnl : t.head? ≠ some newline) :
    ∃ ch file', file'.fails = s.file.fails ∧
      match readUser getpwnam pw t with
      | .error (ecode, next) =>
          loadUser getpwnam pw s.ch (ungetChar s.ch s.file)
              = (.error ecode, ch, file')
            ∧ recovered ch file' = dropLine next
      | .ok (pw', t', stand) =>
          loadUser getpwnam pw s.ch (ungetChar s.ch s.file)
              = (.ok pw', ch, file')
            ∧ recovered ch file' = dropLine stand ∧ file'.rest = t' := by
  have hrest : (ungetChar s.ch s.file).rest = t := by
    rw [ungetChar_rest, h.text]
  cases pw with
  | some pw =>
      refine ⟨s.ch, ungetChar s.ch s.file, ungetChar_fails _ _, rfl, ?_,
        hrest⟩
      rw [recovered, hrest, if_neg (by rw [h.head]; exact hnl)]
  | none =>
      obtain ⟨file', hget, hat, hfails⟩ :=
        getString_eq wordTerms (ungetChar s.ch s.file)
      rw [hrest] at hget hat
      rw [ungetChar_fails] at hfails
      refine ⟨(t.dropWhile (isToken wordTerms)).head?, file', hfails, ?_⟩
      have hrec := recovered_at hat
      simp only [loadUser, readUser,
        show bytes " \t\n" = wordTerms from rfl, hget]
      by_cases hend : t.dropWhile (isToken wordTerms) = []
          ∨ (t.dropWhile (isToken wordTerms)).head? = some newline
      · rw [if_pos hend]
        have hend' : (t.dropWhile (isToken wordTerms)).head? = none
            ∨ (t.dropWhile (isToken wordTerms)).head? = some newline
            ∨ (t.dropWhile (isToken wordTerms)).head? = some star := by
          rcases hend with hend | hend
          · exact Or.inl (List.head?_eq_none_iff.mpr hend)
          · exact Or.inr (Or.inl hend)
        rw [if_pos hend']
        exact ⟨rfl, hrec⟩
      · rw [if_neg hend]
        have hstar : (t.dropWhile (isToken wordTerms)).head?
            ≠ some star := by
          intro hc
          cases hd : t.dropWhile (isToken wordTerms) with
          | nil => exact hend (Or.inl hd)
          | cons c next =>
              rw [hd] at hc
              injection hc with hc
              rcases stop_of_token hd with h0 | h0
              · rw [hc] at h0
                exact absurd h0 (by decide)
              · rw [hc] at h0
                exact absurd h0 (by decide)
        rw [if_neg (by
          intro hgiven
          rcases hgiven with hc | hc | hc
          · exact hend (Or.inl (List.head?_eq_none_iff.mp hc))
          · exact hend (Or.inr hc)
          · exact hstar hc)]
        cases getpwnam (CString.ofBuf
            (kept (t.takeWhile (isToken wordTerms)))) with
        | none => exact ⟨rfl, hrec⟩
        | some pw => exact ⟨rfl, hrec, hat.tail⟩

/-- What the body of `load_entry` comes to: everything but the bitmaps
left by a rejected line. -/
structure BodyShows (o : BodyText) (fails : Bool) (b : Body) : Prop where
  fails : b.file.fails = fails
  verdict : b.verdict = o.verdict
  heap : b.heap = o.heap
  log : b.log = o.log
  left : match o.verdict with
    | .eof _ _ => recovered b.ch b.file = o.left
    | _ => b.file.rest = o.left

theorem loadJob_shows (getpwnam : CString → Option Passwd)
    (pw : Option Passwd) (h : CHeap) (envp : Nat) (fname : String)
    {s : Sched} {t : List UInt8} (hat : At s.ch s.file t)
    (hnl : t.head? ≠ some newline) :
    BodyShows (readJob getpwnam pw h envp fname s.bits s.flags t)
      s.file.fails (loadJob getpwnam pw h envp fname s) := by
  obtain ⟨ch, file', hfails, huser⟩ := loadUser_eq getpwnam pw hat hnl
  unfold loadJob readJob
  cases ho : readUser getpwnam pw t with
  | error r =>
      obtain ⟨ecode, next⟩ := r
      rw [ho] at huser
      rw [huser.1]
      exact ⟨hfails, rfl, rfl, rfl, huser.2⟩
  | ok r =>
      obtain ⟨pw', t', stand⟩ := r
      rw [ho] at huser
      obtain ⟨hload, hrec, hrest⟩ := huser
      rw [hload]
      dsimp only
      unfold prepareJob
      rcases pwDup_eq h pw' with hdup | hdup
      · rw [hdup]
        exact ⟨hfails, rfl, rfl, rfl, hrec⟩
      rw [hdup]
      dsimp only
      generalize loadEnv { h with asked := h.asked + 1 } envp pw' fname = r
      obtain ⟨ecode, envp', h', log⟩ := r
      by_cases hok : ecode = .none ∧ ∃ p, envp' = some p
      · obtain ⟨rfl, p, rfl⟩ := hok
        dsimp only
        obtain ⟨file2, hget, hat2, hfails2⟩ := getString_eq lineTerms file'
        rw [hrest] at hget hat2
        rw [hfails] at hfails2
        rw [show bytes "\n" = lineTerms from rfl, hget]
        dsimp only
        by_cases hend : t'.dropWhile (isToken lineTerms) = []
        · rw [if_pos hend, if_pos (List.head?_eq_none_iff.mpr hend)]
          refine ⟨hfails2, rfl, rfl, rfl, ?_⟩
          dsimp only
          rw [recovered_at hat2, hend]
          rfl
        · rw [if_neg hend,
            if_neg (fun hc => hend (List.head?_eq_none_iff.mp hc))]
          cases (Heap.request h').1 with
          | true => exact ⟨hfails2, rfl, rfl, rfl, hat2.tail⟩
          | false => exact ⟨hfails2, rfl, rfl, rfl, recovered_at hat2⟩
      · have hbad : BodyShows
            { verdict := .eof ecode envp', heap := h', log := log,
              left := dropLine stand } s.file.fails
            { verdict := .eof ecode envp', bits := s.bits, ch := ch,
              file := file', heap := h', log := log } :=
          ⟨hfails, rfl, rfl, rfl, hrec⟩
        cases ecode <;> cases envp' <;>
          first
          | exact hbad
          | exact absurd ⟨rfl, _, rfl⟩ hok

/-- A schedule that is accepted does not stop at a newline. -/
theorem readSchedule_next {flags flags' : Nat} {t next : List UInt8}
    {bits : Bitmaps} (h : readSchedule flags t = .accepted bits flags' next) :
    next.head? ≠ some newline ∧ next.head? ≠ some star := by
  unfold readSchedule at h
  generalize (if t.head? = some atSign then readNickname flags t.tail
    else readFields flags t) = s at h
  cases s with
  | rejected ecode left => cases h
  | accepted b fl nx =>
      simp only [SchedText.bind, readEol] at h
      split at h
      · cases h
      · rename_i hstop
        injection h with _ _ hn
        rw [not_or] at hstop
        exact hn ▸ hstop

theorem loadLine_shows (getpwnam : CString → Option Passwd)
    (pw : Option Passwd) (h : CHeap) (envp : Nat) (fname : String)
    (flags : Nat) {ch : Option UInt8} {file : Stream} {t : List UInt8}
    (hat : At ch file t) :
    BodyShows (readLine getpwnam pw h envp fname flags t) file.fails
      (loadLine getpwnam pw h envp fname flags ch file) := by
  unfold loadLine readLine
  dsimp only
  have hs : SchedShows (readSchedule flags t) file.fails
      (loadSchedule ⟨.none, .zero, flags, ch, file⟩) :=
    loadSchedule_shows (s := ⟨.none, .zero, flags, ch, file⟩) rfl hat
  generalize loadSchedule ⟨.none, .zero, flags, ch, file⟩ = s at hs
  cases ho : readSchedule flags t with
  | accepted bits flags' next =>
      obtain ⟨hecode, rfl, rfl, hne, hat'⟩ := hs.accepted _ _ _ ho
      rw [if_pos hecode, ← hs.fails]
      exact loadJob_shows getpwnam pw h envp fname hat'
        (readSchedule_next ho).1
  | rejected ecode left =>
      obtain ⟨hecode, hne, hleft⟩ := hs.rejected _ _ ho
      rw [if_neg (by rw [hecode]; exact hne)]
      exact ⟨hs.fails, by rw [hecode], rfl, rfl, hleft⟩

theorem loadBody_shows (getpwnam : CString → Option Passwd)
    (file : Stream) (pw : Option Passwd) (h : CHeap) (envp : Nat)
    (fname : String) :
    BodyShows (readUseful getpwnam pw h envp fname (usefulText file.rest))
      file.fails (loadBody getpwnam file pw h envp fname) := by
  obtain ⟨hrest, hfails⟩ := skipComments_rest file
  have hat := at_getChar (skipComments file)
  have hfails1 : (getChar (skipComments file)).2.fails = file.fails := by
    rw [getChar_fails, hfails]
  rw [hrest] at hat
  unfold loadBody
  dsimp only
  generalize getChar (skipComments file) = r at hat hfails1
  obtain ⟨ch, file1⟩ := r
  dsimp only at hat hfails1 ⊢
  cases ht : usefulText file.rest with
  | nil =>
      rw [ht] at hat
      obtain ⟨rfl, hrest1⟩ := at_nil.mp hat
      exact ⟨hfails1, rfl, rfl, rfl, hrest1⟩
  | cons c t' =>
      rw [ht] at hat
      obtain ⟨rfl, hrest1⟩ := at_cons.mp hat
      rw [if_neg (by simp)]
      unfold readUseful
      dsimp only
      by_cases hdash : c = dash
      · subst hdash
        rw [if_pos rfl, if_pos rfl]
        cases mayDisableLog pw with
        | false =>
            refine ⟨hfails1, rfl, rfl, rfl, ?_⟩
            show recovered (some dash) file1 = dropLine t'
            rw [recovered, if_neg (by decide), hrest1]
        | true =>
            rw [if_pos rfl, if_pos rfl]
            have hat2 := at_getChar file1
            have hfails2 : (getChar file1).2.fails = file.fails := by
              rw [getChar_fails, hfails1]
            rw [hrest1] at hat2
            by_cases hend : t' = []
            · rw [hend] at hat2
              obtain ⟨hch2, hrest2⟩ := at_nil.mp hat2
              rw [if_pos hend, if_pos hch2]
              exact ⟨hfails2, rfl, rfl, rfl, hrest2⟩
            · rw [if_neg hend, if_neg (by rw [hat2.head]; simpa using hend),
                ← hfails2]
              exact loadLine_shows getpwnam pw h envp fname dontLog hat2
      · rw [if_neg hdash, if_neg (fun hc => hdash (Option.some.inj hc)),
          ← hfails1]
        exact loadLine_shows getpwnam pw h envp fname 0 hat

-- ========================================================== load_entry

/-- A stream at which `load_entry` has left these bytes for the next
call, having returned this. -/
structure EntryShows (o : EntryText) (r : LoadResult) : Prop where
  entry : r.entry = o.entry
  heap : r.heap = o.heap
  log : r.log = o.log
  left : r.file.rest = o.left

/-- A line that is accepted needs no fuel, and reads that fail later do
not matter to it. -/
theorem loadEntry_entry {getpwnam : CString → Option Passwd}
    {file : Stream} {pw : Option Passwd} {h : CHeap} {envp : Nat}
    {fname : String} {b : BodyText} {e : Entry}
    (hread : readUseful getpwnam pw h envp fname (usefulText file.rest) = b)
    (he : b.verdict = .entry e) (fuel : Nat) (errorFunc : Bool) :
    ∃ file', loadEntry fuel getpwnam file errorFunc pw h envp fname
        = some { entry := some e, file := file', heap := b.heap,
                 log := b.log }
      ∧ file'.rest = b.left := by
  have hb := loadBody_shows getpwnam file pw h envp fname
  rw [hread] at hb
  obtain ⟨-, hverdict, hheap, hlog, hleft⟩ := hb
  rw [he] at hverdict hleft
  refine ⟨(loadBody getpwnam file pw h envp fname).file, ?_, hleft⟩
  unfold loadEntry
  dsimp only
  rw [hverdict]
  dsimp only
  rw [hheap, hlog]

/-- Whatever the stream, an entry is returned for a line that is
accepted. -/
theorem entry_of_loadEntry {fuel : Nat}
    {getpwnam : CString → Option Passwd} {file : Stream}
    {errorFunc : Bool} {pw : Option Passwd} {h : CHeap} {envp : Nat}
    {fname : String} {r : LoadResult} {e : Entry}
    (hload : loadEntry fuel getpwnam file errorFunc pw h envp fname
      = some r) (he : r.entry = some e) :
    (readUseful getpwnam pw h envp fname
      (usefulText file.rest)).verdict = .entry e := by
  have hb := loadBody_shows getpwnam file pw h envp fname
  rw [← hb.verdict]
  unfold loadEntry at hload
  dsimp only at hload
  split at hload
  · next e' hverdict =>
    injection hload with hload
    rw [← hload] at he
    injection he with he
    rw [hverdict, he]
  · injection hload with hload
    rw [← hload] at he
    cases he
  · split at hload
    · cases hload
    · injection hload with hload
      rw [← hload] at he
      cases he

/-- `load_entry` on a stream whose reads do not fail: with enough fuel it
returns, and what it returns and leaves is `readEntry` of the bytes. -/
theorem loadEntry_text {fuel : Nat} (getpwnam : CString → Option Passwd)
    (file : Stream) (errorFunc : Bool) (pw : Option Passwd) (h : CHeap)
    (envp : Nat) (fname : String) (hfails : file.fails = false)
    (hfuel : file.rest.length + 2 ≤ fuel) :
    ∃ r, loadEntry fuel getpwnam file errorFunc pw h envp fname = some r
      ∧ EntryShows
          (readEntry getpwnam errorFunc pw h envp fname file.rest) r := by
  have hb := loadBody_shows getpwnam file pw h envp fname
  have hle := loadBody_rest_le getpwnam file pw h envp fname
  unfold loadEntry readEntry BodyText.finish
  dsimp only
  generalize loadBody getpwnam file pw h envp fname = b at hb hle
  generalize readUseful getpwnam pw h envp fname (usefulText file.rest)
    = o at hb
  obtain ⟨hfails1, hverdict, hheap, hlog, hleft⟩ := hb
  rw [hverdict]
  cases ho : o.verdict with
  | entry e =>
      rw [ho] at hleft
      exact ⟨_, rfl, rfl, hheap, hlog, hleft⟩
  | null =>
      rw [ho] at hleft
      exact ⟨_, rfl, rfl, hheap, hlog, hleft⟩
  | eof ecode envp' =>
      rw [ho] at hleft
      dsimp only at hleft ⊢
      obtain ⟨file', hskip, hrest⟩ :=
        skipLine_rest fuel b.ch b.file (by rw [hfails1, hfails])
          (by omega)
      rw [hskip]
      refine ⟨_, rfl, rfl, ?_, ?_, ?_⟩
      · cases envp' with
        | none => exact hheap
        | some p => exact congrArg (fun h => envFree h p) hheap
      · dsimp only
        rw [hlog]
      · exact hrest.trans hleft

end Tinjac
