/-
A field is read off its own word.

The word of a field is the text up to the next blank or newline. Whether
the field is taken, and as which list, depends on the word alone
(`readRanges_word`): neither on the character that ends it nor on
anything behind. So a field followed by blanks and further text leaves
exactly that text (`readList_word`), and five words with gaps between
them are read one after the other.
-/
import Tinjac.Proofs.LineText
import Tinjac.Proofs.Strictness

namespace Tinjac

open Span

-- ============================================================ one word

/-- A blank or newline ends every range. -/
theorem Range.ends_stop (r : Range) {c : UInt8} (hc : isNonblank c = false)
    (l : List UInt8) : r.Ends (c :: l) := by
  have hcases : c = tab ∨ c = space ∨ c = newline := by
    by_contra hne
    rw [not_or, not_or] at hne
    simp [isNonblank, hne] at hc
  have hterm : strchr fieldTerms (c :: l).head? = true := by
    rcases hcases with rfl | rfl | rfl <;> rfl
  cases r with
  | star step =>
      refine ⟨by simp, ?_⟩
      cases step with
      | none => exact head_ne_of_fieldTerms hterm rfl
      | some n => exact hterm
  | single x => exact hterm
  | span x y step => exact hterm

/-- What ends a range is its next character. -/
theorem Range.Ends.congr {r : Range} {c : UInt8} {l : List UInt8}
    (h : r.Ends (c :: l)) (l' : List UInt8) : r.Ends (c :: l') := by
  cases r with
  | star step =>
      refine ⟨by simp, ?_⟩
      cases step with
      | none => exact h.2
      | some n => exact h.2
  | single x => exact h
  | span x y step => exact h

/-- A list is taken whatever blank or newline ends its word, and
whatever comes after that. -/
theorem ListTaken.congr {f : Field} {rs : List Range}
    {junk : List UInt8} {c c' : UInt8} {l : List UInt8}
    (h : ListTaken f rs (junk ++ c :: l)) (hc' : isNonblank c' = false)
    (l' : List UInt8) : ListTaken f rs (junk ++ c' :: l') := by
  refine ⟨h.ne_nil, h.taken, ?_, ?_⟩
  · intro r hr
    have hends := h.ends r hr
    cases junk with
    | nil => exact r.ends_stop hc' l'
    | cons j junk => exact hends.congr _
  · cases junk with
    | nil =>
        intro heq
        injection heq with heq
        rw [heq] at hc'
        exact absurd hc' (by decide)
    | cons j junk => exact h.more

/-- What is left of a word when its list was read: the list is a prefix
of the word, and what follows it is the rest of the word. -/
theorem readRanges_word {f : Field} {w l next : List UInt8} {c : UInt8}
    {rs : List Range} (hc : isNonblank c = false)
    (h : readRanges f (w ++ c :: l) = .done rs next) :
    ∃ junk, w = listText rs ++ junk ∧ next = junk ++ c :: l
      ∧ ∀ c' l', isNonblank c' = false →
        readRanges f (w ++ c' :: l') = .done rs (junk ++ c' :: l') := by
  obtain ⟨htext, hlist⟩ := readRanges_done.mp h
  have hblank : ∀ b ∈ listText rs, isNonblank b = true :=
    listText_nonblank fun r hr => (hlist.taken r hr).nonblank
  obtain ⟨junk, hw, hnext⟩ : ∃ junk, w = listText rs ++ junk
      ∧ next = junk ++ c :: l := by
    rcases List.append_eq_append_iff.mp htext with ⟨m, hm, hm'⟩ | ⟨m, hm, hm'⟩
    · cases m with
      | nil =>
          refine ⟨[], ?_, ?_⟩
          · simpa using hm.symm
          · simpa using hm'.symm
      | cons b m =>
          injection hm' with hb _
          have hbmem : b ∈ listText rs := by rw [hm]; simp
          rw [hb, hblank b hbmem] at hc
          cases hc
    · exact ⟨m, hm, hm'⟩
  subst hnext
  refine ⟨junk, hw, rfl, ?_⟩
  intro c' l' hc'
  refine readRanges_done.mpr ⟨?_, hlist.congr hc' l'⟩
  rw [hw, List.append_assoc]

/-- The list a word is taken as. -/
def wordList (f : Field) (w : List UInt8) : Option (List Range) :=
  match readRanges f (w ++ [newline]) with
  | .done rs _ => some rs
  | _ => none

/-- What separates two words of a line: blanks, and at least one. -/
structure Gap (gap : List UInt8) : Prop where
  ne_nil : gap ≠ []
  blank : ∀ c ∈ gap, isBlank c = true

theorem gap_space : Gap [space] :=
  ⟨by decide, by decide +kernel⟩

theorem isNonblank_of_isBlank {c : UInt8} (h : isBlank c = true) :
    isNonblank c = false := by
  unfold isBlank at h
  rw [Bool.or_eq_true, beq_iff_eq, beq_iff_eq] at h
  rcases h with rfl | rfl <;> rfl

theorem wordList_some {f : Field} {w : List UInt8} {rs : List Range}
    (h : wordList f w = some rs) :
    ∃ junk, w = listText rs ++ junk ∧ ∀ c l, isNonblank c = false →
      readRanges f (w ++ c :: l) = .done rs (junk ++ c :: l) := by
  unfold wordList at h
  split at h
  · next rs' next hread =>
    injection h with h
    subst h
    obtain ⟨junk, hw, -, hall⟩ := readRanges_word (by decide) hread
    exact ⟨junk, hw, hall⟩
  · cases h

theorem wordList_none {f : Field} {w : List UInt8}
    (h : wordList f w = none) {c : UInt8} (hc : isNonblank c = false)
    (l : List UInt8) (rs : List Range) (next : List UInt8) :
    readRanges f (w ++ c :: l) ≠ .done rs next := by
  intro hread
  obtain ⟨junk, -, -, hall⟩ := readRanges_word hc hread
  unfold wordList at h
  rw [hall newline [] (by decide)] at h
  cases h

/-- A word that starts with a list the parser takes. -/
def WordTaken (f : Field) (w : List UInt8) : Prop :=
  ∃ rs junk, w = listText rs ++ junk ∧ ListTaken f rs (junk ++ [newline])

theorem wordList_isSome {f : Field} {w : List UInt8} :
    (∃ rs, wordList f w = some rs) ↔ WordTaken f w := by
  constructor
  · intro hgiven
    obtain ⟨rs, h⟩ := hgiven
    obtain ⟨junk, hw, hall⟩ := wordList_some h
    exact ⟨rs, junk, hw,
      (readRanges_done.mp (hall newline [] (by decide))).2⟩
  · intro hgiven
    obtain ⟨rs, junk, hw, hlist⟩ := hgiven
    refine ⟨rs, ?_⟩
    unfold wordList
    rw [readRanges_done.mpr ⟨by rw [hw, List.append_assoc], hlist⟩]

theorem WordTaken.head {f : Field} {w : List UInt8}
    (h : WordTaken f w) :
    ∃ c l, w = c :: l
      ∧ (c = star ∨ isDigit c = true ∨ isAlpha c = true) := by
  obtain ⟨rs, junk, hw, hlist⟩ := h
  obtain ⟨c, l, htext, hc⟩ := hlist.head
  exact ⟨c, l ++ junk, by rw [hw, htext, List.cons_append], hc⟩

/-- The rest of a word and the gap behind it are skipped. -/
theorem skipField_gap {junk gap l : List UInt8}
    (hjunk : ∀ c ∈ junk, isNonblank c = true) (hgap : Gap gap)
    (hl : Stops isBlank l) : skipField (junk ++ (gap ++ l)) = l := by
  have hstop : Stops isNonblank (gap ++ l) := by
    obtain ⟨c, g, rfl⟩ := List.exists_cons_of_ne_nil hgap.ne_nil
    exact stops_cons.mpr
      (isNonblank_of_isBlank (hgap.blank c List.mem_cons_self))
  unfold skipField
  rw [dropWhile_run hjunk hstop, dropWhile_run hgap.blank hl]

/-- A field followed by a gap and further text: that text is left. -/
theorem readList_word {f : Field} {w gap l : List UInt8}
    {rs : List Range} (hw : ∀ c ∈ w, isNonblank c = true)
    (hgap : Gap gap) (hl : Stops isBlank l) (hne : l ≠ [])
    (h : wordList f w = some rs) :
    readList f (w ++ (gap ++ l)) = .done rs l := by
  obtain ⟨junk, hsplit, hall⟩ := wordList_some h
  obtain ⟨c, g, rfl⟩ := List.exists_cons_of_ne_nil hgap.ne_nil
  have hc := isNonblank_of_isBlank (hgap.blank c List.mem_cons_self)
  have hjunk : ∀ c ∈ junk, isNonblank c = true :=
    fun b hb => hw b (by rw [hsplit]; exact List.mem_append_right _ hb)
  have hskip := skipField_gap hjunk hgap hl
  unfold readList
  rw [List.cons_append, hall c (g ++ l) hc]
  simp only [Outcome.bind]
  rw [← List.cons_append, hskip, if_neg hne]

theorem readList_word_none {f : Field} {w gap l : List UInt8}
    (hgap : Gap gap) (h : wordList f w = none) (rs : List Range)
    (next : List UInt8) : readList f (w ++ (gap ++ l)) ≠ .done rs next := by
  intro hread
  obtain ⟨c, g, rfl⟩ := List.exists_cons_of_ne_nil hgap.ne_nil
  have hc := isNonblank_of_isBlank (hgap.blank c List.mem_cons_self)
  unfold readList at hread
  obtain ⟨rs', next', hranges, -⟩ := Outcome.bind_done.mp hread
  exact wordList_none h hc (g ++ l) rs' next' hranges

/-- At the end of the text a field is rejected, whatever its word. -/
theorem readList_word_end {f : Field} {w gap : List UInt8}
    (hw : ∀ c ∈ w, isNonblank c = true) (hgap : Gap gap)
    (rs : List Range) (next : List UInt8) :
    readList f (w ++ gap) ≠ .done rs next := by
  intro hread
  obtain ⟨c, g, rfl⟩ := List.exists_cons_of_ne_nil hgap.ne_nil
  have hc := isNonblank_of_isBlank (hgap.blank c List.mem_cons_self)
  unfold readList at hread
  obtain ⟨rs', next', hranges, hdone⟩ := Outcome.bind_done.mp hread
  obtain ⟨junk, hsplit, rfl, -⟩ := readRanges_word hc hranges
  have hjunk : ∀ b ∈ junk, isNonblank b = true :=
    fun b hb => hw b (by rw [hsplit]; exact List.mem_append_right _ hb)
  have hskip := skipField_gap hjunk hgap stops_nil
  rw [List.append_nil] at hskip
  rw [hskip, if_pos rfl] at hdone
  cases hdone

-- ======================================================== whole fields

namespace SchedText

/-- The schedule was rejected. -/
def Rejected : SchedText → Prop
  | accepted .. => False
  | rejected .. => True

theorem rejected_bind {s : SchedText}
    {k : Bitmaps → Nat → List UInt8 → SchedText} (h : s.Rejected) :
    (s.bind k).Rejected := by
  cases s with
  | accepted b fl next => exact h.elim
  | rejected e left => trivial

/-- What was accepted was accepted by both halves. -/
theorem bind_accepted {s : SchedText}
    {k : Bitmaps → Nat → List UInt8 → SchedText} {bits : Bitmaps}
    {flags : Nat} {next : List UInt8}
    (h : s.bind k = .accepted bits flags next) :
    ∃ b fl nx, s = .accepted b fl nx
      ∧ k b fl nx = .accepted bits flags next := by
  cases s with
  | accepted b fl nx => exact ⟨b, fl, nx, rfl, h⟩
  | rejected ecode left => cases h

end SchedText

/-- A word is a run of characters that are no blanks. -/
structure FieldWord (w : List UInt8) : Prop where
  ne_nil : w ≠ []
  nonblank : ∀ c ∈ w, isNonblank c = true

theorem FieldWord.head {w : List UInt8} (hw : FieldWord w)
    (l : List UInt8) : (w ++ l).head? = w.head? := by
  obtain ⟨c, w, rfl⟩ := List.exists_cons_of_ne_nil hw.ne_nil
  rfl

theorem FieldWord.stops {w : List UInt8} (hw : FieldWord w)
    (l : List UInt8) : Stops isBlank (w ++ l) := by
  obtain ⟨c, w, rfl⟩ := List.exists_cons_of_ne_nil hw.ne_nil
  refine stops_cons.mpr ?_
  have hc := hw.nonblank c List.mem_cons_self
  by_contra hblank
  rw [Bool.not_eq_false] at hblank
  rw [isNonblank_of_isBlank hblank] at hc
  cases hc

/-- What a field makes of its word alone: the sets and flags if it takes
it, and the error if not. -/
def fieldWord (f : Field) (flag : Nat) (w : List UInt8) (bits : Bitmaps)
    (flags : Nat) : Option (Bitmaps × Nat) :=
  (wordList f w).map fun rs =>
    (applyRanges f rs (clearField f bits), starFlag flag w flags)

theorem readField_rejected {f : Field} {flag : Nat} {ecode : Ecode}
    {bits : Bitmaps} {flags : Nat} {t : List UInt8}
    (h : ∀ rs next, readList f t ≠ .done rs next) :
    (readField f flag ecode bits flags t).Rejected := by
  unfold readField
  cases hread : readList f t with
  | done rs next => exact absurd hread (h rs next)
  | fail left => trivial
  | eaten next => trivial

theorem fieldWord_eq_some {f : Field} {flag flags fl : Nat}
    {w : List UInt8} {bits b : Bitmaps} :
    fieldWord f flag w bits flags = some (b, fl)
      ↔ ∃ rs, wordList f w = some rs
        ∧ (applyRanges f rs (clearField f bits), starFlag flag w flags)
          = (b, fl) :=
  Option.map_eq_some_iff

/-- A schedule text is read as this, with this text left. -/
def SchedText.Reads (s : SchedText) (o : Option (Bitmaps × Nat))
    (next : List UInt8) : Prop :=
  match o with
  | none => s.Rejected
  | some (bits, flags) => s = .accepted bits flags next

/-- Two readers one after the other, if the second one reads what the
first one has left. -/
theorem SchedText.Reads.bind {s : SchedText} {o : Option (Bitmaps × Nat)}
    {next next' : List UInt8} {k : Bitmaps → Nat → List UInt8 → SchedText}
    {k' : Bitmaps × Nat → Option (Bitmaps × Nat)} (h : s.Reads o next)
    (hk : ∀ bits flags, (k bits flags next).Reads (k' (bits, flags)) next') :
    (s.bind k).Reads (o.bind k') next' := by
  cases o with
  | none => exact SchedText.rejected_bind h
  | some r =>
      obtain ⟨bits, flags⟩ := r
      have hs : s = .accepted bits flags next := h
      rw [hs]
      exact hk bits flags

/-- A field word with a gap behind it is read as the word says, except
at the end of the text. -/
theorem readField_reads (f : Field) (flag : Nat) (ecode : Ecode)
    (bits : Bitmaps) (flags : Nat) {w gap l : List UInt8}
    (hw : FieldWord w) (hgap : Gap gap) (hl : Stops isBlank l) :
    (readField f flag ecode bits flags (w ++ (gap ++ l))).Reads
      (if l = [] then none else fieldWord f flag w bits flags) l := by
  by_cases hne : l = []
  · rw [if_pos hne, hne, List.append_nil]
    exact readField_rejected (readList_word_end hw.nonblank hgap)
  · rw [if_neg hne]
    unfold fieldWord
    cases hword : wordList f w with
    | none => exact readField_rejected (readList_word_none hgap hword)
    | some rs =>
        show readField f flag ecode bits flags (w ++ (gap ++ l))
          = .accepted _ _ l
        unfold readField starFlag
        rw [readList_word hw.nonblank hgap hl hne hword, hw.head]

/-- The same in front of another word. -/
theorem readField_reads_word (f : Field) (flag : Nat) (ecode : Ecode)
    (bits : Bitmaps) (flags : Nat) {w gap w' l : List UInt8}
    (hw : FieldWord w) (hgap : Gap gap) (hw' : FieldWord w') :
    (readField f flag ecode bits flags (w ++ (gap ++ (w' ++ l)))).Reads
      (fieldWord f flag w bits flags) (w' ++ l) := by
  have hreads := readField_reads f flag ecode bits flags hw hgap
    (hw'.stops l)
  rwa [if_neg] at hreads
  intro h
  exact hw'.ne_nil (List.append_eq_nil_iff.mp h).1

end Tinjac
