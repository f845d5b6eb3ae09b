/-
No reader leaves its line.

The end of a line is the text from its newline on (`lineEnd`). A loop
that stops at a newline does not change it, and neither does any step of
the parser on a field: what a piece of a schedule leaves, taken or not,
still ends in the same line (`readList_ends`). So a line that has its
newline is read the same whatever comes after it (`readList_append`).
-/
import Tinjac.Proofs.Grammar
import Tinjac.Proofs.LineText

namespace Tinjac

open Span

-- =================================================== the end of a line

/-- The text from the first newline on. Two texts with the same line end
are in the same line. -/
def lineEnd (t : List UInt8) : List UInt8 :=
  t.dropWhile fun c => c != newline

/-- The rest behind a line is what follows its newline. -/
theorem dropLine_eq (t : List UInt8) : dropLine t = (lineEnd t).tail := rfl

/-- A character that is no newline is part of the line. -/
theorem lineEnd_cons {c : UInt8} (hc : c ≠ newline) (l : List UInt8) :
    lineEnd (c :: l) = lineEnd l := by
  unfold lineEnd
  rw [List.dropWhile_cons, if_pos (bne_iff_ne.mpr hc)]

/-- A line ends at its newline. -/
theorem lineEnd_newline (l : List UInt8) :
    lineEnd (newline :: l) = newline :: l := by
  unfold lineEnd
  rw [List.dropWhile_cons, if_neg (by decide)]

/-- Reading a character of the line does not change where the line ends.
-/
theorem lineEnd_tail {t : List UInt8} (h : t.head? ≠ some newline) :
    lineEnd t.tail = lineEnd t := by
  cases t with
  | nil => rfl
  | cons c l => exact (lineEnd_cons (fun hc => h (congrArg some hc)) l).symm

/-- Nor does reading a word without a newline. -/
theorem lineEnd_append {w : List UInt8} (hw : ∀ c ∈ w, c ≠ newline)
    (t : List UInt8) : lineEnd (w ++ t) = lineEnd t := by
  unfold lineEnd
  rw [List.dropWhile_append_of_pos fun c hc => bne_iff_ne.mpr (hw c hc)]

/-- A loop that stops at a newline stays in the line. -/
theorem lineEnd_dropWhile {p : UInt8 → Bool} (hp : p newline = false)
    (t : List UInt8) : lineEnd (t.dropWhile p) = lineEnd t := by
  have hsplit := List.takeWhile_append_dropWhile (p := p) (l := t)
  have hrun : ∀ c ∈ t.takeWhile p, c ≠ newline := by
    intro c hc hnl
    have hpass := List.mem_takeWhile_imp hc
    rw [hnl, hp] at hpass
    cases hpass
  have hend := lineEnd_append hrun (t.dropWhile p)
  rw [hsplit] at hend
  exact hend.symm

/-- Nor does reading any part of a run of characters whose class has no
newline in it. -/
theorem lineEnd_drop {p : UInt8 → Bool} (hp : p newline = false)
    {t : List UInt8} {k : Nat} (hk : k ≤ (t.takeWhile p).length) :
    lineEnd (t.drop k) = lineEnd t := by
  have hrun : ∀ c ∈ t.take k, c ≠ newline := by
    intro c hc hnl
    have htake : t.take k = (t.takeWhile p).take k := by
      calc t.take k = (t.takeWhile p ++ t.dropWhile p).take k := by
            rw [List.takeWhile_append_dropWhile]
        _ = (t.takeWhile p).take k := List.take_append_of_le_length hk
    rw [htake] at hc
    have hpass := List.mem_takeWhile_imp (List.mem_of_mem_take hc)
    rw [hnl, hp] at hpass
    cases hpass
  have hend := lineEnd_append hrun (t.drop k)
  rw [List.take_append_drop] at hend
  exact hend.symm

/-- A line has an end iff it has a newline. -/
theorem lineEnd_ne_nil {t : List UInt8} :
    lineEnd t ≠ [] ↔ newline ∈ t := by
  constructor
  · intro h
    obtain ⟨c, l, hend⟩ := List.exists_cons_of_ne_nil h
    have hstop := stops_dropWhile (fun c => c != newline) t
    have hhead : lineEnd t = t.dropWhile fun c => c != newline := rfl
    rw [← hhead, hend, stops_cons] at hstop
    have hc : c = newline := by simpa using hstop
    have hsuffix : lineEnd t <:+ t := List.dropWhile_suffix _
    rw [← hc]
    exact hsuffix.mem (by rw [hend]; exact List.mem_cons_self)
  · intro h
    exact dropWhile_ne_nil ⟨newline, h, by decide⟩

/-- What an end starts with. -/
theorem lineEnd_cases (t : List UInt8) :
    lineEnd t = [] ∨ lineEnd t = newline :: dropLine t := by
  by_cases h : newline ∈ t
  · refine Or.inr ?_
    obtain ⟨c, l, hend⟩ :=
      List.exists_cons_of_ne_nil (lineEnd_ne_nil.mpr h)
    have hstop := stops_dropWhile (fun c => c != newline) t
    have hhead : lineEnd t = t.dropWhile fun c => c != newline := rfl
    rw [← hhead, hend, stops_cons] at hstop
    have hc : c = newline := by simpa using hstop
    rw [dropLine_eq, hend, hc]
    rfl
  · refine Or.inl ?_
    by_contra hne
    exact h (lineEnd_ne_nil.mp hne)

/-- If the line ends in a newline then what is left of it has one. -/
theorem mem_newline_of_lineEnd {t u : List UInt8}
    (h : lineEnd u = lineEnd t) (ht : newline ∈ t) : newline ∈ u := by
  rw [← lineEnd_ne_nil, h]
  exact lineEnd_ne_nil.mpr ht

/-- What a rejected line leaves, from where the stream stood. -/
theorem recovered_eq (ch : Option UInt8) (file : Stream) :
    recovered ch file = dropLine (text ch file) := by
  unfold recovered text
  cases ch with
  | none => rfl
  | some c =>
      show _ = dropLine (c :: file.rest)
      rw [dropLine_cons]
      by_cases hc : c = newline
      · rw [if_pos hc, if_pos (congrArg some hc)]
      · rw [if_neg hc, if_neg (fun h => hc (Option.some.inj h))]

-- ======================================================== what is left

/-- What an outcome leaves ends in the same line; a character that was
swallowed still counts. -/
def Outcome.Ends {α : Type} (t : List UInt8) : Outcome α → Prop
  | .done _ next => lineEnd next = lineEnd t
  | .fail left => lineEnd left = lineEnd t
  | .eaten next => lineEnd next = lineEnd t

/-- Two readers one after the other stay in the line if each of them does.
-/
theorem Outcome.Ends.bind {α β : Type} {t : List UInt8} {o : Outcome α}
    {k : α → List UInt8 → Outcome β} (h : o.Ends t)
    (hk : ∀ a next, o = .done a next → (k a next).Ends next) :
    (o.bind k).Ends t := by
  have hlift : ∀ {next : List UInt8} {o' : Outcome β},
      lineEnd next = lineEnd t → o'.Ends next → o'.Ends t := by
    intro next o' hnext ho
    cases o' with
    | done a next' => exact ho.trans hnext
    | fail left => exact ho.trans hnext
    | eaten next' => exact ho.trans hnext
  cases o with
  | done a next => exact hlift h (hk a next rfl)
  | fail left => exact h
  | eaten next => exact h

/-- A reader that first takes a character of the line stays in it, if what
it does then does. -/
theorem Outcome.Ends.of_tail {α : Type} {t : List UInt8} {o : Outcome α}
    (hhead : t.head? ≠ some newline) (h : o.Ends t.tail) : o.Ends t := by
  have htail := lineEnd_tail hhead
  cases o with
  | done a next => exact h.trans htail
  | fail left => exact h.trans htail
  | eaten next => exact h.trans htail

/-- Nothing is left where a lone character was expected to go on. -/
theorem lineEnd_of_tail_nil {t : List UInt8}
    (hhead : t.head? ≠ some newline) (htail : t.tail = []) :
    lineEnd [] = lineEnd t := by
  rw [← htail]
  exact lineEnd_tail hhead

/-- `get_number` stays in the line: no terminator lets it read past a
newline. -/
theorem readNumber_ends (names : Option (List (List UInt8)))
    (terms t : List UInt8) : (readNumber names terms t).Ends t := by
  have hdigit : isDigit newline = false := by decide
  have halpha : isAlpha newline = false := by decide
  unfold readNumber
  dsimp only
  split
  · next hlong => exact lineEnd_drop hdigit (by omega)
  · split
    · split
      · exact lineEnd_dropWhile hdigit t
      · exact lineEnd_dropWhile hdigit t
    · split
      · rfl
      · split
        · next hlong => exact lineEnd_drop halpha (by omega)
        · split
          · exact lineEnd_dropWhile halpha t
          · exact lineEnd_dropWhile halpha t

/-- So does the step behind a slash. -/
theorem readStep_ends (t : List UInt8) : (readStep t).Ends t := by
  unfold readStep
  split
  · next hslash =>
    have hhead : t.head? ≠ some newline := by
      rw [hslash]
      decide
    split
    · next htail => exact lineEnd_of_tail_nil hhead htail
    · refine ((readNumber_ends ..).bind ?_).of_tail hhead
      intro n next _
      cases n with
      | digits ds =>
          dsimp only
          split
          · rfl
          · rfl
      | name ls => rfl
  · rfl

/-- Setting the elements of a range reads nothing. -/
theorem takeRange_ends (f : Field) (r : Range) (next : List UInt8) :
    (takeRange f r next).Ends next := by
  unfold takeRange
  split
  · rfl
  · rfl

/-- A range stays in the line, counting what a bad one swallows. -/
theorem readRange_ends (f : Field) (t : List UInt8) :
    (readRange f t).Ends t := by
  unfold readRange
  split
  · next hstar =>
    have hhead : t.head? ≠ some newline := by
      rw [hstar]
      decide
    split
    · next htail => exact lineEnd_of_tail_nil hhead htail
    · refine ((readStep_ends _).bind ?_).of_tail hhead
      intro step next _
      exact takeRange_ends ..
  · refine (readNumber_ends ..).bind ?_
    intro x next _
    split
    · exact takeRange_ends ..
    · next hdash =>
      have hhead : next.head? ≠ some newline := by
        rw [not_not.mp hdash]
        decide
      split
      · next htail => exact lineEnd_of_tail_nil hhead htail
      · refine ((readNumber_ends ..).bind ?_).of_tail hhead
        intro y next _
        split
        · rfl
        · refine (readStep_ends _).bind ?_
          intro step next _
          exact takeRange_ends ..

/-- A list of ranges stays in the line. -/
theorem readRanges_ends (f : Field) (t : List UInt8) :
    (readRanges f t).Ends t := by
  fun_induction readRanges f t with
  | case1 t r next hread hcomma ih =>
      have hnext := readRange_ends f t
      rw [hread] at hnext
      have hhead : next.head? ≠ some newline := by
        rw [hcomma]
        decide
      have hlist := (ih.bind (k := fun rs next => .done (r :: rs) next)
        fun _ _ _ => rfl).of_tail hhead
      have hone : (Outcome.done r next).Ends t := hnext
      exact hone.bind (k := fun r next =>
        (readRanges f next.tail).bind fun rs next => .done (r :: rs) next)
        fun r' next' h => by
          injection h with hr hn
          rw [← hr, ← hn]
          exact hlist
  | case2 t r next hread hcomma =>
      have hnext := readRange_ends f t
      rw [hread] at hnext
      exact hnext
  | case3 t left hread =>
      have hnext := readRange_ends f t
      rw [hread] at hnext
      exact hnext
  | case4 t next hread =>
      have hnext := readRange_ends f t
      rw [hread] at hnext
      exact hnext

/-- And so does the scan from the end of a list to the next field. -/
theorem lineEnd_skipField (t : List UInt8) :
    lineEnd (skipField t) = lineEnd t := by
  unfold skipField
  rw [lineEnd_dropWhile (by decide), lineEnd_dropWhile (by decide)]

/-- **A list stays in its line.** -/
theorem readList_ends (f : Field) (t : List UInt8) :
    (readList f t).Ends t := by
  unfold readList
  refine (readRanges_ends f t).bind ?_
  intro rs next _
  have hskip := lineEnd_skipField next
  split
  · next hnil =>
    rw [hnil] at hskip
    exact hskip
  · exact hskip

-- ===================================================== what follows it

section

variable {α β : Type} {t r : List UInt8}

/-- What two readers make of a longer text is what they make of the text,
if this is so of each. -/
theorem Outcome.append_bind {o : Outcome α}
    {k : α → List UInt8 → Outcome β}
    (hk : ∀ a next, o = .done a next →
      k a (next ++ r) = (k a next).append r) :
    (o.append r).bind k = (o.bind k).append r := by
  cases o with
  | done a next => exact hk a next rfl
  | fail left => rfl
  | eaten next => rfl

/-- A reader that has stayed in a line with a newline leaves the newline.
-/
theorem newline_of_done {o : Outcome α} {a : α} {next : List UInt8}
    (hends : o.Ends t) (ho : o = .done a next) (ht : newline ∈ t) :
    newline ∈ next := by
  rw [ho] at hends
  exact mem_newline_of_lineEnd hends ht

/-- The first character of a text is that of the longer one. -/
theorem head_append {t : List UInt8} (ht : t ≠ []) (r : List UInt8) :
    (t ++ r).head? = t.head? := by
  obtain ⟨c, l, rfl⟩ := List.exists_cons_of_ne_nil ht
  rfl

/-- And what is behind it is longer by as much. -/
theorem tail_append {t : List UInt8} (ht : t ≠ []) (r : List UInt8) :
    (t ++ r).tail = t.tail ++ r := by
  obtain ⟨c, l, rfl⟩ := List.exists_cons_of_ne_nil ht
  rfl

/-- Behind a character that is no newline the newline is still to come. -/
theorem newline_mem_tail (ht : newline ∈ t)
    (hhead : t.head? ≠ some newline) : newline ∈ t.tail := by
  exact mem_newline_of_lineEnd (lineEnd_tail hhead) ht

/-- `get_number` does not look behind the line. -/
theorem readNumber_append (names : Option (List (List UInt8)))
    (terms : List UInt8) (ht : newline ∈ t) :
    readNumber names terms (t ++ r)
      = (readNumber names terms t).append r := by
  have hdigit : ∃ c ∈ t, isDigit c = false := ⟨newline, ht, by decide⟩
  have halpha : ∃ c ∈ t, isAlpha c = false := ⟨newline, ht, by decide⟩
  have hdrop : ∀ {p : UInt8 → Bool} {k : Nat},
      k ≤ (t.takeWhile p).length → (t ++ r).drop k = t.drop k ++ r := by
    intro p k hk
    have hprefix := List.takeWhile_prefix (l := t) p
    exact List.drop_append_of_le_length (Nat.le_trans hk hprefix.length_le)
  unfold readNumber
  dsimp only
  rw [takeWhile_append_stop hdigit, dropWhile_append_stop hdigit,
    takeWhile_append_stop halpha, dropWhile_append_stop halpha,
    head_append (dropWhile_ne_nil hdigit),
    head_append (dropWhile_ne_nil halpha)]
  split
  · next hlong =>
    rw [hdrop (p := isDigit) (by omega)]
    rfl
  · split
    · split
      · rfl
      · rfl
    · cases names with
      | none => rfl
      | some names =>
          dsimp only
          split
          · next hlong =>
            rw [hdrop (p := isAlpha) (by omega)]
            rfl
          · split
            · rfl
            · rfl

/-- Nor does the step of a range. -/
theorem readStep_append (ht : newline ∈ t) :
    readStep (t ++ r) = (readStep t).append r := by
  have hne : t ≠ [] := List.ne_nil_of_mem ht
  unfold readStep
  rw [head_append hne, tail_append hne]
  split
  · next hslash =>
    have htail : newline ∈ t.tail := by
      refine newline_mem_tail ht ?_
      rw [hslash]
      decide
    have hne' := List.ne_nil_of_mem htail
    rw [if_neg (List.append_ne_nil_of_left_ne_nil hne' r), if_neg hne',
      readNumber_append none _ htail]
    apply Outcome.append_bind
    intro n next _
    cases n with
    | digits ds =>
        dsimp only
        split
        · rfl
        · rfl
    | name ls => rfl
  · rfl

/-- Setting elements does not look at the text at all. -/
theorem takeRange_append (f : Field) (r' : Range) (next : List UInt8) :
    takeRange f r' (next ++ r) = (takeRange f r' next).append r := by
  unfold takeRange
  split
  · rfl
  · rfl

/-- A range does not look behind the line. -/
theorem readRange_append (f : Field) (ht : newline ∈ t) :
    readRange f (t ++ r) = (readRange f t).append r := by
  have hne : t ≠ [] := List.ne_nil_of_mem ht
  unfold readRange
  rw [head_append hne, tail_append hne]
  split
  · next hstar =>
    have htail : newline ∈ t.tail := by
      refine newline_mem_tail ht ?_
      rw [hstar]
      decide
    have hne' := List.ne_nil_of_mem htail
    rw [if_neg (List.append_ne_nil_of_left_ne_nil hne' r), if_neg hne',
      readStep_append htail]
    apply Outcome.append_bind
    intro step next _
    exact takeRange_append ..
  · rw [readNumber_append f.names _ ht]
    apply Outcome.append_bind
    intro x next hx
    have hnext := newline_of_done (readNumber_ends ..) hx ht
    have hne1 := List.ne_nil_of_mem hnext
    rw [head_append hne1, tail_append hne1]
    split
    · exact takeRange_append ..
    · next hdash =>
      have htail : newline ∈ next.tail := by
        refine newline_mem_tail hnext ?_
        rw [not_not.mp hdash]
        decide
      have hne' := List.ne_nil_of_mem htail
      rw [if_neg (List.append_ne_nil_of_left_ne_nil hne' r), if_neg hne',
        readNumber_append f.names _ htail]
      apply Outcome.append_bind
      intro y next2 hy
      have hnext2 := newline_of_done (readNumber_ends ..) hy htail
      split
      · rfl
      · rw [readStep_append hnext2]
        apply Outcome.append_bind
        intro step next3 _
        exact takeRange_append ..

/-- Nor does a list look behind the line that it is in. -/
theorem readRanges_append (f : Field) (ht : newline ∈ t) :
    readRanges f (t ++ r) = (readRanges f t).append r := by
  fun_induction readRanges f t with
  | case1 t x next hread hcomma ih =>
      have hnext := newline_of_done (readRange_ends f t) hread ht
      have htail : newline ∈ next.tail := by
        refine newline_mem_tail hnext ?_
        rw [hcomma]
        decide
      obtain ⟨l, rfl⟩ := List.head?_eq_some_iff.mp hcomma
      have hread' : readRange f (t ++ r) = .done x (comma :: (l ++ r)) := by
        rw [readRange_append f ht, hread]
        rfl
      have hrec : readRanges f (l ++ r) = (readRanges f l).append r :=
        ih htail
      rw [readRanges_comma hread', hrec]
      exact Outcome.append_bind fun _ _ _ => rfl
  | case2 t x next hread hcomma =>
      have hnext := newline_of_done (readRange_ends f t) hread ht
      have hread' := readRange_append f (r := r) ht
      rw [hread] at hread'
      rw [readRanges_last hread']
      · rfl
      · rw [head_append (List.ne_nil_of_mem hnext)]
        exact hcomma
  | case3 t left hread =>
      have hread' := readRange_append f (r := r) ht
      rw [hread] at hread'
      rw [readRanges_stop (by rw [hread']; exact fun _ _ h => by cases h),
        hread']
      rfl
  | case4 t next hread =>
      have hread' := readRange_append f (r := r) ht
      rw [hread] at hread'
      rw [readRanges_stop (by rw [hread']; exact fun _ _ h => by cases h),
        hread']
      rfl

/-- Nor does the scan to the next field. -/
theorem skipField_append (ht : newline ∈ t) :
    skipField (t ++ r) = skipField t ++ r := by
  unfold skipField
  rw [dropWhile_append_stop ⟨newline, ht, by decide⟩,
    dropWhile_append_stop ⟨newline, mem_dropWhile ht (by decide),
      by decide⟩]

/-- **A list does not see what follows its line.** -/
theorem readList_append (f : Field) (ht : newline ∈ t) :
    readList f (t ++ r) = (readList f t).append r := by
  unfold readList
  rw [readRanges_append f ht]
  apply Outcome.append_bind
  intro rs next hnext
  have hmem := newline_of_done (readRanges_ends f t) hnext ht
  have hskip : newline ∈ skipField next :=
    mem_newline_of_lineEnd (lineEnd_skipField next) hmem
  have hne := List.ne_nil_of_mem hskip
  rw [skipField_append hmem, if_neg hne,
    if_neg (List.append_ne_nil_of_left_ne_nil hne r)]
  rfl

end

end Tinjac
