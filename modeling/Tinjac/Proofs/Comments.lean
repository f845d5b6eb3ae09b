/-
Where `skip_comments` stops.

A text is its lines, one behind the other (`flatten_linesOf`). The lines
that are skipped are described by what they look like (`BlankLine`,
`CommentLine`), and the test of the text-level reader finds exactly these
(`ignorable_iff`). The induction is on the lines that are skipped: each
of them is dropped whole, so the text is taken up in the first other
line, behind its blanks (`usefulText_lines`), or not at all.
-/
import Tinjac.Proofs.LineByLine

namespace Tinjac

open Span

-- =============================================================== lines

/-- Spaces and tabs only, and a newline if it has one. -/
def BlankLine (l : List UInt8) : Prop :=
  ∃ blanks, (∀ b ∈ blanks, isBlank b = true)
    ∧ (l = blanks ∨ l = blanks ++ [newline])

/-- The first character that is no space or tab is a `#`. -/
def CommentLine (l : List UInt8) : Prop :=
  ∃ blanks remark, (∀ b ∈ blanks, isBlank b = true)
    ∧ l = blanks ++ hash :: remark

def SkippedLine (l : List UInt8) : Prop := BlankLine l ∨ CommentLine l

theorem flatten_linesOf (t : List UInt8) : (linesOf t).flatten = t := by
  fun_induction linesOf t with
  | case1 => rfl
  | case2 t _ ih => rw [List.flatten_cons, ih, takeLine_dropLine]

/-- The first line is the only one, or ends in its newline. -/
theorem newline_mem_takeLine {t u v : List UInt8}
    (h : takeLine t = u ++ newline :: v) : v = [] := by
  by_contra hv
  have hmem : newline ∈ (takeLine t).dropLast := by
    rw [h, List.dropLast_append_of_ne_nil (List.cons_ne_nil _ _),
      List.dropLast_cons_of_ne_nil hv]
    simp
  have hbody : newline ∉ t.takeWhile fun c => c != newline := by
    intro hm
    exact absurd (List.mem_takeWhile_imp hm) (by decide)
  apply hbody
  unfold takeLine at hmem
  cases hd : t.dropWhile fun c => c != newline with
  | nil =>
      rw [hd, List.take_nil, List.append_nil] at hmem
      exact List.dropLast_subset _ hmem
  | cons c rest =>
      rw [hd, List.take_succ_cons, List.take_zero, List.dropLast_concat]
        at hmem
      exact hmem

theorem mem_linesOf {t l : List UInt8} (h : l ∈ linesOf t) :
    ∃ u, l = takeLine u := by
  fun_induction linesOf t with
  | case1 => cases h
  | case2 t hne ih =>
      rcases List.mem_cons.mp h with rfl | h
      · exact ⟨t, rfl⟩
      · exact ih h

/-- The lines that are ignored are the blank ones and the comments. -/
theorem ignorable_iff {l t : List UInt8} (hline : l ∈ linesOf t) :
    ignorable l = true ↔ SkippedLine l := by
  obtain ⟨u, rfl⟩ := mem_linesOf hline
  have hsplit := List.takeWhile_append_dropWhile (p := isBlank)
    (l := takeLine u)
  have hblanks : ∀ b ∈ (takeLine u).takeWhile isBlank, isBlank b = true :=
    fun b hb => List.mem_takeWhile_imp hb
  constructor
  · intro hign
    unfold ignorable at hign
    split at hign
    · next hnil =>
      rw [hnil, List.append_nil] at hsplit
      exact Or.inl ⟨_, hblanks, Or.inl hsplit.symm⟩
    · next c rest hcons =>
      rw [hcons] at hsplit
      rw [Bool.or_eq_true, beq_iff_eq, beq_iff_eq] at hign
      rcases hign with hc | hc
      · rw [hc] at hsplit
        rw [newline_mem_takeLine hsplit.symm] at hsplit
        exact Or.inl ⟨_, hblanks, Or.inr hsplit.symm⟩
      · rw [hc] at hsplit
        exact Or.inr ⟨_, rest, hblanks, hsplit.symm⟩
  · intro hskip
    rcases hskip with ⟨blanks, hb, hl | hl⟩ | ⟨blanks, remark, hb, hl⟩
    · rw [hl]
      unfold ignorable
      rw [List.dropWhile_eq_nil_iff.mpr hb]
    · rw [hl]
      unfold ignorable
      rw [dropWhile_run hb (stops_cons.mpr (by decide))]
      rfl
    · rw [hl]
      unfold ignorable
      rw [dropWhile_run hb (stops_cons.mpr (by decide))]
      rfl

-- ====================================================== where it stops

theorem ne_nil_of_linesOf {t l : List UInt8} {ls : List (List UInt8)}
    (h : linesOf t = l :: ls) : t ≠ [] := by
  intro hnil
  rw [hnil, linesOf, dif_pos rfl] at h
  cases h

/-- The text is taken up in the first line that is not skipped. -/
theorem usefulText_lines {skipped others : List (List UInt8)}
    {l t : List UInt8} (h : linesOf t = skipped ++ l :: others)
    (hskip : ∀ s ∈ skipped, ignorable s = true)
    (huse : ignorable l = false) :
    usefulText t = l.dropWhile isBlank ++ others.flatten := by
  induction skipped generalizing t with
  | nil =>
      have hne := ne_nil_of_linesOf h
      rw [linesOf_cons hne] at h
      injection h with hl hothers
      rw [← hl, ignorable_takeLine] at huse
      rw [usefulText_useful huse, dropBlanks_takeLine, hl, ← hothers,
        flatten_linesOf]
  | cons s skipped ih =>
      have hne := ne_nil_of_linesOf h
      rw [linesOf_cons hne] at h
      injection h with hs hrest
      have hign := hskip s List.mem_cons_self
      rw [← hs, ignorable_takeLine] at hign
      rw [usefulText_ignorable hign]
      exact ih hrest fun s' hs' => hskip s' (List.mem_cons_of_mem s hs')

/-- If all lines are skipped, it is not taken up at all. -/
theorem usefulText_none {t : List UInt8}
    (h : ∀ l ∈ linesOf t, ignorable l = true) : usefulText t = [] := by
  fun_induction linesOf t with
  | case1 => exact usefulText_nil
  | case2 t hne ih =>
      have hign := h (takeLine t) List.mem_cons_self
      rw [ignorable_takeLine] at hign
      rw [usefulText_ignorable hign]
      exact ih fun l hl => h l (List.mem_cons_of_mem _ hl)

/-- Any other line has a first character that is no space or tab. -/
theorem useful_split {l : List UInt8} (huse : ignorable l = false) :
    ∃ blanks c after, l = blanks ++ c :: after
      ∧ (∀ b ∈ blanks, isBlank b = true) ∧ isBlank c = false
      ∧ l.dropWhile isBlank = c :: after := by
  have hsplit := List.takeWhile_append_dropWhile (p := isBlank) (l := l)
  have hstop := stops_dropWhile isBlank l
  unfold ignorable at huse
  cases hd : l.dropWhile isBlank with
  | nil =>
      rw [hd] at huse
      cases huse
  | cons c after =>
      rw [hd] at hsplit hstop
      exact ⟨l.takeWhile isBlank, c, after, hsplit.symm,
        fun b hb => List.mem_takeWhile_imp hb, stops_cons.mp hstop, rfl⟩

/-- **Where `skip_comments` stops.** What is read next is the first
character that is no space or tab of the first line that is neither blank
nor a comment, and the rest of the text follows it; end of file is read
next iff there is no such line. -/
theorem skipComments_stops (file : Stream) :
    (∀ skipped l others, linesOf file.rest = skipped ++ l :: others →
      (∀ s ∈ skipped, SkippedLine s) → ¬ SkippedLine l →
        ∃ blanks c after, l = blanks ++ c :: after
          ∧ (∀ b ∈ blanks, isBlank b = true) ∧ isBlank c = false
          ∧ (getChar (skipComments file)).1 = some c
          ∧ (getChar (skipComments file)).2.rest = after ++ others.flatten)
      ∧ ((getChar (skipComments file)).1 = none
        ↔ ∀ l ∈ linesOf file.rest, SkippedLine l) := by
  obtain ⟨hrest, -⟩ := skipComments_rest file
  rw [getChar_fst, getChar_rest, hrest]
  refine ⟨?_, ?_⟩
  · intro skipped l others hlines hskip huse
    have hmem : ∀ s, s ∈ skipped ∨ s = l → s ∈ linesOf file.rest := by
      intro s hs
      rw [hlines, List.mem_append, List.mem_cons]
      exact hs.imp_right Or.inl
    have hign : ∀ s ∈ skipped, ignorable s = true := fun s hs =>
      (ignorable_iff (hmem s (Or.inl hs))).mpr (hskip s hs)
    have hnot : ignorable l = false := by
      rw [← Bool.not_eq_true, ignorable_iff (hmem l (Or.inr rfl))]
      exact huse
    obtain ⟨blanks, c, after, hl, hblanks, hc, hdrop⟩ :=
      useful_split hnot
    refine ⟨blanks, c, after, hl, hblanks, hc, ?_, ?_⟩
    · rw [usefulText_lines hlines hign hnot, hdrop]
      rfl
    · rw [usefulText_lines hlines hign hnot, hdrop]
      rfl
  · rw [List.head?_eq_none_iff]
    constructor
    · intro hnil
      by_contra hsome
      have hsome : ¬ ∀ l ∈ linesOf file.rest, ignorable l = true :=
        fun hall => hsome fun l hl => (ignorable_iff hl).mp (hall l hl)
      obtain ⟨l, others, hlines, hnot⟩ := exists_stop hsome
      obtain ⟨blanks, c, after, -, -, -, hdrop⟩ := useful_split hnot
      rw [usefulText_lines hlines
        (fun s hs => List.mem_takeWhile_imp hs) hnot, hdrop] at hnil
      cases hnil
    · intro hall
      exact usefulText_none fun l hl =>
        (ignorable_iff hl).mpr (hall l hl)

/-- A remark, a blank line, and a job behind a tab. -/
theorem remark_skipped :
    (getChar (skipComments (Stream.ofBytes
        (bytes "# noon\n \n\t0 12\n")))).1 = some 48
      ∧ (getChar (skipComments (Stream.ofBytes
        (bytes "# noon\n \n\t0 12\n")))).2.rest = bytes " 12\n" := by
  have hlines : linesOf (bytes "# noon\n \n\t0 12\n")
      = [bytes "# noon\n", bytes " \n"] ++ bytes "\t0 12\n" :: [] := by
    rw [linesOf_cons (by decide), linesOf_cons (by decide),
      linesOf_cons (by decide), linesOf, dif_pos (by decide)]
    rfl
  have hmem : ∀ l ∈ [bytes "# noon\n", bytes " \n", bytes "\t0 12\n"],
      l ∈ linesOf (bytes "# noon\n \n\t0 12\n") := by
    rw [hlines]
    exact fun l hl => hl
  have hskip : ∀ s ∈ [bytes "# noon\n", bytes " \n"], SkippedLine s := by
    intro s hs
    refine (ignorable_iff (hmem s (List.mem_append_left [_] hs))).mp ?_
    revert s
    decide
  have huse : ¬ SkippedLine (bytes "\t0 12\n") := by
    rw [← ignorable_iff (hmem _ (by simp))]
    decide
  obtain ⟨blanks, c, after, hl, hblanks, hc, hch, hrest⟩ :=
    (skipComments_stops (Stream.ofBytes
      (bytes "# noon\n \n\t0 12\n"))).1 _ _ _ hlines hskip huse
  have hdrop := dropWhile_run hblanks
    (stops_cons.mpr hc : Stops isBlank (c :: after))
  rw [← hl] at hdrop
  have hcut : (bytes "\t0 12\n").dropWhile isBlank = 48 :: bytes " 12\n" := by
    decide
  rw [hcut] at hdrop
  injection hdrop with hfirst hafter
  rw [hch, hrest, ← hfirst, ← hafter]
  exact ⟨rfl, List.append_nil _⟩

end Tinjac
