/-
The parser takes exactly the texts of `Text/Grammar.lean`.

For each reading function one equivalence: it succeeds with a tree and a
rest exactly if the text is the tree written out, followed by the rest,
and the tree is one the parser takes (`readNumber_done`, `readStep_done`,
`readRange_done`, `readRanges_done`). From left to right it is
soundness, from right to left completeness; since the function has one
result, it also says that a text has one tree.
-/
import Tinjac.Text.Grammar

namespace Tinjac

open Span

-- ========================================================== characters

/-- A letter is no digit. -/
theorem isDigit_of_isAlpha {c : UInt8} (h : isAlpha c = true) :
    isDigit c = false := by
  simp only [isAlpha, isDigit, Bool.or_eq_true, Bool.and_eq_true,
    decide_eq_true_eq, Bool.and_eq_false_iff, decide_eq_false_iff_not,
    UInt8.le_iff_toNat_le, UInt8.reduceToNat] at h ⊢
  omega

/-- Terminators are neither digits nor letters, nor is the NUL that
`strchr` finds as well; so a number ends where one stands. -/
def Delimits (terms : List UInt8) : Prop :=
  ∀ c, strchr terms (some c) = true → isDigit c = false ∧ isAlpha c = false

/-- A set of terminators delimits numbers and names if neither they nor
the NUL, which `strchr` finds as well, are digits or letters. -/
theorem delimits_of_forall {terms : List UInt8}
    (h : ∀ c ∈ nul :: terms, isDigit c = false ∧ isAlpha c = false) :
    Delimits terms := by
  intro c hc
  refine h c ?_
  simp only [strchr, uchar, Option.getD_some, Bool.or_eq_true, beq_iff_eq,
    List.contains_iff_mem] at hc
  rcases hc with rfl | hc
  · exact List.mem_cons_self
  · exact List.mem_cons_of_mem _ hc

/-- So a run of digits that is followed by a terminator ends there. -/
theorem stops_digit {terms next : List UInt8} (hterms : Delimits terms)
    (h : strchr terms next.head? = true) : Stops isDigit next := by
  intro c hc
  rw [hc] at h
  exact (hterms c h).1

/-- And so does a run of letters. -/
theorem stops_alpha {terms next : List UInt8} (hterms : Delimits terms)
    (h : strchr terms next.head? = true) : Stops isAlpha next := by
  intro c hc
  rw [hc] at h
  exact (hterms c h).2

-- ========================================================== get_number

/-- A run of a class has no other characters in it. -/
theorem mem_takeWhile_all (p : UInt8 → Bool) (t : List UInt8) :
    ∀ c ∈ t.takeWhile p, p c = true :=
  fun _ hc => List.mem_takeWhile_imp hc

/-- **Numbers.** `get_number` accepts a digit string or a known name, if a
terminator follows, and nothing else. -/
theorem readNumber_done {names : Option (List (List UInt8))}
    {terms t next : List UInt8} {x : Num} (hterms : Delimits terms) :
    readNumber names terms t = .done x next
      ↔ t = x.text ++ next ∧ x.Scanned names
        ∧ strchr terms next.head? = true := by
  constructor
  · intro h
    unfold readNumber at h
    dsimp only at h
    split at h
    · cases h
    · next hshort =>
      split at h
      · next hds =>
        split at h
        · next hterm =>
          injection h with hx hnext
          subst hx hnext
          exact ⟨(List.takeWhile_append_dropWhile).symm,
            ⟨hds, mem_takeWhile_all _ _, by omega⟩, hterm⟩
        · cases h
      · cases names with
        | none => cases h
        | some ns =>
            dsimp only at h
            split at h
            · cases h
            · next hshort2 =>
              split at h
              · next hname =>
                injection h with hx hnext
                subst hx hnext
                exact ⟨(List.takeWhile_append_dropWhile).symm,
                  ⟨⟨hname.1, mem_takeWhile_all _ _, by omega⟩, ns, rfl,
                    hname.2.2⟩, hname.2.1⟩
              · cases h
  · intro hgiven
    obtain ⟨rfl, hx, hterm⟩ := hgiven
    have hdigit := stops_digit hterms hterm
    have halpha := stops_alpha hterms hterm
    unfold readNumber
    dsimp only
    cases x with
    | digits ds =>
        have htake : ((Num.digits ds).text ++ next).takeWhile isDigit = ds :=
          takeWhile_run hx.digits hdigit
        have hdrop : ((Num.digits ds).text ++ next).dropWhile isDigit = next :=
          dropWhile_run hx.digits hdigit
        have hlen := hx.short
        rw [htake, hdrop, if_neg (by omega), if_pos hx.ne_nil, if_pos hterm]
    | name ls =>
        obtain ⟨hword, ns, rfl, hknown⟩ := hx
        have hnodigit : Stops isDigit ((Num.name ls).text ++ next) := by
          obtain ⟨c, l, rfl⟩ := List.exists_cons_of_ne_nil hword.ne_nil
          exact stops_cons.mpr
            (isDigit_of_isAlpha (hword.letters c List.mem_cons_self))
        have hno : ((Num.name ls).text ++ next).takeWhile isDigit = [] := by
          have := takeWhile_run (w := []) (by simp) hnodigit
          simpa using this
        have htake : ((Num.name ls).text ++ next).takeWhile isAlpha = ls :=
          takeWhile_run hword.letters halpha
        have hdrop : ((Num.name ls).text ++ next).dropWhile isAlpha = next :=
          dropWhile_run hword.letters halpha
        have hlen := hword.short
        rw [hno, htake, hdrop, if_neg (by decide), if_neg (by simp)]
        dsimp only
        rw [if_neg (by omega), if_pos ⟨hword.ne_nil, hterm, hknown⟩]

/-- Rejecting a number never consumes a character for good. -/
theorem readNumber_ne_eaten {names : Option (List (List UInt8))}
    {terms t next : List UInt8} : readNumber names terms t ≠ .eaten next := by
  unfold readNumber
  dsimp only
  split
  · simp
  · split
    · split <;> simp
    · split
      · simp
      · split
        · simp
        · split <;> simp

-- =========================================================== get_range

/-- The terminators of a number that is a range of its own, or its first
end. -/
theorem delimits_single : Delimits (bytes ",- \t\n") :=
  delimits_of_forall (by decide +kernel)

/-- The terminators of the second end of a range. -/
theorem delimits_span : Delimits (bytes "/, \t\n") :=
  delimits_of_forall (by decide +kernel)

/-- The terminators of a step, and of a range as a whole. -/
theorem delimits_field : Delimits fieldTerms :=
  delimits_of_forall (by decide +kernel)

/-- What stands behind a range is a step that is not 0, or nothing. -/
theorem readStep_done {t next : List UInt8} {step : Option (List UInt8)} :
    readStep t = .done step next
      ↔ t = stepText step ++ next ∧ StepTaken step ∧ StepEnds step next := by
  constructor
  · intro h
    unfold readStep at h
    split at h
    · next hslash =>
      split at h
      · cases h
      · cases hnum : readNumber none (bytes ", \t\n") t.tail with
        | fail left =>
            rw [hnum] at h
            cases h
        | eaten next => exact absurd hnum readNumber_ne_eaten
        | done x nx =>
            rw [hnum] at h
            obtain ⟨htail, hx, hterm⟩ :=
              (readNumber_done delimits_field).mp hnum
            cases x with
            | name ls =>
                obtain ⟨-, ns, hns, -⟩ := hx
                cases hns
            | digits ds =>
                simp only [Outcome.bind] at h
                split at h
                · cases h
                · next hzero =>
                  injection h with hstep hnext
                  subst hstep hnext
                  refine ⟨?_, ⟨hx, hzero⟩, hterm⟩
                  cases t with
                  | nil => cases hslash
                  | cons c l =>
                      injection hslash with hslash
                      rw [hslash]
                      exact congrArg (slash :: ·) htail
    · next hslash =>
      injection h with hstep hnext
      subst hstep hnext
      exact ⟨rfl, trivial, hslash⟩
  · intro hgiven
    obtain ⟨rfl, hstep, hends⟩ := hgiven
    unfold readStep
    cases step with
    | none =>
        rw [if_neg]
        · rfl
        · exact hends
    | some n =>
        have hnum : readNumber none (bytes ", \t\n") (n ++ next)
            = .done (.digits n) next :=
          (readNumber_done delimits_field).mpr ⟨rfl, hstep.1, hends⟩
        have hne : n ++ next ≠ [] := by
          simp [hstep.1.ne_nil]
        rw [show stepText (some n) ++ next = slash :: (n ++ next) from rfl,
          List.head?_cons, List.tail_cons, if_pos rfl, if_neg hne, hnum]
        simp only [Outcome.bind]
        rw [if_neg hstep.2]

/-- A range is taken as it is read if its elements fit the field. -/
theorem takeRange_done {f : Field} {r r' : Range} {next next' : List UInt8} :
    takeRange f r next = .done r' next'
      ↔ r' = r ∧ next' = next ∧ r.fits f = true := by
  unfold takeRange
  split
  · next hfits =>
    constructor
    · intro h
      injection h with hr hn
      exact ⟨hr.symm, hn.symm, hfits⟩
    · intro hgiven
      obtain ⟨rfl, rfl, -⟩ := hgiven
      rfl
  · next hfits =>
    constructor
    · intro h
      cases h
    · intro hgiven
      obtain ⟨-, -, h⟩ := hgiven
      exact absurd h hfits

/-- Two readers one after the other accept if the first one does, and the
second does on what is left. -/
theorem Outcome.bind_done {α β : Type} {o : Outcome α}
    {k : α → List UInt8 → Outcome β} {b : β} {next : List UInt8} :
    o.bind k = .done b next
      ↔ ∃ a nx, o = .done a nx ∧ k a nx = .done b next := by
  cases o with
  | done a nx =>
      constructor
      · intro h
        exact ⟨a, nx, rfl, h⟩
      · intro hgiven
        obtain ⟨a', nx', ho, hk⟩ := hgiven
        injection ho with ha hn
        rw [← ha, ← hn] at hk
        exact hk
  | fail left =>
      constructor
      · intro h
        cases h
      · intro hgiven
        obtain ⟨_, _, ho, _⟩ := hgiven
        cases ho
  | eaten nx =>
      constructor
      · intro h
        cases h
      · intro hgiven
        obtain ⟨_, _, ho, _⟩ := hgiven
        cases ho

/-- A scanned number begins with a digit or a letter. -/
theorem Num.Scanned.head {names : Option (List (List UInt8))} {x : Num}
    (hx : x.Scanned names) :
    ∃ c l, x.text = c :: l ∧ (isDigit c = true ∨ isAlpha c = true) := by
  cases x with
  | digits ds =>
      obtain ⟨c, l, rfl⟩ := List.exists_cons_of_ne_nil hx.ne_nil
      exact ⟨c, l, rfl, Or.inl (hx.digits c List.mem_cons_self)⟩
  | name ls =>
      obtain ⟨c, l, rfl⟩ := List.exists_cons_of_ne_nil hx.1.ne_nil
      exact ⟨c, l, rfl, Or.inr (hx.1.letters c List.mem_cons_self)⟩

/-- No number starts with a star, so a range that starts with one is the
whole field. -/
theorem Num.Scanned.head_ne_star {names : Option (List (List UInt8))}
    {x : Num} (hx : x.Scanned names) (l : List UInt8) :
    (x.text ++ l).head? ≠ some star := by
  obtain ⟨c, l', heq, hc⟩ := hx.head
  rw [heq]
  intro h
  injection h with h
  rw [h] at hc
  exact absurd hc (by decide)

/-- The terminators of a single number, other than `-`. -/
theorem strchr_single {c : Option UInt8} (hc : c ≠ some dash) :
    strchr (bytes ",- \t\n") c = true ↔ strchr fieldTerms c = true := by
  cases c with
  | none => decide
  | some c =>
      have hne : c ≠ dash := fun h => hc (congrArg some h)
      simp only [strchr, uchar, Option.getD_some, fieldTerms, bytes,
        Bool.or_eq_true, beq_iff_eq, List.contains_iff_mem]
      simp [hne]

/-- The terminators of the end of a range, other than `/`. -/
theorem strchr_span {c : Option UInt8} (hc : c ≠ some slash) :
    strchr (bytes "/, \t\n") c = true ↔ strchr fieldTerms c = true := by
  cases c with
  | none => decide
  | some c =>
      have hne : c ≠ slash := fun h => hc (congrArg some h)
      simp only [strchr, uchar, Option.getD_some, fieldTerms, bytes,
        Bool.or_eq_true, beq_iff_eq, List.contains_iff_mem]
      simp [hne]

/-- A `*` and an optional step. -/
theorem readRange_star {f : Field} {l : List UInt8} (hne : l ≠ []) :
    readRange f (star :: l)
      = (readStep l).bind fun step => takeRange f (.star step) := by
  unfold readRange
  rw [List.head?_cons, if_pos rfl, List.tail_cons, if_neg hne]

/-- Behind a list that is accepted there is a character: the end of the
file terminates none. -/
theorem ne_nil_of_fieldTerms {next : List UInt8}
    (h : strchr fieldTerms next.head? = true) : next ≠ [] :=
  ne_nil_of_strchr (by decide) h

/-- **Ranges.** What `get_range` accepts is the text of a range whose
numbers are in order and fit, and is followed as a range must be. -/
theorem readRange_done {f : Field} {t next : List UInt8} {r : Range} :
    readRange f t = .done r next
      ↔ t = r.text ++ next ∧ r.Taken f ∧ r.Ends next := by
  constructor
  · intro h
    unfold readRange at h
    split at h
    · next hstar =>
      obtain ⟨l, rfl⟩ : ∃ l, t = star :: l := by
        cases t with
        | nil => cases hstar
        | cons c l =>
            injection hstar with hstar
            exact ⟨l, by rw [hstar]⟩
      split at h
      · cases h
      · next hne =>
        obtain ⟨step, nx, hstep, htake⟩ := Outcome.bind_done.mp h
        obtain ⟨rfl, rfl, hfits⟩ := takeRange_done.mp htake
        obtain ⟨hl, htaken, hends⟩ := readStep_done.mp hstep
        rw [List.tail_cons] at hl hne
        refine ⟨congrArg (star :: ·) hl, ⟨htaken, hfits⟩, ?_, hends⟩
        cases step with
        | none => rwa [hl] at hne
        | some n => exact ne_nil_of_fieldTerms hends
    · next hstar =>
      obtain ⟨x, nx, hnum, hrest⟩ := Outcome.bind_done.mp h
      obtain ⟨rfl, hx, hterm⟩ := (readNumber_done delimits_single).mp hnum
      split at hrest
      · next hdash =>
        obtain ⟨rfl, rfl, hfits⟩ := takeRange_done.mp hrest
        exact ⟨rfl, ⟨hx, hfits⟩, (strchr_single hdash).mp hterm⟩
      · next hdash =>
        rw [not_not] at hdash
        obtain ⟨l, rfl⟩ : ∃ l, nx = dash :: l := by
          cases nx with
          | nil => cases hdash
          | cons c l =>
              injection hdash with hdash
              exact ⟨l, by rw [hdash]⟩
        split at hrest
        · cases hrest
        · obtain ⟨y, nx2, hnum2, hrest2⟩ := Outcome.bind_done.mp hrest
          obtain ⟨hl, hy, hterm2⟩ := (readNumber_done delimits_span).mp hnum2
          rw [List.tail_cons] at hl
          split at hrest2
          · cases hrest2
          · next hle =>
            obtain ⟨step, nx3, hstep, htake⟩ := Outcome.bind_done.mp hrest2
            obtain ⟨rfl, rfl, hfits⟩ := takeRange_done.mp htake
            obtain ⟨rfl, htaken, hends⟩ := readStep_done.mp hstep
            refine ⟨?_, ⟨hx, hy, hle, htaken, hfits⟩, ?_⟩
            · rw [hl]
              simp [Range.text]
            · cases step with
              | none => exact (strchr_span hends).mp hterm2
              | some n => exact hends
  · intro hgiven
    obtain ⟨rfl, htaken, hends⟩ := hgiven
    cases r with
    | star step =>
        obtain ⟨hstep, hfits⟩ := htaken
        obtain ⟨hne, hends⟩ := hends
        have hread : readStep (stepText step ++ next) = .done step next :=
          readStep_done.mpr ⟨rfl, hstep, hends⟩
        rw [show (Range.star step).text ++ next
            = star :: (stepText step ++ next) from rfl,
          readRange_star (by simp [hne]), hread]
        exact takeRange_done.mpr ⟨rfl, rfl, hfits⟩
    | single x =>
        obtain ⟨hx, hfits⟩ := htaken
        have hdash : next.head? ≠ some dash := by
          intro hc
          have hends' : strchr fieldTerms next.head? = true := hends
          rw [hc] at hends'
          exact absurd hends' (by decide)
        have hread : readNumber f.names (bytes ",- \t\n") (x.text ++ next)
            = .done x next :=
          (readNumber_done delimits_single).mpr
            ⟨rfl, hx, (strchr_single hdash).mpr hends⟩
        unfold readRange
        rw [show (Range.single x).text = x.text from rfl,
          if_neg (hx.head_ne_star next), hread]
        simp only [Outcome.bind]
        rw [if_pos hdash]
        exact takeRange_done.mpr ⟨rfl, rfl, hfits⟩
    | span x y step =>
        obtain ⟨hx, hy, hle, hstep, hfits⟩ := htaken
        have hread : readNumber f.names (bytes ",- \t\n")
            (x.text ++ dash :: (y.text ++ (stepText step ++ next)))
            = .done x (dash :: (y.text ++ (stepText step ++ next))) :=
          (readNumber_done delimits_single).mpr ⟨rfl, hx, rfl⟩
        have hends2 : strchr (bytes "/, \t\n")
            (stepText step ++ next).head? = true := by
          cases step with
          | none =>
              refine (strchr_span ?_).mpr hends
              intro hc
              have hends' : strchr fieldTerms next.head? = true := hends
              rw [show stepText none ++ next = next from rfl] at hc
              rw [hc] at hends'
              exact absurd hends' (by decide)
          | some n => rfl
        have hread2 : readNumber f.names (bytes "/, \t\n")
            (y.text ++ (stepText step ++ next))
            = .done y (stepText step ++ next) :=
          (readNumber_done delimits_span).mpr ⟨rfl, hy, hends2⟩
        have hread3 : readStep (stepText step ++ next) = .done step next := by
          refine readStep_done.mpr ⟨rfl, hstep, ?_⟩
          cases step with
          | none =>
              intro hc
              have hends' : strchr fieldTerms next.head? = true := hends
              rw [hc] at hends'
              exact absurd hends' (by decide)
          | some n => exact hends
        have htext : (Range.span x y step).text ++ next
            = x.text ++ dash :: (y.text ++ (stepText step ++ next)) := by
          simp [Range.text]
        have hne : y.text ++ (stepText step ++ next) ≠ [] := by
          obtain ⟨c, l, heq, -⟩ := hy.head
          simp [heq]
        unfold readRange
        rw [htext, if_neg (hx.head_ne_star _), hread]
        simp only [Outcome.bind]
        rw [List.head?_cons, List.tail_cons, if_neg (by simp), if_neg hne,
          hread2]
        dsimp only
        rw [if_neg hle, hread3]
        exact takeRange_done.mpr ⟨rfl, rfl, hfits⟩

-- ============================================================ get_list

/-- A list ends with the range that no comma follows. -/
theorem readRanges_last {f : Field} {t next : List UInt8} {r : Range}
    (h : readRange f t = .done r next) (hmore : next.head? ≠ some comma) :
    readRanges f t = .done [r] next := by
  rw [readRanges]
  split
  · next heq =>
    rw [h] at heq
    injection heq with hr hn
    rw [← hr, ← hn, dif_neg hmore]
  · next heq =>
    rw [h] at heq
    cases heq
  · next heq =>
    rw [h] at heq
    cases heq

/-- Behind a comma there is another range. -/
theorem readRanges_comma {f : Field} {t l : List UInt8} {r : Range}
    (h : readRange f t = .done r (comma :: l)) :
    readRanges f t
      = (readRanges f l).bind fun rs next => .done (r :: rs) next := by
  rw [readRanges]
  split
  · next heq =>
    rw [h] at heq
    injection heq with hr hn
    rw [← hr, ← hn, dif_pos (List.head?_cons)]
    rfl
  · next heq =>
    rw [h] at heq
    cases heq
  · next heq =>
    rw [h] at heq
    cases heq

/-- A range that is not taken ends the list. -/
theorem readRanges_stop {f : Field} {t : List UInt8}
    (h : ∀ r next, readRange f t ≠ .done r next) :
    readRanges f t
      = (readRange f t).bind fun r next => .done [r] next := by
  rw [readRanges]
  split
  · next r next heq => exact absurd heq (h r next)
  · next left heq =>
    rw [heq]
    rfl
  · next next heq =>
    rw [heq]
    rfl

/-- Any range may be followed by a comma. -/
theorem Range.ends_comma (r : Range) (l : List UInt8) :
    r.Ends (comma :: l) := by
  cases r with
  | star step =>
      refine ⟨by simp, ?_⟩
      cases step with
      | none =>
          show some comma ≠ some slash
          decide
      | some n => rfl
  | single x => rfl
  | span x y step => rfl

/-- **Lists.** What `get_list` accepts before its scan to the next field
is a list of such ranges with commas between them. -/
theorem readRanges_done {f : Field} {t next : List UInt8}
    {rs : List Range} :
    readRanges f t = .done rs next
      ↔ t = listText rs ++ next ∧ ListTaken f rs next := by
  constructor
  · intro h
    fun_induction readRanges f t generalizing rs next with
    | case1 t r nx hread hcomma ih =>
        obtain ⟨rs', nx', hrec, hdone⟩ := Outcome.bind_done.mp h
        injection hdone with hrs hnx
        subst hrs hnx
        obtain ⟨htail, hlist⟩ := ih hrec
        obtain ⟨rfl, htaken, -⟩ := readRange_done.mp hread
        obtain ⟨l, rfl⟩ : ∃ l, nx = comma :: l := by
          cases nx with
          | nil => cases hcomma
          | cons c l =>
              injection hcomma with hcomma
              exact ⟨l, by rw [hcomma]⟩
        obtain ⟨r', rs'', rfl⟩ := List.exists_cons_of_ne_nil hlist.ne_nil
        rw [List.tail_cons] at htail
        refine ⟨?_, by simp, ?_, ?_, hlist.more⟩
        · rw [htail]
          simp [listText]
        · intro q hq
          rcases List.mem_cons.mp hq with rfl | hq
          · exact htaken
          · exact hlist.taken q hq
        · intro q hq
          rw [List.getLast?_cons_cons] at hq
          exact hlist.ends q hq
    | case2 t r nx hread hcomma =>
        injection h with hrs hnx
        subst hrs hnx
        obtain ⟨rfl, htaken, hends⟩ := readRange_done.mp hread
        refine ⟨rfl, by simp, ?_, ?_, hcomma⟩
        · intro q hq
          rw [List.mem_singleton.mp hq]
          exact htaken
        · intro q hq
          injection hq with hq
          rw [← hq]
          exact hends
    | case3 => cases h
    | case4 => cases h
  · intro hgiven
    obtain ⟨rfl, hlist⟩ := hgiven
    obtain ⟨r, rs', rfl⟩ := List.exists_cons_of_ne_nil hlist.ne_nil
    induction rs' generalizing r with
    | nil =>
        have htaken := hlist.taken r List.mem_cons_self
        exact readRanges_last
          (readRange_done.mpr ⟨rfl, htaken, hlist.ends r rfl⟩) hlist.more
    | cons r' rs' ih =>
        have hrec := ih r' ⟨by simp,
          fun q hq => hlist.taken q (List.mem_cons_of_mem r hq),
          fun q hq => hlist.ends q (by rw [List.getLast?_cons_cons]; exact hq),
          hlist.more⟩
        have hread : readRange f (listText (r :: r' :: rs') ++ next)
            = .done r (comma :: (listText (r' :: rs') ++ next)) :=
          readRange_done.mpr ⟨by simp [listText],
            hlist.taken r List.mem_cons_self, r.ends_comma _⟩
        rw [readRanges_comma hread, hrec]
        rfl

-- ====================================================== the characters

/-- A test that fails on blanks and newlines passes nonblanks only. -/
theorem isNonblank_of_test {p : UInt8 → Bool} (htab : p tab = false)
    (hspace : p space = false) (hnewline : p newline = false) {c : UInt8}
    (h : p c = true) : isNonblank c = true := by
  have hne : ∀ b, p b = false → c ≠ b := by
    intro b hb heq
    rw [heq, hb] at h
    cases h
  simp [isNonblank, hne tab htab, hne space hspace, hne newline hnewline]

/-- Digits are no blanks, so the scan to the next field would pass over
them. -/
theorem isNonblank_of_isDigit {c : UInt8} (h : isDigit c = true) :
    isNonblank c = true :=
  isNonblank_of_test rfl rfl rfl h

/-- And letters are none either. -/
theorem isNonblank_of_isAlpha {c : UInt8} (h : isAlpha c = true) :
    isNonblank c = true :=
  isNonblank_of_test rfl rfl rfl h

/-- So a number has no blank in it. -/
theorem Num.Scanned.nonblank {names : Option (List (List UInt8))} {x : Num}
    (hx : x.Scanned names) : ∀ c ∈ x.text, isNonblank c = true := by
  intro c hc
  cases x with
  | digits ds => exact isNonblank_of_isDigit (hx.digits c hc)
  | name ls => exact isNonblank_of_isAlpha (hx.1.letters c hc)

/-- Nor has a step a blank in it. -/
theorem StepTaken.nonblank {step : Option (List UInt8)}
    (hstep : StepTaken step) : ∀ c ∈ stepText step, isNonblank c = true := by
  intro c hc
  cases step with
  | none => cases hc
  | some n =>
      rcases List.mem_cons.mp hc with rfl | hc
      · decide
      · exact isNonblank_of_isDigit (hstep.1.digits c hc)

/-- Nor has a range: the scan to the next field begins behind it. -/
theorem Range.Taken.nonblank {f : Field} {r : Range} (hr : r.Taken f) :
    ∀ c ∈ r.text, isNonblank c = true := by
  intro c hc
  cases r with
  | star step =>
      rcases List.mem_cons.mp hc with rfl | hc
      · decide
      · exact hr.1.nonblank c hc
  | single x => exact hr.1.nonblank c hc
  | span x y step =>
      obtain ⟨hx, hy, -, hstep, -⟩ := hr
      rcases List.mem_append.mp hc with hc | hc
      · exact hx.nonblank c hc
      · rcases List.mem_cons.mp hc with rfl | hc
        · decide
        · rcases List.mem_append.mp hc with hc | hc
          · exact hy.nonblank c hc
          · exact hstep.nonblank c hc

/-- A range starts with a star, a digit or a letter. -/
theorem Range.Taken.head {f : Field} {r : Range} (hr : r.Taken f) :
    ∃ c l, r.text = c :: l
      ∧ (c = Tinjac.star ∨ isDigit c = true ∨ isAlpha c = true) := by
  cases r with
  | star step => exact ⟨Tinjac.star, stepText step, rfl, Or.inl rfl⟩
  | single x =>
      obtain ⟨c, l, htext, hc⟩ := hr.1.head
      exact ⟨c, l, htext, Or.inr hc⟩
  | span x y step =>
      obtain ⟨c, l, htext, hc⟩ := hr.1.head
      refine ⟨c, l ++ dash :: (y.text ++ stepText step), ?_, Or.inr hc⟩
      rw [Range.text, htext, List.cons_append]

/-- A list begins with a star, a digit or a letter, as its first range
does. -/
theorem ListTaken.head {f : Field} {rs : List Range}
    {next : List UInt8} (h : ListTaken f rs next) :
    ∃ c l, listText rs = c :: l
      ∧ (c = star ∨ isDigit c = true ∨ isAlpha c = true) := by
  cases rs with
  | nil => exact absurd rfl h.ne_nil
  | cons r rs =>
      obtain ⟨c, l, htext, hc⟩ := (h.taken r List.mem_cons_self).head
      cases rs with
      | nil => exact ⟨c, l, htext, hc⟩
      | cons r' rs =>
          refine ⟨c, l ++ comma :: listText (r' :: rs), ?_, hc⟩
          rw [listText, htext, List.cons_append]

/-- A list has no blank in it. -/
theorem listText_nonblank {rs : List Range}
    (hrs : ∀ r ∈ rs, ∀ c ∈ r.text, isNonblank c = true) :
    ∀ c ∈ listText rs, isNonblank c = true := by
  fun_induction listText rs with
  | case1 => simp
  | case2 r => exact hrs r List.mem_cons_self
  | case3 r r' rs ih =>
      intro c hc
      rcases List.mem_append.mp hc with hc | hc
      · exact hrs r List.mem_cons_self c hc
      · rcases List.mem_cons.mp hc with rfl | hc
        · decide
        · exact ih (fun q hq => hrs q (List.mem_cons_of_mem r hq)) c hc

end Tinjac
