/-
The schedule parser reads what `Text/Field.lean` says it reads.

Each lemma takes a stream that stands at a text (`At`: the lookahead is
the text's first character, the stream holds the others) and says what
the model's function returns and where the stream then stands, in terms
of the text function. Results and texts only: the bitmaps are those of
the ranges read, applied in order.
-/
import Tinjac.Text.Line

namespace Tinjac

open Span

-- ========================================================= standing at

/-- The stream stands at a text: its first character is the one in hand,
and the rest is still to be read. -/
structure At (ch : Option UInt8) (file : Stream) (t : List UInt8) :
    Prop where
  head : ch = t.head?
  tail : file.rest = t.tail

/-- A character in hand and a stream stand at the text that they show. -/
theorem At.text {ch : Option UInt8} {file : Stream} {t : List UInt8}
    (h : At ch file t) : text ch file = t := by
  unfold Tinjac.text
  rw [h.head, h.tail]
  cases t <;> rfl

/-- Reading a character makes the stream stand at what it held. -/
theorem at_getChar (file : Stream) :
    At (getChar file).1 (getChar file).2 file.rest :=
  ⟨getChar_fst file, getChar_rest file⟩

/-- They stand at a text that has a first character if that is the one in
hand. -/
theorem at_cons {ch : Option UInt8} {file : Stream} {c : UInt8}
    {l : List UInt8} : At ch file (c :: l) ↔ ch = some c ∧ file.rest = l :=
  ⟨fun h => ⟨h.head, h.tail⟩, fun h => ⟨h.1, h.2⟩⟩

/-- And at the empty text if there is none. -/
theorem at_nil {ch : Option UInt8} {file : Stream} :
    At ch file [] ↔ ch = none ∧ file.rest = [] :=
  ⟨fun h => ⟨h.head, h.tail⟩, fun h => ⟨h.1, h.2⟩⟩

-- ====================================================== the skip loops

/-- A skip loop leaves a `dropWhile` of its text. -/
theorem skipWhile_at {p : UInt8 → Bool} {ch : Option UInt8}
    {file : Stream} {t : List UInt8} (h : At ch file t) :
    At (skipWhile p ch file).1 (skipWhile p ch file).2 (t.dropWhile p) := by
  induction t generalizing ch file with
  | nil =>
      obtain ⟨rfl, hrest⟩ := at_nil.mp h
      rw [skipWhile]
      exact at_nil.mpr ⟨rfl, hrest⟩
  | cons c l ih =>
      obtain ⟨rfl, hrest⟩ := at_cons.mp h
      rw [skipWhile, List.dropWhile_cons]
      split
      · refine ih ?_
        rw [← hrest]
        exact at_getChar file
      · exact h

/-- Skipping blanks, in the text. -/
theorem skipBlanks_at {ch : Option UInt8} {file : Stream}
    {t : List UInt8} (h : At ch file t) :
    At (skipBlanks ch file).1 (skipBlanks ch file).2
      (t.dropWhile isBlank) :=
  skipWhile_at h

/-- And skipping to the next blank. -/
theorem skipNonblanks_at {ch : Option UInt8} {file : Stream}
    {t : List UInt8} (h : At ch file t) :
    At (skipNonblanks ch file).1 (skipNonblanks ch file).2
      (t.dropWhile isNonblank) :=
  skipWhile_at h

/-- Whether reads fail later on is not changed by reading. -/
theorem skipWhile_fails (p : UInt8 → Bool) (ch : Option UInt8)
    (file : Stream) : (skipWhile p ch file).2.fails = file.fails := by
  fun_induction skipWhile p ch file with
  | case1 => rfl
  | case2 file c _ ih => rw [ih, getChar_fails]
  | case3 => rfl

-- ========================================================== get_number

/-- The collecting loop, when its run fits `temp`. -/
theorem getTemp_short (p : UInt8 → Bool) (temp : List UInt8)
    {ch : Option UInt8} {file : Stream} {t : List UInt8} (h : At ch file t)
    (hlen : temp.length + (t.takeWhile p).length < maxTempstr) :
    ∃ file', getTemp p temp ch file
        = (false, temp ++ t.takeWhile p, (t.dropWhile p).head?, file')
      ∧ file'.rest = (t.dropWhile p).tail ∧ file'.fails = file.fails := by
  induction t generalizing temp ch file with
  | nil =>
      obtain ⟨rfl, hrest⟩ := at_nil.mp h
      exact ⟨file, by simp [getTemp], hrest, rfl⟩
  | cons c l ih =>
      obtain ⟨rfl, hrest⟩ := at_cons.mp h
      rw [getTemp]
      rw [List.takeWhile_cons] at hlen ⊢
      rw [List.dropWhile_cons]
      cases hp : p c with
      | false => exact ⟨file, by simp, hrest, rfl⟩
      | true =>
          rw [hp, if_pos rfl, List.length_cons] at hlen
          have hat : At (getChar file).1 (getChar file).2 l := by
            rw [← hrest]
            exact at_getChar file
          have hlen' : (temp ++ [c]).length + (l.takeWhile p).length
              < maxTempstr := by
            simp only [List.length_append, List.length_singleton]
            omega
          obtain ⟨file', hget, hrest', hfails⟩ := ih _ hat hlen'
          refine ⟨file', ?_, hrest', by rw [hfails, getChar_fails]⟩
          rw [if_pos rfl, if_neg (by omega), hget]
          simp

/-- The collecting loop, when its run is too long: it stops with
`MAX_TEMPSTR - 1` bytes stored. -/
theorem getTemp_long (p : UInt8 → Bool) (temp : List UInt8)
    {ch : Option UInt8} {file : Stream} {t : List UInt8} (h : At ch file t)
    (hlen : maxTempstr ≤ temp.length + (t.takeWhile p).length)
    (htemp : temp.length < maxTempstr) :
    ∃ temp' ch' file', getTemp p temp ch file = (true, temp', ch', file')
      ∧ text ch' file' = t.drop (maxTempstr - 1 - temp.length)
      ∧ file'.fails = file.fails := by
  induction t generalizing temp ch file with
  | nil =>
      simp only [List.takeWhile_nil, List.length_nil] at hlen
      omega
  | cons c l ih =>
      obtain ⟨rfl, hrest⟩ := at_cons.mp h
      rw [getTemp]
      rw [List.takeWhile_cons] at hlen
      cases hp : p c with
      | false =>
          rw [hp] at hlen
          simp only [Bool.false_eq_true, if_false, List.length_nil] at hlen
          omega
      | true =>
          rw [hp, if_pos rfl, List.length_cons] at hlen
          rw [if_pos rfl]
          by_cases hfull : maxTempstr ≤ temp.length + 1
          · rw [if_pos hfull]
            refine ⟨_, _, _, rfl, ?_, rfl⟩
            rw [show maxTempstr - 1 - temp.length = 0 by omega]
            exact h.text
          · rw [if_neg hfull]
            have hat : At (getChar file).1 (getChar file).2 l := by
              rw [← hrest]
              exact at_getChar file
            obtain ⟨temp', ch', file', hget, htext, hfails⟩ :=
              ih (temp ++ [c]) hat
                (by simp only [List.length_append, List.length_singleton]
                    omega)
                (by simp only [List.length_append, List.length_singleton]
                    omega)
            refine ⟨temp', ch', file', hget, ?_, by rw [hfails, getChar_fails]⟩
            rw [htext, List.length_append, List.length_singleton]
            rw [show maxTempstr - 1 - temp.length
              = (maxTempstr - 1 - (temp.length + 1)) + 1 by omega]
            rfl

/-- What a call of `get_number` comes to, by what the text says: a number
and the character behind it, or a failure and where it leaves the stream.
-/
structure NumberShows (low : Int32) (names : Option (List (List UInt8)))
    (o : Outcome Num) (fails : Bool)
    (r : Option UInt8 × Int32 × Stream) : Prop where
  shows : o.Shows r.1 r.2.2
  fails : r.2.2.fails = fails
  value : ∀ x next, o = .done x next → r.2.1 = x.read low names

/-- The exit `bad`, from a text whose first character was read last. -/
theorem numberBad_shows {low : Int32}
    {names : Option (List (List UInt8))} {ch : Option UInt8}
    {file : Stream} {left : List UInt8} (h : text ch file = left) :
    NumberShows low names (.fail left) file.fails (getNumberBad ch file) := by
  refine ⟨⟨rfl, ?_⟩, ?_, ?_⟩
  · rw [← h]
    exact ungetChar_rest ch file
  · exact ungetChar_fails ch file
  · intro x next hx
    cases hx

/-- **`get_number`** does to the stream what `readNumber` does to the
text. -/
theorem getNumber_shows (low : Int32)
    (names : Option (List (List UInt8))) {terms : List UInt8}
    (hterms : (255 : UInt8) ∉ terms) {ch : Option UInt8} {file : Stream}
    {t : List UInt8} (h : At ch file t) :
    NumberShows low names (readNumber names terms t) file.fails
      (getNumber low names ch file terms) := by
  unfold getNumber readNumber
  dsimp only
  by_cases hlong : maxTempstr ≤ (t.takeWhile isDigit).length
  · rw [if_pos hlong]
    obtain ⟨temp', ch', file', hget, htext, hfails⟩ :=
      getTemp_long isDigit [] h (by simpa using hlong) (by decide)
    rw [hget, ← hfails]
    exact numberBad_shows (by simpa using htext)
  rw [if_neg hlong]
  obtain ⟨file', hget, hrest, hfails⟩ :=
    getTemp_short isDigit [] h
      (by simpa using Nat.lt_of_not_le hlong)
  have hat : At (t.dropWhile isDigit).head? file' (t.dropWhile isDigit) :=
    ⟨rfl, hrest⟩
  rw [hget, ← hfails]
  dsimp only [List.nil_append]
  by_cases hds : t.takeWhile isDigit = []
  · -- no digits: the whole text is still ahead
    have hdrop : t.dropWhile isDigit = t := by
      have hsplit := List.takeWhile_append_dropWhile (p := isDigit) (l := t)
      rw [hds] at hsplit
      exact hsplit
    rw [hdrop] at hat
    rw [if_neg (by simp [hds]), if_neg (by simp [hds]), hdrop]
    cases names with
    | none => exact numberBad_shows hat.text
    | some names =>
        dsimp only
        rw [hds]
        by_cases hlong2 : maxTempstr ≤ (t.takeWhile isAlpha).length
        · rw [if_pos hlong2]
          obtain ⟨temp2, ch2, file2, hget2, htext2, hfails2⟩ :=
            getTemp_long isAlpha [] hat (by simpa using hlong2) (by decide)
          rw [hget2, ← hfails2]
          exact numberBad_shows (by simpa using htext2)
        rw [if_neg hlong2]
        obtain ⟨file2, hget2, hrest2, hfails2⟩ :=
          getTemp_short isAlpha [] hat
            (by simpa using Nat.lt_of_not_le hlong2)
        have hat2 : At (t.dropWhile isAlpha).head? file2
            (t.dropWhile isAlpha) := ⟨rfl, hrest2⟩
        rw [hget2, ← hfails2]
        dsimp only [List.nil_append]
        by_cases hterm : (t.takeWhile isAlpha).length ≠ 0
            ∧ strchr terms (t.dropWhile isAlpha).head? = true
        · have hne : t.takeWhile isAlpha ≠ [] :=
            fun hnil => hterm.1 (by rw [hnil]; rfl)
          rw [if_pos hterm]
          cases hi : nameIndex names (t.takeWhile isAlpha) with
          | none =>
              rw [if_neg (by simp)]
              exact numberBad_shows hat2.text
          | some i =>
              rw [if_pos ⟨hne, hterm.2, rfl⟩]
              refine ⟨⟨ne_nil_of_strchr hterms hterm.2, rfl, hrest2⟩, rfl, ?_⟩
              intro x next hx
              injection hx with hx _
              rw [← hx]
              simp [Num.read, hi]
        · rw [if_neg hterm, if_neg (fun hc =>
            hterm ⟨fun h0 => hc.1 (List.length_eq_zero_iff.mp h0), hc.2.1⟩)]
          exact numberBad_shows hat2.text
  · rw [if_pos (fun h0 => hds (List.length_eq_zero_iff.mp h0)), if_pos hds]
    by_cases hterm : strchr terms (t.dropWhile isDigit).head? = true
    · rw [if_pos hterm, if_pos hterm]
      refine ⟨⟨ne_nil_of_strchr hterms hterm, rfl, hrest⟩, rfl, ?_⟩
      intro x next hx
      injection hx with hx _
      rw [← hx]
      rfl
    · rw [if_neg hterm, if_neg hterm]
      exact numberBad_shows hat.text

-- =========================================================== get_range

/-- Without names only digits are read. -/
theorem readNumber_none {terms t next : List UInt8} {x : Num}
    (h : readNumber none terms t = .done x next) :
    ∃ ds, x = .digits ds := by
  unfold readNumber at h
  dsimp only at h
  split at h
  · cases h
  · split at h
    · split at h
      · injection h with h _
        exact ⟨_, h.symm⟩
      · cases h
    · cases h

/-- Whether the stepping loop runs to its end does not depend on the
bitmaps. -/
theorem stepLoop_fst {f : Field} {num2 num3 : Int32} {hstep : num3 ≠ 0}
    (i : Int32) (bits bits' : Bitmaps) :
    (stepLoop f num2 num3 hstep i bits).1
      = (stepLoop f num2 num3 hstep i bits').1 := by
  fun_induction stepLoop f num2 num3 hstep i bits generalizing bits' with
  | case1 i bits hle hset =>
      have hout : i < f.low ∨ f.high < i := by
        by_contra hin
        rw [setElement_in bits hin] at hset
        cases hset
      rw [stepLoop_out hle hout]
  | case2 i bits hle bits1 hset ih =>
      rw [stepLoop_in hle (setElement_eq_some hset).1]
      exact ih _
  | case3 i bits hle => rw [stepLoop_end hle]

/-- A range is set to its end if its elements fit the field, whatever was
set before. -/
theorem Range.fits_eq (f : Field) (r : Range) (bits : Bitmaps) :
    (r.apply f bits).1 = r.fits f := by
  unfold Range.fits
  cases r with
  | single x =>
      simp only [Range.apply]
      by_cases hout : x.value f < f.low ∨ f.high < x.value f
      · rw [setElement_out _ hout, setElement_out _ hout]
      · rw [setElement_in _ hout, setElement_in _ hout]
  | star step =>
      simp only [Range.apply, setStepping]
      split
      · rfl
      · exact stepLoop_fst _ _ _
  | span x y step =>
      simp only [Range.apply, setStepping]
      split
      · rfl
      · exact stepLoop_fst _ _ _

/-- What a call of `get_range` comes to, by what the text says: the bits
of the range and the character behind it, or a failure and where it leaves
the stream. -/
structure RangeShows (f : Field) (bits : Bitmaps) (o : Outcome Range)
    (fails : Bool) (r : Option UInt8 × Bitmaps × Stream) : Prop where
  shows : o.Shows r.1 r.2.2
  fails : r.2.2.fails = fails
  bits : ∀ x next, o = .done x next → r.2.1 = (x.apply f bits).2

/-- A range that failed, with the stream where the text says. -/
theorem rangeFail_shows {f : Field} {bits bits' : Bitmaps}
    {file : Stream} {left : List UInt8} {fails : Bool}
    (h : file.rest = left) (hfails : file.fails = fails) :
    RangeShows f bits (.fail left) fails (none, bits', file) := by
  refine ⟨⟨rfl, h⟩, hfails, ?_⟩
  intro x next hx
  cases hx

/-- One that failed and has swallowed a character. -/
theorem rangeEaten_shows {f : Field} {bits bits' : Bitmaps}
    {file : Stream} {next : List UInt8} {fails : Bool}
    (h : file.rest = next.tail) (hfails : file.fails = fails) :
    RangeShows f bits (.eaten next) fails (none, bits', file) := by
  refine ⟨⟨rfl, h⟩, hfails, ?_⟩
  intro x next hx
  cases hx

/-- Setting the elements of a range, or giving the lookahead back. -/
theorem setRange_shows {f : Field} {r : Range} {bits : Bitmaps}
    {num1 num2 num3 : Int32} (hstep : num3 ≠ 0)
    (happ : ∀ bits, r.apply f bits = setStepping f num1 num2 num3 bits)
    {ch : Option UInt8} {file : Stream} {next : List UInt8}
    (h : At ch file next) (hne : next ≠ []) :
    RangeShows f bits (takeRange f r next) file.fails
      (setRange bits f num1 num2 num3 hstep ch file) := by
  have hloop : stepLoop f num2 num3 hstep num1 bits = r.apply f bits := by
    rw [happ]
    simp [setStepping, hstep]
  have hfits := r.fits_eq f bits
  unfold setRange takeRange
  rw [hloop]
  rw [← hfits]
  cases hr : r.apply f bits with
  | mk ok bits' =>
      cases ok with
      | true =>
          refine ⟨⟨hne, h.head, h.tail⟩, rfl, ?_⟩
          intro x nx hx
          injection hx with hx _
          rw [← hx, hr]
      | false =>
          refine rangeFail_shows ?_ (ungetChar_fails ch file)
          rw [ungetChar_rest, h.text]

/-- Setting a single number, or giving the lookahead back. -/
theorem setSingle_shows {f : Field} {x : Num} {bits : Bitmaps}
    {ch : Option UInt8} {file : Stream} {next : List UInt8}
    (h : At ch file next) (hne : next ≠ []) :
    RangeShows f bits (takeRange f (.single x) next) file.fails
      (match setElement bits f (x.value f) with
       | none => (none, bits, ungetChar ch file)
       | some bits => (ch, bits, file)) := by
  by_cases hout : x.value f < f.low ∨ f.high < x.value f
  · have hfits : (Range.single x).fits f = false := by
      simp only [Range.fits, Range.apply, setElement_out _ hout]
    rw [takeRange, hfits, setElement_out _ hout]
    refine rangeFail_shows ?_ (ungetChar_fails ch file)
    rw [ungetChar_rest, h.text]
  · have hfits : (Range.single x).fits f = true := by
      simp only [Range.fits, Range.apply, setElement_in _ hout]
    rw [takeRange, hfits, setElement_in _ hout]
    refine ⟨⟨hne, h.head, h.tail⟩, rfl, ?_⟩
    intro r nx hr
    injection hr with hr _
    rw [← hr]
    simp only [Range.apply, setElement_in _ hout]

/-- `get_range` from the optional step on. -/
theorem getStep_shows {f : Field} {bits : Bitmaps} {num1 num2 : Int32}
    (mk : Option (List UInt8) → Range)
    (happ : ∀ step bits, (mk step).apply f bits
      = setStepping f num1 num2 (stepValue step) bits)
    {ch : Option UInt8} {file : Stream} {t : List UInt8}
    (h : At ch file t) (hne : t ≠ []) :
    RangeShows f bits
      ((readStep t).bind fun step => takeRange f (mk step)) file.fails
      (getStep bits f num1 num2 ch file) := by
  unfold getStep readStep
  rw [h.head]
  by_cases hslash : t.head? = some slash
  · rw [if_pos hslash, if_pos hslash]
    dsimp only
    rw [getChar_fst, h.tail]
    by_cases htail : t.tail = []
    · rw [if_pos htail, htail, List.head?_nil, if_pos rfl]
      exact rangeFail_shows (by rw [getChar_rest, h.tail, htail]; rfl)
        (getChar_fails file)
    rw [if_neg htail, if_neg (fun hn => htail (List.head?_eq_none_iff.mp hn))]
    have hat : At t.tail.head? (getChar file).2 t.tail :=
      ⟨rfl, by rw [getChar_rest, h.tail]⟩
    have hterms : (255 : UInt8) ∉ bytes ", \t\n" := by decide
    have hnum := getNumber_shows 0 none hterms hat
    rw [getChar_fails] at hnum
    generalize getNumber 0 none t.tail.head? (getChar file).2
      (bytes ", \t\n") = r at hnum
    obtain ⟨ch', num3, file'⟩ := r
    obtain ⟨hshows, hfails, hvalue⟩ := hnum
    cases ho : readNumber none (bytes ", \t\n") t.tail with
    | fail left =>
        rw [ho] at hshows
        obtain ⟨hch, hrest⟩ := hshows
        dsimp only at hch hrest hfails ⊢
        rw [dif_pos (Or.inl hch)]
        exact rangeFail_shows hrest hfails
    | eaten next =>
        rw [ho] at hshows
        obtain ⟨hch, hrest⟩ := hshows
        dsimp only at hch hrest hfails ⊢
        rw [dif_pos (Or.inl hch)]
        exact rangeEaten_shows hrest hfails
    | done x next =>
        rw [ho] at hshows
        obtain ⟨hnext, hch, hrest⟩ := hshows
        obtain ⟨ds, rfl⟩ := readNumber_none ho
        have hnum3 : num3 = atoi ds := hvalue _ _ ho
        dsimp only at hch hrest hfails
        subst hnum3
        simp only [Outcome.bind]
        by_cases hzero : atoi ds = 0
        · rw [dif_pos (Or.inr hzero), if_pos hzero]
          exact rangeEaten_shows hrest hfails
        · have hsome : ch' ≠ none := by
            rw [hch]
            simpa using hnext
          have hgo : ¬ (ch' = none ∨ atoi ds = 0) := by
            intro hgiven
            rcases hgiven with hc | hc
            · exact hsome hc
            · exact hzero hc
          rw [dif_neg hgo, if_neg hzero, ← hfails]
          exact setRange_shows hzero (happ (some ds)) ⟨hch, hrest⟩ hnext
  · rw [if_neg hslash, if_neg hslash, ← h.head]
    exact setRange_shows _ (happ none) h hne

/-- **`get_range`** does to the stream what `readRange` does to the text,
and sets the bits of the range. -/
theorem getRange_shows (f : Field) (bits : Bitmaps) {ch : Option UInt8}
    {file : Stream} {t : List UInt8} (h : At ch file t) :
    RangeShows f bits (readRange f t) file.fails
      (getRange bits f ch file) := by
  unfold getRange readRange
  rw [h.head]
  by_cases hstar : t.head? = some star
  · rw [if_pos hstar, if_pos hstar]
    dsimp only
    rw [getChar_fst, h.tail]
    by_cases htail : t.tail = []
    · rw [if_pos htail, htail, List.head?_nil, if_pos rfl]
      exact rangeFail_shows (by rw [getChar_rest, h.tail, htail]; rfl)
        (getChar_fails file)
    rw [if_neg htail, if_neg (fun hn => htail (List.head?_eq_none_iff.mp hn))]
    have hat : At t.tail.head? (getChar file).2 t.tail :=
      ⟨rfl, by rw [getChar_rest, h.tail]⟩
    rw [← getChar_fails file]
    exact getStep_shows .star (fun _ _ => rfl) hat htail
  rw [if_neg hstar, if_neg hstar, ← h.head]
  have hterms : (255 : UInt8) ∉ bytes ",- \t\n" := by decide
  have hnum := getNumber_shows f.low f.names hterms h
  generalize getNumber f.low f.names ch file (bytes ",- \t\n") = r at hnum
  obtain ⟨ch1, num1, file1⟩ := r
  obtain ⟨hshows, hfails, hvalue⟩ := hnum
  cases ho : readNumber f.names (bytes ",- \t\n") t with
  | fail left =>
      rw [ho] at hshows
      obtain ⟨hch, hrest⟩ := hshows
      dsimp only at hch hrest hfails ⊢
      rw [if_pos hch]
      exact rangeFail_shows hrest hfails
  | eaten next =>
      rw [ho] at hshows
      obtain ⟨hch, hrest⟩ := hshows
      dsimp only at hch hrest hfails ⊢
      rw [if_pos hch]
      exact rangeEaten_shows hrest hfails
  | done x next =>
      rw [ho] at hshows
      obtain ⟨hnext, hch, hrest⟩ := hshows
      have hnum1 : num1 = x.value f := hvalue _ _ ho
      dsimp only at hch hrest hfails
      subst hnum1
      simp only [Outcome.bind]
      have hsome : ch1 ≠ none := by
        rw [hch]
        simpa using hnext
      rw [if_neg hsome]
      by_cases hdash : next.head? = some dash
      · rw [hch, if_neg (not_not.mpr hdash), if_neg (not_not.mpr hdash),
          getChar_fst, hrest]
        by_cases htail : next.tail = []
        · rw [if_pos htail, htail, List.head?_nil, if_pos rfl]
          exact rangeFail_shows (by rw [getChar_rest, hrest, htail]; rfl)
            (by rw [getChar_fails, hfails])
        rw [if_neg htail,
          if_neg (fun hn => htail (List.head?_eq_none_iff.mp hn))]
        have hat2 : At next.tail.head? (getChar file1).2 next.tail :=
          ⟨rfl, by rw [getChar_rest, hrest]⟩
        have hterms2 : (255 : UInt8) ∉ bytes "/, \t\n" := by decide
        have hnum2 := getNumber_shows f.low f.names hterms2 hat2
        rw [getChar_fails, hfails] at hnum2
        generalize getNumber f.low f.names next.tail.head?
          (getChar file1).2 (bytes "/, \t\n") = r2 at hnum2
        obtain ⟨ch2, num2, file2⟩ := r2
        obtain ⟨hshows2, hfails2, hvalue2⟩ := hnum2
        cases ho2 : readNumber f.names (bytes "/, \t\n") next.tail with
        | fail left =>
            rw [ho2] at hshows2
            obtain ⟨hch2, hrest2⟩ := hshows2
            dsimp only at hch2 hrest2 hfails2 ⊢
            rw [if_pos (Or.inl hch2)]
            exact rangeFail_shows hrest2 hfails2
        | eaten next2 =>
            rw [ho2] at hshows2
            obtain ⟨hch2, hrest2⟩ := hshows2
            dsimp only at hch2 hrest2 hfails2 ⊢
            rw [if_pos (Or.inl hch2)]
            exact rangeEaten_shows hrest2 hfails2
        | done y next2 =>
            rw [ho2] at hshows2
            obtain ⟨hnext2, hch2, hrest2⟩ := hshows2
            have hval2 : num2 = y.value f := hvalue2 _ _ ho2
            dsimp only at hch2 hrest2 hfails2 ⊢
            subst hval2
            have hsome2 : ch2 ≠ none := by
              rw [hch2]
              simpa using hnext2
            by_cases hlt : y.value f < x.value f
            · rw [if_pos (Or.inr hlt), if_pos hlt]
              exact rangeEaten_shows hrest2 hfails2
            · have hgo : ¬ (ch2 = none ∨ y.value f < x.value f) := by
                intro hgiven
                rcases hgiven with hc | hc
                · exact hsome2 hc
                · exact hlt hc
              rw [if_neg hgo, if_neg hlt, ← hfails2]
              exact getStep_shows (.span x y) (fun _ _ => rfl)
                ⟨hch2, hrest2⟩ hnext2
      · rw [if_pos hdash, if_pos (by rw [hch]; exact hdash), ← hfails]
        exact setSingle_shows ⟨hch, hrest⟩ hnext

-- ============================================================ get_list

/-- What a call of `get_list` comes to, by what the text says: the bits of
the list and the first character of the next field, or a failure. -/
structure ListShows (f : Field) (bits : Bitmaps)
    (o : Outcome (List Range)) (fails : Bool)
    (r : Option UInt8 × Bitmaps × Stream) : Prop where
  shows : o.Shows r.1 r.2.2
  fails : r.2.2.fails = fails
  bits : ∀ rs next, o = .done rs next → r.2.1 = applyRanges f rs bits

/-- A list that failed, with the stream where the text says. -/
theorem listFail_shows {f : Field} {bits : Bitmaps} {left : List UInt8}
    {fails : Bool} {r : Option UInt8 × Bitmaps × Stream}
    (hch : r.1 = none) (h : r.2.2.rest = left)
    (hfails : r.2.2.fails = fails) :
    ListShows f bits (.fail left) fails r := by
  refine ⟨⟨hch, h⟩, hfails, ?_⟩
  intro rs next hx
  cases hx

/-- One that failed and has swallowed a character. -/
theorem listEaten_shows {f : Field} {bits : Bitmaps} {next : List UInt8}
    {fails : Bool} {r : Option UInt8 × Bitmaps × Stream}
    (hch : r.1 = none) (h : r.2.2.rest = next.tail)
    (hfails : r.2.2.fails = fails) :
    ListShows f bits (.eaten next) fails r := by
  refine ⟨⟨hch, h⟩, hfails, ?_⟩
  intro rs next hx
  cases hx

/-- The ranges of a list. -/
theorem getListLoop_shows (f : Field) (bits : Bitmaps)
    {ch : Option UInt8} {file : Stream} {t : List UInt8} (h : At ch file t) :
    ListShows f bits (readRanges f t) file.fails
      (getListLoop bits f ch file) := by
  fun_induction readRanges f t generalizing bits ch file with
  | case1 t r next hread hcomma ih =>
      obtain ⟨hshows, hfails, hbits⟩ := getRange_shows f bits h
      rw [hread] at hshows hbits
      obtain ⟨hne, hch, hrest⟩ := hshows
      rw [hcomma] at hch
      rw [getListLoop]
      rw [if_neg (by rw [hch]; simp), dif_pos hch]
      have hat : At (getChar (getRange bits f ch file).2.2).1
          (getChar (getRange bits f ch file).2.2).2 next.tail := by
        rw [← hrest]
        exact at_getChar _
      obtain ⟨hshows2, hfails2, hbits2⟩ :=
        ih (getRange bits f ch file).2.1 hat
      rw [getChar_fails, hfails] at hfails2
      cases ho : readRanges f next.tail with
      | fail left =>
          rw [ho] at hshows2
          exact listFail_shows hshows2.1 hshows2.2 hfails2
      | eaten next2 =>
          rw [ho] at hshows2
          exact listEaten_shows hshows2.1 hshows2.2 hfails2
      | done rs next2 =>
          rw [ho] at hshows2
          refine ⟨hshows2, hfails2, ?_⟩
          intro rs' nx hx
          injection hx with hx _
          rw [hbits2 _ _ ho, ← hx, hbits _ _ rfl]
          rfl
  | case2 t r next hread hcomma =>
      obtain ⟨hshows, hfails, hbits⟩ := getRange_shows f bits h
      rw [hread] at hshows hbits
      obtain ⟨hne, hch, hrest⟩ := hshows
      rw [getListLoop]
      rw [if_neg (by rw [hch]; simpa using hne),
        dif_neg (by rw [hch]; exact hcomma)]
      refine ⟨⟨hne, hch, hrest⟩, hfails, ?_⟩
      intro rs nx hx
      injection hx with hx _
      rw [← hx, hbits _ _ rfl]
      rfl
  | case3 t left hread =>
      obtain ⟨hshows, hfails, -⟩ := getRange_shows f bits h
      rw [hread] at hshows
      rw [getListLoop]
      rw [if_pos hshows.1]
      exact listFail_shows hshows.1 hshows.2 hfails
  | case4 t next hread =>
      obtain ⟨hshows, hfails, -⟩ := getRange_shows f bits h
      rw [hread] at hshows
      rw [getListLoop]
      rw [if_pos hshows.1]
      exact listEaten_shows hshows.1 hshows.2 hfails

/-- **`get_list`**: after the clearing of the field, the ranges of the
list and the scan to the next field. -/
theorem getList_shows (f : Field) (bits : Bitmaps) {ch : Option UInt8}
    {file : Stream} {t : List UInt8} (h : At ch file t) :
    ListShows f (clearField f bits) (readList f t) file.fails
      (getList bits f ch file) := by
  have hloop := getListLoop_shows f (clearField f bits) h
  unfold getList readList
  dsimp only
  rw [show bitNclear bits f.name 0 (bitIndex (f.high - f.low + 1))
    = clearField f bits from rfl]
  generalize getListLoop (clearField f bits) f ch file = r at hloop
  obtain ⟨ch', bits', file'⟩ := r
  obtain ⟨hshows, hfails, hbits⟩ := hloop
  dsimp only at hfails hbits ⊢
  cases ho : readRanges f t with
  | fail left =>
      rw [ho] at hshows
      rw [if_pos hshows.1]
      exact listFail_shows rfl hshows.2 hfails
  | eaten next =>
      rw [ho] at hshows
      rw [if_pos hshows.1]
      exact listEaten_shows rfl hshows.2 hfails
  | done rs next =>
      rw [ho] at hshows
      obtain ⟨hne, hch, hrest⟩ := hshows
      dsimp only at hch hrest
      rw [if_neg (by rw [hch]; simpa using hne)]
      have hat : At ch' file' next := ⟨hch, hrest⟩
      have hat2 := skipBlanks_at (skipNonblanks_at hat)
      have hfails2 : (skipBlanks (skipNonblanks ch' file').1
          (skipNonblanks ch' file').2).2.fails = file.fails := by
        unfold skipBlanks skipNonblanks
        rw [skipWhile_fails, skipWhile_fails, hfails]
      simp only [Outcome.bind]
      by_cases hend : skipField next = []
      · rw [if_pos hend]
        refine listFail_shows ?_ ?_ hfails2
        · have hhead := hat2.head
          rw [show (next.dropWhile isNonblank).dropWhile isBlank = []
            from hend] at hhead
          exact hhead
        · have htail := hat2.tail
          rw [show (next.dropWhile isNonblank).dropWhile isBlank = []
            from hend] at htail
          exact htail
      · rw [if_neg hend]
        refine ⟨⟨hend, hat2.head, hat2.tail⟩, hfails2, ?_⟩
        intro rs' nx hx
        injection hx with hx _
        rw [← hx]
        exact hbits _ _ ho

end Tinjac
