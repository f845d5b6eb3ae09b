/-
Which malformed schedules the parser accepts.

# Two readings of one text

A field text that the parser takes is a list written out and then what
`Skip_Nonblanks` skips. It is a sentence of the documented grammar
exactly if nothing was skipped and every range is one of the grammar,
because a text has only one tree (`listText_unique`).

# The four ways through

A range the parser takes is one of the grammar unless a numeral wrapped
in `atoi` (`Range.Wraps`) or a stepping loop jumped over the end of the
field before it reached the upper bound (`Range.Overshoots`); and
something is skipped where a `*` is followed by other characters, or a
NUL byte passed for a terminator. `Slips` says that one of these
happened: a field is accepted only as a sentence of the grammar exactly
if none of them did.
-/
import Tinjac.Proofs.Grammar
import Tinjac.Proofs.FieldText

namespace Tinjac

open Span

-- ======================================================= one tree only

/-- The characters of numerals and names. -/
def isWordChar (c : UInt8) : Bool := isDigit c || isAlpha c

/-- Where a word ends its digits do. -/
theorem stops_digit_of_word {l : List UInt8} (h : Stops isWordChar l) :
    Stops isDigit l := by
  intro c hc
  have hword := h c hc
  unfold isWordChar at hword
  exact (Bool.or_eq_false_iff.mp hword).1

/-- And so do its letters. -/
theorem stops_alpha_of_word {l : List UInt8} (h : Stops isWordChar l) :
    Stops isAlpha l := by
  intro c hc
  have hword := h c hc
  unfold isWordChar at hword
  exact (Bool.or_eq_false_iff.mp hword).2

/-- A run is told from the text after it. -/
theorem run_unique {p : UInt8 → Bool} {w w' n n' : List UInt8}
    (hw : ∀ c ∈ w, p c = true) (hw' : ∀ c ∈ w', p c = true)
    (hn : Stops p n) (hn' : Stops p n') (h : w ++ n = w' ++ n') :
    w = w' ∧ n = n' := by
  have htake := takeWhile_run hw hn
  rw [h, takeWhile_run hw' hn'] at htake
  subst htake
  exact ⟨rfl, List.append_cancel_left h⟩

/-- **One reading.** A text begins with one number at most, if a word ends
behind it. -/
theorem num_unique {names : Option (List (List UInt8))} {x x' : Num}
    {n n' : List UInt8} (hx : x.Lexical names) (hx' : x'.Lexical names)
    (hn : Stops isWordChar n) (hn' : Stops isWordChar n')
    (h : x.text ++ n = x'.text ++ n') : x = x' ∧ n = n' := by
  have hclash : ∀ {ds ls m m' : List UInt8},
      (ds ≠ [] ∧ ∀ c ∈ ds, isDigit c = true) →
      (ls ≠ [] ∧ ∀ c ∈ ls, isAlpha c = true) → ds ++ m = ls ++ m' →
      False := by
    intro ds ls m m' hds hls heq
    obtain ⟨c, l, rfl⟩ := List.exists_cons_of_ne_nil hds.1
    obtain ⟨c', l', rfl⟩ := List.exists_cons_of_ne_nil hls.1
    injection heq with hc _
    have hdigit := hds.2 c List.mem_cons_self
    rw [hc, isDigit_of_isAlpha (hls.2 c' List.mem_cons_self)] at hdigit
    cases hdigit
  cases x with
  | digits ds =>
      cases x' with
      | digits ds' =>
          obtain ⟨rfl, hnn⟩ := run_unique hx.2 hx'.2
            (stops_digit_of_word hn) (stops_digit_of_word hn') h
          exact ⟨rfl, hnn⟩
      | name ls => exact absurd h (hclash hx hx'.1)
  | name ls =>
      cases x' with
      | digits ds => exact absurd h.symm (hclash hx' hx.1)
      | name ls' =>
          obtain ⟨rfl, hnn⟩ := run_unique hx.1.2 hx'.1.2
            (stops_alpha_of_word hn) (stops_alpha_of_word hn') h
          exact ⟨rfl, hnn⟩

/-- A step as it is written, of any length. -/
def StepLexical : Option (List UInt8) → Prop
  | none => True
  | some n => n ≠ [] ∧ ∀ c ∈ n, isDigit c = true

/-- A range as it is written. -/
def Range.Lexical (f : Field) : Range → Prop
  | .star step => StepLexical step
  | .single x => x.Lexical f.names
  | .span x y step =>
      x.Lexical f.names ∧ y.Lexical f.names ∧ StepLexical step

/-- The step does not go on in what follows. -/
def StepFollows (step : Option (List UInt8)) (next : List UInt8) : Prop :=
  match step with
  | none => next.head? ≠ some slash
  | some _ => Stops isWordChar next

/-- The range does not go on in what follows. -/
def Range.Follows (r : Range) (next : List UInt8) : Prop :=
  match r with
  | .star step => StepFollows step next
  | .single _ => Stops isWordChar next ∧ next.head? ≠ some dash
  | .span _ _ step => Stops isWordChar next ∧ StepFollows step next

/-- And with one step, or none. -/
theorem step_unique {s s' : Option (List UInt8)} {n n' : List UInt8}
    (hs : StepLexical s) (hs' : StepLexical s') (hn : StepFollows s n)
    (hn' : StepFollows s' n') (h : stepText s ++ n = stepText s' ++ n') :
    s = s' ∧ n = n' := by
  cases s with
  | none =>
      cases s' with
      | none => exact ⟨rfl, h⟩
      | some d =>
          refine absurd ?_ hn
          have hh := congrArg List.head? h
          exact hh
  | some d =>
      cases s' with
      | none =>
          refine absurd ?_ hn'
          have hh := congrArg List.head? h
          exact hh.symm
      | some d' =>
          injection h with _ h
          obtain ⟨rfl, hnn⟩ := run_unique hs.2 hs'.2
            (stops_digit_of_word hn) (stops_digit_of_word hn') h
          exact ⟨rfl, hnn⟩

/-- A number is not empty. -/
theorem Num.Lexical.head {names : Option (List (List UInt8))} {x : Num}
    (hx : x.Lexical names) :
    ∃ c l, x.text = c :: l ∧ isWordChar c = true := by
  cases x with
  | digits ds =>
      obtain ⟨c, l, rfl⟩ := List.exists_cons_of_ne_nil hx.1
      exact ⟨c, l, rfl, by simp [isWordChar, hx.2 c List.mem_cons_self]⟩
  | name ls =>
      obtain ⟨c, l, rfl⟩ := List.exists_cons_of_ne_nil hx.1.1
      exact ⟨c, l, rfl, by simp [isWordChar, hx.1.2 c List.mem_cons_self]⟩

/-- A number is no `*`. -/
theorem star_ne_num {names : Option (List (List UInt8))} {x : Num}
    (hx : x.Lexical names) {l m : List UInt8}
    (h : star :: l = x.text ++ m) : False := by
  obtain ⟨c, l', heq, hc⟩ := hx.head
  rw [heq] at h
  injection h with h _
  rw [← h] at hc
  exact absurd hc (by decide)

/-- A dash ends a word. -/
theorem stops_word_dash (l : List UInt8) : Stops isWordChar (dash :: l) :=
  stops_cons.mpr (by decide)

/-- So does a slash, or what is behind a number without a step. -/
theorem stops_word_step {s : Option (List UInt8)} {n : List UInt8}
    (hn : Stops isWordChar n) : Stops isWordChar (stepText s ++ n) := by
  cases s with
  | none => exact hn
  | some d => exact stops_cons.mpr (by decide)

/-- A text begins with one range at most. -/
theorem range_unique {f : Field} {r r' : Range} {n n' : List UInt8}
    (hr : r.Lexical f) (hr' : r'.Lexical f) (hn : r.Follows n)
    (hn' : r'.Follows n') (h : r.text ++ n = r'.text ++ n') :
    r = r' ∧ n = n' := by
  have hspan : ∀ (x y : Num) (s : Option (List UInt8)) (m : List UInt8),
      (Range.span x y s).text ++ m
        = x.text ++ dash :: (y.text ++ (stepText s ++ m)) := by
    intro x y s m
    simp [Range.text]
  cases r with
  | star s =>
      cases r' with
      | star s' =>
          injection h with _ h
          obtain ⟨rfl, hnn⟩ := step_unique hr hr' hn hn' h
          exact ⟨rfl, hnn⟩
      | single x => exact (star_ne_num hr' h).elim
      | span x y s' =>
          rw [hspan] at h
          exact (star_ne_num hr'.1 h).elim
  | single x =>
      cases r' with
      | star s => exact (star_ne_num hr h.symm).elim
      | single x' =>
          obtain ⟨rfl, hnn⟩ := num_unique hr hr' hn.1 hn'.1 h
          exact ⟨rfl, hnn⟩
      | span x' y' s' =>
          rw [hspan] at h
          obtain ⟨-, hnn⟩ :=
            num_unique hr hr'.1 hn.1 (stops_word_dash _) h
          exact absurd (congrArg List.head? hnn) hn.2
  | span x y s =>
      rw [hspan] at h
      cases r' with
      | star s' => exact (star_ne_num hr.1 h.symm).elim
      | single x' =>
          obtain ⟨-, hnn⟩ :=
            num_unique hr.1 hr' (stops_word_dash _) hn'.1 h
          exact absurd (congrArg List.head? hnn.symm) hn'.2
      | span x' y' s' =>
          rw [hspan] at h
          obtain ⟨rfl, hafter⟩ := num_unique hr.1 hr'.1
            (stops_word_dash _) (stops_word_dash _) h
          injection hafter with _ hafter
          obtain ⟨rfl, hstep⟩ := num_unique hr.2.1 hr'.2.1
            (stops_word_step hn.1) (stops_word_step hn'.1) hafter
          obtain ⟨rfl, hnn⟩ := step_unique hr.2.2 hr'.2.2 hn.2 hn'.2 hstep
          exact ⟨rfl, hnn⟩

/-- A comma ends every range. -/
theorem Range.follows_comma (r : Range) (l : List UInt8) :
    r.Follows (comma :: l) := by
  have hword : Stops isWordChar (comma :: l) := stops_cons.mpr (by decide)
  have hstep : ∀ s, StepFollows s (comma :: l) := by
    intro s
    cases s with
    | none =>
        show some comma ≠ some slash
        decide
    | some d => exact hword
  cases r with
  | star s => exact hstep s
  | single x =>
      refine ⟨hword, ?_⟩
      show some comma ≠ some dash
      decide
  | span x y s => exact ⟨hword, hstep s⟩

/-- And with one list: so what a field means is settled by its text. -/
theorem listText_unique {f : Field} {rs rs' : List Range}
    {n n' : List UInt8} (hrs : ∀ r ∈ rs, r.Lexical f)
    (hrs' : ∀ r ∈ rs', r.Lexical f) (hne : rs ≠ []) (hne' : rs' ≠ [])
    (hlast : ∀ r, rs.getLast? = some r → r.Follows n)
    (hlast' : ∀ r, rs'.getLast? = some r → r.Follows n')
    (hmore : n.head? ≠ some comma) (hmore' : n'.head? ≠ some comma)
    (h : listText rs ++ n = listText rs' ++ n') : rs = rs' ∧ n = n' := by
  induction rs generalizing rs' with
  | nil => exact absurd rfl hne
  | cons r rs ih =>
      obtain ⟨r', rs', rfl⟩ := List.exists_cons_of_ne_nil hne'
      have hr := hrs r List.mem_cons_self
      have hr' := hrs' r' List.mem_cons_self
      cases rs with
      | nil =>
          have hfol := hlast r rfl
          cases rs' with
          | nil =>
              obtain ⟨rfl, hnn⟩ :=
                range_unique hr hr' hfol (hlast' r' rfl) h
              exact ⟨rfl, hnn⟩
          | cons q' rs' =>
              rw [listText, listText, List.append_assoc] at h
              obtain ⟨-, hnn⟩ :=
                range_unique hr hr' hfol (r'.follows_comma _) h
              exact absurd (congrArg List.head? hnn) hmore
      | cons q rs =>
          rw [show listText (r :: q :: rs) ++ n
            = r.text ++ comma :: (listText (q :: rs) ++ n) by
              simp [listText]] at h
          cases rs' with
          | nil =>
              obtain ⟨-, hnn⟩ :=
                range_unique hr hr' (r.follows_comma _) (hlast' r' rfl) h
              exact absurd (congrArg List.head? hnn.symm) hmore'
          | cons q' rs' =>
              rw [show listText (r' :: q' :: rs') ++ n'
                = r'.text ++ comma :: (listText (q' :: rs') ++ n') by
                  simp [listText]] at h
              obtain ⟨rfl, hnn⟩ := range_unique hr hr'
                (r.follows_comma _) (r'.follows_comma _) h
              injection hnn with _ hnn
              obtain ⟨heq, hnn⟩ := ih
                (fun p hp => hrs p (List.mem_cons_of_mem r hp))
                (fun p hp => hrs' p (List.mem_cons_of_mem r hp))
                (by simp) (by simp)
                (fun p hp => hlast p (by
                  rw [List.getLast?_cons_cons]
                  exact hp))
                (fun p hp => hlast' p (by
                  rw [List.getLast?_cons_cons]
                  exact hp))
                hnn
              exact ⟨congrArg (r :: ·) heq, hnn⟩

-- =================================================== values of numbers

/-- The numeral is beyond `int`: `atoi` makes another number of it. -/
def Num.Wraps : Num → Prop
  | .digits ds => 2 ^ 31 ≤ digitsValue ds
  | .name _ => False

/-- The index of a name is one of the table's. -/
theorem nameIndex_lt {ns : List (List UInt8)} {ls : List UInt8} {i : Nat}
    (h : nameIndex ns ls = some i) : i < ns.length := by
  unfold nameIndex at h
  exact (List.findIdx?_eq_some_iff_findIdx_eq.mp h).1

/-- The names of a field stand for values of it. -/
theorem names_bound : ∀ f ∈ fields, 0 ≤ f.low.toInt ∧ f.low.toInt ≤ 1
    ∧ f.high.toInt ≤ 59
    ∧ ((f.names.getD []).length : Int) + f.low.toInt ≤ f.high.toInt + 1 := by
  decide

/-- `atoi` is exact as far as the `int`s go. -/
theorem atoi_toInt {ds : List UInt8} (h : digitsValue ds < 2 ^ 31) :
    (atoi ds).toInt = digitsValue ds := by
  unfold atoi
  rw [Int32.toInt_ofInt_of_le]
  · omega
  · omega
  · omega

/-- What is stored for a number is what it means, unless it wraps. -/
theorem value_toInt {f : Field} (hf : f ∈ fields) {x : Num}
    (hx : x.Scanned f.names) (hwrap : ¬ x.Wraps) :
    (x.value f).toInt = x.meaning f := by
  cases x with
  | digits ds => exact atoi_toInt (Nat.lt_of_not_le hwrap)
  | name ls =>
      obtain ⟨-, ns, hns, hknown⟩ := hx
      obtain ⟨i, hi⟩ := Option.isSome_iff_exists.mp hknown
      have hlt := nameIndex_lt hi
      obtain ⟨hlow, hlow1, hhigh, hbound⟩ := names_bound f hf
      rw [hns, Option.getD_some] at hbound
      simp only [Num.value, Num.read, Num.meaning, hns, Option.getD_some, hi]
      rw [Int32.toInt_add, Int32.toInt_ofNat_of_lt (by omega),
        Int.bmod_eq_of_le (by omega) (by omega)]

/-- A number of the grammar does not wrap. -/
theorem Num.Strict.not_wraps {f : Field} (hf : f ∈ fields) {x : Num}
    (hx : x.Strict f) : ¬ x.Wraps := by
  obtain ⟨-, -, hhigh, -⟩ := names_bound f hf
  have hle := hx.le_high
  cases x with
  | digits ds =>
      intro hwrap
      have hwrap' : 2 ^ 31 ≤ digitsValue ds := hwrap
      simp only [Num.meaning] at hle
      omega
  | name ls => exact fun hwrap => hwrap

/-- What `get_number` accepts is a number. -/
theorem Num.Scanned.lexical {names : Option (List (List UInt8))} {x : Num}
    (hx : x.Scanned names) : x.Lexical names := by
  cases x with
  | digits ds => exact ⟨hx.ne_nil, hx.digits⟩
  | name ls => exact ⟨⟨hx.1.ne_nil, hx.1.letters⟩, hx.2⟩

-- ======================================================== taken ranges

/-- An end of the range is beyond `int`. -/
def Range.Wraps : Range → Prop
  | .star _ => False
  | .single x => x.Wraps
  | .span x y _ => x.Wraps ∨ y.Wraps

/-- The upper end of the range is beyond the field. -/
def Range.Overshoots (f : Field) : Range → Prop
  | .span _ y _ => f.high < y.value f
  | _ => False

/-- A step that is accepted is one of the grammar. -/
theorem StepTaken.strict {step : Option (List UInt8)}
    (h : StepTaken step) : StepStrict step := by
  cases step with
  | none => trivial
  | some n =>
      refine ⟨⟨h.1.ne_nil, h.1.digits⟩, ?_⟩
      by_contra hzero
      refine h.2 ?_
      unfold atoi
      rw [show digitsValue n = 0 by omega]
      rfl

/-- The first element of a range that fits is in the field. -/
theorem first_in_field {f : Field} {x y : Num}
    {step : Option (List UInt8)} (hle : ¬ y.value f < x.value f)
    (hfits : (Range.span x y step).fits f = true) :
    ¬ (x.value f < f.low ∨ f.high < x.value f) := by
  intro hout
  simp only [Range.fits, Range.apply, setStepping] at hfits
  split at hfits
  · cases hfits
  · rw [stepLoop_out (Int32.not_lt.mp hle) hout] at hfits
    cases hfits

/-- A number that is a range of its own, and fits, is a value of the
field. -/
theorem single_in_field {f : Field} {x : Num}
    (hfits : (Range.single x).fits f = true) :
    ¬ (x.value f < f.low ∨ f.high < x.value f) := by
  intro hout
  simp only [Range.fits, Range.apply, setElement_out _ hout] at hfits
  cases hfits

/-- What was read of a range the parser takes is of the grammar, unless
a numeral wrapped or the upper end was jumped over. -/
theorem Range.Taken.strict_iff {f : Field} (hf : f ∈ fields) {r : Range}
    (hr : r.Taken f) : r.Strict f ↔ ¬ r.Wraps ∧ ¬ r.Overshoots f := by
  cases r with
  | star step =>
      exact ⟨fun _ => ⟨id, id⟩, fun _ => hr.1.strict⟩
  | single x =>
      obtain ⟨hx, hfits⟩ := hr
      constructor
      · intro hstrict
        exact ⟨Num.Strict.not_wraps hf hstrict, id⟩
      · intro hgiven
        obtain ⟨hwrap, -⟩ := hgiven
        have hin := single_in_field hfits
        have hval := value_toInt hf hx hwrap
        rw [Int32.lt_iff_toInt_lt, Int32.lt_iff_toInt_lt, hval] at hin
        exact ⟨hx.lexical, by omega, by omega⟩
  | span x y step =>
      obtain ⟨hx, hy, hle, hstep, hfits⟩ := hr
      constructor
      · intro hgiven
        obtain ⟨hxs, hys, -, -⟩ := hgiven
        have hxw := hxs.not_wraps hf
        have hyw := hys.not_wraps hf
        refine ⟨fun h => h.elim hxw hyw, ?_⟩
        show ¬ f.high < y.value f
        rw [Int32.lt_iff_toInt_lt, value_toInt hf hy hyw]
        have := hys.le_high
        omega
      · intro hgiven
        obtain ⟨hwrap, hover⟩ := hgiven
        have hxw : ¬ x.Wraps := fun h => hwrap (Or.inl h)
        have hyw : ¬ y.Wraps := fun h => hwrap (Or.inr h)
        have hover' : ¬ f.high < y.value f := hover
        have hin := first_in_field hle hfits
        rw [Int32.lt_iff_toInt_lt, Int32.lt_iff_toInt_lt,
          value_toInt hf hx hxw] at hin
        rw [Int32.lt_iff_toInt_lt, value_toInt hf hy hyw,
          value_toInt hf hx hxw] at hle
        rw [Int32.lt_iff_toInt_lt, value_toInt hf hy hyw] at hover'
        exact ⟨⟨hx.lexical, by omega, by omega⟩,
          ⟨hy.lexical, by omega, by omega⟩, by omega, hstep.strict⟩

-- ========================================================= the theorem

/-- A list the parser takes on this text is no sentence of the grammar:
characters behind it are skipped, a numeral wrapped, or an upper end was
jumped over. -/
def Slips (f : Field) (t : List UInt8) : Prop :=
  ∃ rs next, t = listText rs ++ next ∧ ListTaken f rs next
    ∧ skipField next ≠ []
    ∧ (¬ Stops isNonblank next ∨ ∃ r ∈ rs, r.Wraps ∨ r.Overshoots f)

/-- A step of the grammar is a step. -/
theorem StepStrict.lexical {step : Option (List UInt8)}
    (h : StepStrict step) : StepLexical step := by
  cases step with
  | none => trivial
  | some n => exact h.1

/-- A range of the grammar is a range. -/
theorem Range.Strict.lexical {f : Field} {r : Range} (hr : r.Strict f) :
    r.Lexical f := by
  cases r with
  | star step => exact StepStrict.lexical hr
  | single x => exact Num.Strict.lexical hr
  | span x y step =>
      exact ⟨hr.1.lexical, hr.2.1.lexical, StepStrict.lexical hr.2.2.2⟩

/-- And so is one that is accepted. -/
theorem Range.Taken.lexical {f : Field} {r : Range} (hr : r.Taken f) :
    r.Lexical f := by
  cases r with
  | star step => exact hr.1.strict.lexical
  | single x => exact hr.1.lexical
  | span x y step =>
      exact ⟨hr.1.lexical, hr.2.1.lexical, hr.2.2.2.1.strict.lexical⟩

/-- Behind a list a word has ended. -/
theorem stops_word_of_fieldTerms {next : List UInt8}
    (h : strchr fieldTerms next.head? = true) : Stops isWordChar next := by
  intro c hc
  unfold isWordChar
  rw [stops_digit delimits_field h c hc, stops_alpha delimits_field h c hc]
  rfl

/-- And no character stands there but a terminator. -/
theorem head_ne_of_fieldTerms {next : List UInt8} {c : UInt8}
    (h : strchr fieldTerms next.head? = true)
    (hc : strchr fieldTerms (some c) = false) : next.head? ≠ some c := by
  intro heq
  rw [heq, hc] at h
  cases h

/-- What ends a range the parser takes does not go on with it. -/
theorem Range.Ends.follows {r : Range} {next : List UInt8}
    (h : r.Ends next) : r.Follows next := by
  cases r with
  | star step =>
      cases step with
      | none => exact h.2
      | some n => exact stops_word_of_fieldTerms h.2
  | single x =>
      exact ⟨stops_word_of_fieldTerms h, head_ne_of_fieldTerms h rfl⟩
  | span x y step =>
      refine ⟨stops_word_of_fieldTerms h, ?_⟩
      cases step with
      | none => exact head_ne_of_fieldTerms h rfl
      | some n => exact stops_word_of_fieldTerms h

/-- Blanks and newlines do not go on with any range. -/
theorem Range.follows_of_stops (r : Range) {next : List UInt8}
    (h : Stops isNonblank next) : r.Follows next := by
  have hchar : ∀ c, isNonblank c = true → next.head? ≠ some c := by
    intro c hc heq
    rw [h c heq] at hc
    cases hc
  have hword : Stops isWordChar next := by
    intro c hc
    by_contra hword
    rw [Bool.not_eq_false, isWordChar, Bool.or_eq_true] at hword
    rcases hword with hd | ha
    · exact hchar c (isNonblank_of_isDigit hd) hc
    · exact hchar c (isNonblank_of_isAlpha ha) hc
  have hslash : next.head? ≠ some slash := hchar slash (by decide)
  have hstep : ∀ s, StepFollows s next := by
    intro s
    cases s with
    | none => exact hslash
    | some n => exact hword
  cases r with
  | star s => exact hstep s
  | single x => exact ⟨hword, hchar dash (by decide)⟩
  | span x y s => exact ⟨hword, hstep s⟩

/-- **A field.** What `get_list` accepts, with its scan to the next field,
which must find one. -/
theorem readList_done {f : Field} {t next : List UInt8}
    {rs : List Range} :
    readList f t = .done rs next
      ↔ ∃ after, t = listText rs ++ after ∧ ListTaken f rs after
        ∧ skipField after ≠ [] ∧ next = skipField after := by
  unfold readList
  rw [Outcome.bind_done]
  constructor
  · intro hgiven
    obtain ⟨rs', after, hread, hdone⟩ := hgiven
    obtain ⟨htext, hlist⟩ := readRanges_done.mp hread
    split at hdone
    · cases hdone
    · next hend =>
      injection hdone with hrs hnext
      subst hrs
      exact ⟨after, htext, hlist, hend, hnext.symm⟩
  · intro hgiven
    obtain ⟨after, htext, hlist, hend, rfl⟩ := hgiven
    refine ⟨rs, after, readRanges_done.mpr ⟨htext, hlist⟩, ?_⟩
    rw [if_neg hend]

/-- A list the parser takes reads as a sentence exactly if nothing is
skipped behind it and each of its ranges is of the grammar. -/
theorem sentence_iff_of_taken {f : Field} {rs : List Range}
    {next : List UInt8} (hlist : ListTaken f rs next) :
    Sentence f ((listText rs ++ next).takeWhile isNonblank)
      ↔ Stops isNonblank next ∧ ∀ r ∈ rs, r.Strict f := by
  have hblank : ∀ c ∈ listText rs, isNonblank c = true :=
    listText_nonblank fun r hr => (hlist.taken r hr).nonblank
  constructor
  · intro hgiven
    obtain ⟨rs', hne', hword, hstrict⟩ := hgiven
    have hsplit := List.takeWhile_append_dropWhile (p := isNonblank)
      (l := listText rs ++ next)
    rw [hword] at hsplit
    have hstop := stops_dropWhile isNonblank (listText rs ++ next)
    have hmore : ((listText rs ++ next).dropWhile isNonblank).head?
        ≠ some comma := by
      intro hc
      exact absurd (hstop comma hc) (by decide)
    obtain ⟨rfl, hnext⟩ := listText_unique
      (fun r hr => (hlist.taken r hr).lexical)
      (fun r hr => (hstrict r hr).lexical) hlist.ne_nil hne'
      (fun r hr => (hlist.ends r hr).follows)
      (fun r _ => r.follows_of_stops hstop) hlist.more hmore hsplit.symm
    rw [← hnext] at hstop
    exact ⟨hstop, hstrict⟩
  · intro hgiven
    obtain ⟨hstop, hstrict⟩ := hgiven
    exact ⟨rs, hlist.ne_nil, takeWhile_run hblank hstop, hstrict⟩

/-- A field is accepted only as a sentence of the grammar, on any stream,
exactly if the parser does not slip on it. -/
theorem getList_accepts_sentences_iff {f : Field} (hf : f ∈ fields)
    (bits : Bitmaps) (file : Stream) :
    ((getList bits f (getChar file).1 (getChar file).2).1 ≠ none →
        Sentence f (file.rest.takeWhile isNonblank))
      ↔ ¬ Slips f file.rest := by
  have hshows := (getList_shows f bits (at_getChar file)).shows
  constructor
  · intro hsound hslips
    obtain ⟨rs, next, htext, hlist, hend, hbad⟩ := hslips
    have hread : readList f file.rest = .done rs (skipField next) :=
      readList_done.mpr ⟨next, htext, hlist, hend, rfl⟩
    rw [hread] at hshows
    obtain ⟨-, hch, -⟩ := hshows
    have hsentence := hsound (by rw [hch]; simpa using hend)
    rw [htext, sentence_iff_of_taken hlist] at hsentence
    rcases hbad with hjunk | ⟨r, hr, hbad⟩
    · exact hjunk hsentence.1
    · have hok := ((hlist.taken r hr).strict_iff hf).mp (hsentence.2 r hr)
      exact hbad.elim hok.1 hok.2
  · intro hnoslip hacc
    cases hread : readList f file.rest with
    | fail left =>
        rw [hread] at hshows
        exact absurd hshows.1 hacc
    | eaten next =>
        rw [hread] at hshows
        exact absurd hshows.1 hacc
    | done rs next' =>
        obtain ⟨next, htext, hlist, hend, -⟩ := readList_done.mp hread
        rw [htext, sentence_iff_of_taken hlist]
        constructor
        · by_contra hjunk
          exact hnoslip ⟨rs, next, htext, hlist, hend, Or.inl hjunk⟩
        · intro r hr
          refine ((hlist.taken r hr).strict_iff hf).mpr ⟨?_, ?_⟩
          · intro hwrap
            exact hnoslip ⟨rs, next, htext, hlist, hend,
              Or.inr ⟨r, hr, Or.inl hwrap⟩⟩
          · intro hover
            exact hnoslip ⟨rs, next, htext, hlist, hend,
              Or.inr ⟨r, hr, Or.inr hover⟩⟩

/-- `*x` is taken for the minutes, as `*`: the parser looks for nothing
behind a `*` but a step or a comma. -/
theorem starx_taken :
    ListTaken minuteField [.star none] (bytes "x 0 * * *") :=
  ⟨by simp,
    fun r hr => by
      rw [List.mem_singleton.mp hr]
      exact ⟨trivial, by decide +kernel⟩,
    fun r hr => by
      injection hr with hr
      rw [← hr]
      refine ⟨by decide, ?_⟩
      show (bytes "x 0 * * *").head? ≠ some slash
      decide,
    by decide⟩

/-- The field `*x` is accepted, and is no sentence. -/
theorem starx_accepted_not_sentence :
    ¬ ((getList .zero minuteField
          (getChar (Stream.ofBytes (bytes "*x 0 * * *"))).1
          (getChar (Stream.ofBytes (bytes "*x 0 * * *"))).2).1 ≠ none →
        Sentence minuteField ((bytes "*x 0 * * *").takeWhile isNonblank)) := by
  intro hsound
  have hsentence := hsound (by decide +kernel)
  have htext : bytes "*x 0 * * *"
      = listText [Range.star none] ++ bytes "x 0 * * *" := by decide
  rw [htext, sentence_iff_of_taken starx_taken] at hsentence
  exact absurd (hsentence.1 120 (by decide)) (by decide)

/-- `5-100/200` is taken for the minutes: 100 is never visited. -/
theorem overshoot_taken :
    ListTaken minuteField
      [.span (.digits (bytes "5")) (.digits (bytes "100"))
        (some (bytes "200"))] (bytes " 0 * * *") :=
  ⟨by simp,
    fun r hr => by
      rw [List.mem_singleton.mp hr]
      exact ⟨⟨by decide, by decide +kernel, by decide⟩,
        ⟨by decide, by decide +kernel, by decide⟩, by decide,
        ⟨⟨by decide, by decide +kernel, by decide⟩, by decide⟩,
        by decide +kernel⟩,
    fun r hr => by
      injection hr with hr
      rw [← hr]
      rfl,
    by decide⟩

/-- The field `5-100/200` is accepted, and is no sentence either. -/
theorem overshoot_accepted_not_sentence :
    ¬ ((getList .zero minuteField
          (getChar (Stream.ofBytes (bytes "5-100/200 0 * * *"))).1
          (getChar (Stream.ofBytes (bytes "5-100/200 0 * * *"))).2).1
          ≠ none →
        Sentence minuteField
          ((bytes "5-100/200 0 * * *").takeWhile isNonblank)) := by
  intro hsound
  refine (getList_accepts_sentences_iff (f := minuteField)
    (by simp [fields]) .zero
    (Stream.ofBytes (bytes "5-100/200 0 * * *"))).mp hsound ?_
  exact ⟨_, _, by decide, overshoot_taken, by decide,
    Or.inr ⟨_, List.mem_singleton_self _, Or.inr (by
      show minuteField.high < Num.value minuteField (.digits (bytes "100"))
      decide)⟩⟩

end Tinjac
