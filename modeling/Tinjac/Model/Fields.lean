/-
The schedule parser of `src/crontabs.cpp`: `get_number`, `set_element`,
`get_range`, `get_list`, with the skip macros of `include/macros.h`, and
`get_string` and `skip_comments`.

# Shape

Each function takes the lookahead `ch` its caller read and returns the
next one, `none` for `EOF`; `get_number`, `get_range` and `get_list`
also return `EOF` to reject. A `goto bad` is the call of `ungetChar`
that follows the label. Loops recurse on the length of the text from the
lookahead on.

# Fields

A field's bitmap, `low`, `high` and `names`, which the source passes
side by side, are one `Field` here, whose `low` is not negative. That is
what bounds the stepping loop of `get_range`: its `int` index leaves
`low..high` or moves towards one end of it.
-/
import Tinjac.Model.Stream
import Tinjac.Model.Bitstring

namespace Tinjac

-- ===================================================== the skip macros

/-- `while (p(ch)) ch = get_char(file);` for a condition that fails on
`EOF`: `Skip_Blanks`, `Skip_Nonblanks` and the inner loops of
`skip_comments`. -/
def skipWhile (p : UInt8 → Bool) (ch : Option UInt8) (file : Stream) :
    Option UInt8 × Stream :=
  match ch with
  | none => (none, file)
  | some c =>
      if p c then skipWhile p (getChar file).1 (getChar file).2
      else (some c, file)
termination_by (text ch file).length
decreasing_by exact text_getChar_lt c file

def isBlank (c : UInt8) : Bool := c == tab || c == space

/-- `Skip_Blanks`. -/
def skipBlanks (ch : Option UInt8) (file : Stream) :
    Option UInt8 × Stream :=
  skipWhile isBlank ch file

/-- `Skip_Nonblanks`. -/
def skipNonblanks (ch : Option UInt8) (file : Stream) :
    Option UInt8 × Stream :=
  skipWhile (fun c => c != tab && c != space && c != newline) ch file

-- ========================================================== get_string

/-- `get_string`, after `string` has moved past `buf` and with `size`
counted down: returns the bytes stored, before the NUL that follows
them. -/
def getStringLoop (buf : List UInt8) (size : Nat) (file : Stream)
    (terms : List UInt8) : List UInt8 × Option UInt8 × Stream :=
  match h : file.rest with
  | [] => (buf, (getChar file).1, (getChar file).2)
  | ch :: _ =>
      if strchr terms (some ch) then
        (buf, (getChar file).1, (getChar file).2)
      else if 1 < size then
        getStringLoop (buf ++ [ch]) (size - 1) (getChar file).2 terms
      else
        getStringLoop buf size (getChar file).2 terms
termination_by file.rest.length
decreasing_by all_goals simp [h]

/-- `get_string`. -/
def getString (size : Nat) (file : Stream) (terms : List UInt8) :
    List UInt8 × Option UInt8 × Stream :=
  getStringLoop [] size file terms

/-- A skip loop only reads. -/
theorem skipWhile_rest_le (p : UInt8 → Bool) (ch : Option UInt8)
    (file : Stream) :
    (skipWhile p ch file).2.rest.length ≤ file.rest.length := by
  fun_induction skipWhile p ch file with
  | case1 => exact Nat.le_refl _
  | case2 file c _ ih =>
      refine Nat.le_trans ih ?_
      simp
  | case3 => exact Nat.le_refl _

-- ======================================================= skip_comments

/-- A character that was read was there. -/
theorem rest_length_of_getChar {file : Stream} {c : UInt8}
    (h : (getChar file).1 = some c) :
    file.rest.length = (getChar file).2.rest.length + 1 := by
  rw [getChar_fst] at h
  rw [getChar_rest]
  cases hr : file.rest with
  | nil => rw [hr] at h; cases h
  | cons a l => simp

/-- The loop of `skip_comments`: it ends at the first line whose first
non-blank character is neither a newline nor `#`, with that character
read. -/
def skipCommentsLoop (file : Stream) : Option UInt8 × Stream :=
  match _h : (getChar file).1 with
  | none => getChar file
  | some _ =>
      let r := skipBlanks (getChar file).1 (getChar file).2
      if r.1 = none then r
      else if r.1 ≠ some newline ∧ r.1 ≠ some hash then r
      else
        skipCommentsLoop (skipWhile (fun c => c != newline) r.1 r.2).2
termination_by file.rest.length
decreasing_by
  have h0 := rest_length_of_getChar _h
  have h1 := Nat.le_trans
    (skipWhile_rest_le (fun c => c != newline) r.1 r.2)
    (skipWhile_rest_le isBlank (getChar file).1 (getChar file).2)
  exact Nat.lt_of_le_of_lt h1 (by omega)

/-- `skip_comments`. -/
def skipComments (file : Stream) : Stream :=
  let r := skipCommentsLoop file
  if r.1 ≠ none then ungetChar r.1 r.2 else r.2

-- ========================================================== get_number

/-- One collecting loop of `get_number`: `while (p(ch)) { if (++len >=
MAX_TEMPSTR) goto bad; *pc++ = ch; ch = get_char(file); }`, where `temp`
holds the bytes stored so far, so that `len` is its length. The first
component says that it left through `bad`. `EOF` stops it: 255 is
neither a digit nor a letter. -/
def getTemp (p : UInt8 → Bool) (temp : List UInt8) (ch : Option UInt8)
    (file : Stream) : Bool × List UInt8 × Option UInt8 × Stream :=
  match ch with
  | none => (false, temp, none, file)
  | some c =>
      if p c then
        if maxTempstr ≤ temp.length + 1 then (true, temp, some c, file)
        else getTemp p (temp ++ [c]) (getChar file).1 (getChar file).2
      else (false, temp, some c, file)
termination_by (text ch file).length
decreasing_by exact text_getChar_lt c file

/-- The search of `get_number` through the names: the first one that is
`temp` in any letter case. -/
def nameIndex (names : List (List UInt8)) (temp : List UInt8) :
    Option Nat :=
  names.findIdx? fun name => strcaseEq name temp

/-- The label `bad` of `get_number`. -/
def getNumberBad (ch : Option UInt8) (file : Stream) :
    Option UInt8 × Int32 × Stream :=
  (none, 0, ungetChar ch file)

/-- `get_number`: the character returned, the number stored through
`numptr` (no caller reads it after `EOF`), and the stream. -/
def getNumber (low : Int32) (names : Option (List (List UInt8)))
    (ch : Option UInt8) (file : Stream) (terms : List UInt8) :
    Option UInt8 × Int32 × Stream :=
  match getTemp isDigit [] ch file with
  | (true, _, ch, file) => getNumberBad ch file
  | (false, temp, ch, file) =>
      if temp.length ≠ 0 then
        -- got a number, check for valid terminator
        if strchr terms ch then (ch, atoi temp, file)
        else getNumberBad ch file
      else
        -- no numbers, look for a string if we have any
        match names with
        | none => getNumberBad ch file
        | some names =>
            match getTemp isAlpha temp ch file with
            | (true, _, ch, file) => getNumberBad ch file
            | (false, temp, ch, file) =>
                if temp.length ≠ 0 ∧ strchr terms ch then
                  match nameIndex names temp with
                  | some i => (ch, Int32.ofNat i + low, file)
                  | none => getNumberBad ch file
                else getNumberBad ch file

-- ============================================= set_element, the fields

/-- A field of an entry: its bitmap's byte offset, the bounds and the
names that `load_entry` passes with it. -/
structure Field where
  name : Nat
  low : Int32
  high : Int32
  names : Option (List (List UInt8))
  low_nonneg : 0 ≤ low.toInt

/-- `bitstr_size`. -/
def bitstrSize (nbits : Nat) : Nat := ((nbits - 1) >>> 3) + 1

/-- `e->minute`. -/
def minuteField : Field :=
  { name := 0, low := firstMinute, high := lastMinute, names := none,
    low_nonneg := by decide }

/-- `e->hour`. -/
def hourField : Field :=
  { name := minuteField.name + bitstrSize minuteCount
    low := firstHour, high := lastHour, names := none,
    low_nonneg := by decide }

/-- `e->dom`. -/
def domField : Field :=
  { name := hourField.name + bitstrSize hourCount
    low := firstDom, high := lastDom, names := none,
    low_nonneg := by decide }

/-- `e->month`. -/
def monthField : Field :=
  { name := domField.name + bitstrSize domCount
    low := firstMonth, high := lastMonth, names := some monthNames,
    low_nonneg := by decide }

/-- `e->dow`. -/
def dowField : Field :=
  { name := monthField.name + bitstrSize monthCount
    low := firstDow, high := lastDow, names := some dowNames,
    low_nonneg := by decide }

/-- The five fields. -/
def fields : List Field :=
  [minuteField, hourField, domField, monthField, dowField]

theorem forall_fields {P : Field → Prop} :
    (∀ f ∈ fields, P f) ↔ P minuteField ∧ P hourField ∧ P domField
      ∧ P monthField ∧ P dowField := by
  simp [fields]

/-- An `int` difference or sum used as a bit index. -/
def bitIndex (i : Int32) : Nat := i.toInt.toNat

/-- `set_element`: `none` for `EOF`. -/
def setElement (bits : Bitmaps) (f : Field) (number : Int32) :
    Option Bitmaps :=
  if number < f.low ∨ f.high < number then none
  else some (bitSet bits f.name (bitIndex (number - f.low)))

-- =========================================================== get_range

/-- What is left of a stepping loop at index `i`: nothing once the index
is outside the field, where `set_element` ends the loop. -/
def stepMeasure (f : Field) (step i : Int32) : Nat :=
  if i < f.low ∨ f.high < i then 0
  else if 0 < step then (f.high.toInt - i.toInt).toNat + 1
  else (i.toInt - f.low.toInt).toNat + 1

/-- One step of the stepping loop, taken in wrapping arithmetic, makes
progress. -/
theorem stepMeasure_lt {f : Field} {step i : Int32} (hstep : step ≠ 0)
    (hin : ¬ (i < f.low ∨ f.high < i)) :
    stepMeasure f step (i + step) < stepMeasure f step i := by
  have hlow := f.low_nonneg
  have hi := Int32.toInt_lt i
  have hs := Int32.toInt_lt step
  have hs' := Int32.le_toInt step
  have hs0 : step.toInt ≠ 0 := fun h =>
    hstep (Int32.toInt_inj.mp (by simpa using h))
  have hadd := Int32.toInt_add i step
  have hb := Int.bmod_eq_emod (i.toInt + step.toInt) (2 ^ 32)
  simp only [stepMeasure, Int32.lt_iff_toInt_lt, Int32.toInt_zero] at hin ⊢
  rw [if_neg hin]
  rw [not_or] at hin
  split
  · split <;> omega
  · rename_i hin'
    rw [not_or] at hin'
    split <;> split at hb <;> omega

/-- What `set_element` accepts, and what it then does. -/
theorem setElement_eq_some {bits bits' : Bitmaps} {f : Field} {i : Int32}
    (h : setElement bits f i = some bits') :
    ¬ (i < f.low ∨ f.high < i)
      ∧ bits' = bitSet bits f.name (bitIndex (i - f.low)) := by
  unfold setElement at h
  split at h
  · cases h
  · injection h with h
    exact ⟨‹_›, h.symm⟩

/-- `for (i = num1; i <= num2; i += num3)` over `set_element`, from index
`i`: whether the loop ran to its end, and the bitmaps. -/
def stepLoop (f : Field) (num2 num3 : Int32) (hstep : num3 ≠ 0)
    (i : Int32) (bits : Bitmaps) : Bool × Bitmaps :=
  if i ≤ num2 then
    match _h : setElement bits f i with
    | none => (false, bits)
    | some bits => stepLoop f num2 num3 hstep (i + num3) bits
  else (true, bits)
termination_by stepMeasure f num3 i
decreasing_by exact stepMeasure_lt hstep (setElement_eq_some _h).1

theorem setElement_in {f : Field} {i : Int32} (bits : Bitmaps)
    (hin : ¬ (i < f.low ∨ f.high < i)) :
    setElement bits f i
      = some (bitSet bits f.name (bitIndex (i - f.low))) := by
  unfold setElement
  rw [if_neg hin]

theorem setElement_out {f : Field} {i : Int32} (bits : Bitmaps)
    (hout : i < f.low ∨ f.high < i) : setElement bits f i = none := by
  unfold setElement
  rw [if_pos hout]

/-- The stepping loop at an index it sets. -/
theorem stepLoop_in {f : Field} {num2 num3 : Int32} {hstep : num3 ≠ 0}
    {i : Int32} {bits : Bitmaps} (hle : i ≤ num2)
    (hin : ¬ (i < f.low ∨ f.high < i)) :
    stepLoop f num2 num3 hstep i bits
      = stepLoop f num2 num3 hstep (i + num3)
          (bitSet bits f.name (bitIndex (i - f.low))) := by
  rw [stepLoop, if_pos hle]
  split
  · rename_i hset
    rw [setElement_in bits hin] at hset
    cases hset
  · rename_i bits' hset
    rw [setElement_in bits hin] at hset
    injection hset with hset
    rw [hset]

/-- The stepping loop at an index outside the field. -/
theorem stepLoop_out {f : Field} {num2 num3 : Int32} {hstep : num3 ≠ 0}
    {i : Int32} {bits : Bitmaps} (hle : i ≤ num2)
    (hout : i < f.low ∨ f.high < i) :
    stepLoop f num2 num3 hstep i bits = (false, bits) := by
  rw [stepLoop, if_pos hle]
  split
  · rfl
  · rename_i hset
    rw [setElement_out bits hout] at hset
    cases hset

/-- The stepping loop past its last index. -/
theorem stepLoop_end {f : Field} {num2 num3 : Int32} {hstep : num3 ≠ 0}
    {i : Int32} {bits : Bitmaps} (hle : ¬ i ≤ num2) :
    stepLoop f num2 num3 hstep i bits = (true, bits) := by
  rw [stepLoop, if_neg hle]

/-- The end of `get_range`: set all elements from `num1` to `num2`. -/
def setRange (bits : Bitmaps) (f : Field) (num1 num2 num3 : Int32)
    (hstep : num3 ≠ 0) (ch : Option UInt8) (file : Stream) :
    Option UInt8 × Bitmaps × Stream :=
  match stepLoop f num2 num3 hstep num1 bits with
  | (true, bits) => (ch, bits, file)
  | (false, bits) => (none, bits, ungetChar ch file)

/-- `get_range` from the check for a step size on. -/
def getStep (bits : Bitmaps) (f : Field) (num1 num2 : Int32)
    (ch : Option UInt8) (file : Stream) :
    Option UInt8 × Bitmaps × Stream :=
  if ch = some slash then
    -- eat the slash
    let (ch, file) := getChar file
    if ch = none then (none, bits, file)
    else
      let (ch, num3, file) := getNumber 0 none ch file (bytes ", \t\n")
      if h : ch = none ∨ num3 = 0 then (none, bits, file)
      else
        setRange bits f num1 num2 num3 (fun h3 => h (Or.inr h3)) ch file
  else setRange bits f num1 num2 1 (by decide) ch file

/-- `get_range`. -/
def getRange (bits : Bitmaps) (f : Field) (ch : Option UInt8)
    (file : Stream) : Option UInt8 × Bitmaps × Stream :=
  if ch = some star then
    let (ch, file) := getChar file
    if ch = none then (none, bits, file)
    else getStep bits f f.low f.high ch file
  else
    let (ch, num1, file) := getNumber f.low f.names ch file (bytes ",- \t\n")
    if ch = none then (none, bits, file)
    else if ch ≠ some dash then
      -- not a range, it's a single number
      match setElement bits f num1 with
      | none => (none, bits, ungetChar ch file)
      | some bits => (ch, bits, file)
    else
      -- eat the dash
      let (ch, file) := getChar file
      if ch = none then (none, bits, file)
      else
        let (ch, num2, file) :=
          getNumber f.low f.names ch file (bytes "/, \t\n")
        if ch = none ∨ num2 < num1 then (none, bits, file)
        else getStep bits f num1 num2 ch file

-- ================================================== no text is made up

theorem getTemp_text_le (p : UInt8 → Bool) (temp : List UInt8)
    (ch : Option UInt8) (file : Stream) :
    (text (getTemp p temp ch file).2.2.1
        (getTemp p temp ch file).2.2.2).length
      ≤ (text ch file).length := by
  fun_induction getTemp p temp ch file with
  | case1 => exact Nat.le_refl _
  | case2 => exact Nat.le_refl _
  | case3 temp file c _ _ ih =>
      exact Nat.le_trans ih (Nat.le_of_lt (text_getChar_lt c file))
  | case4 => exact Nat.le_refl _

/-- The rejecting exit of `get_number` gives its lookahead back. -/
theorem getNumberBad_text (ch : Option UInt8) (file : Stream) :
    text (getNumberBad ch file).1 (getNumberBad ch file).2.2
      = text ch file := by
  simp [getNumberBad]

theorem getNumber_text_le (low : Int32)
    (names : Option (List (List UInt8))) (ch : Option UInt8)
    (file : Stream) (terms : List UInt8) :
    (text (getNumber low names ch file terms).1
        (getNumber low names ch file terms).2.2).length
      ≤ (text ch file).length := by
  have hdigits := getTemp_text_le isDigit [] ch file
  unfold getNumber
  split
  · next hd =>
    rw [hd] at hdigits
    rw [getNumberBad_text]
    exact hdigits
  · next temp ch' file' hd =>
    rw [hd] at hdigits
    split
    · split
      · exact hdigits
      · rw [getNumberBad_text]
        exact hdigits
    · split
      · rw [getNumberBad_text]
        exact hdigits
      · have hletters := getTemp_text_le isAlpha temp ch' file'
        split
        · next hl =>
          rw [hl] at hletters
          rw [getNumberBad_text]
          exact Nat.le_trans hletters hdigits
        · next hl =>
          rw [hl] at hletters
          split
          · split
            · exact Nat.le_trans hletters hdigits
            · rw [getNumberBad_text]
              exact Nat.le_trans hletters hdigits
          · rw [getNumberBad_text]
            exact Nat.le_trans hletters hdigits

theorem setRange_text (bits : Bitmaps) (f : Field)
    (num1 num2 num3 : Int32) (hstep : num3 ≠ 0) (ch : Option UInt8)
    (file : Stream) :
    text (setRange bits f num1 num2 num3 hstep ch file).1
        (setRange bits f num1 num2 num3 hstep ch file).2.2
      = text ch file := by
  unfold setRange
  split <;> simp

/-- A stream's own rest is no longer than its text. -/
theorem rest_le_text (ch : Option UInt8) (file : Stream) :
    file.rest.length ≤ (text ch file).length := by
  cases ch <;> simp

/-- The text after a read is the stream's rest. -/
theorem text_getChar (file : Stream) :
    text (getChar file).1 (getChar file).2 = file.rest := by
  rw [getChar_fst, text_head_tail file _ (getChar_rest file)]

theorem getStep_text_le (bits : Bitmaps) (f : Field)
    (num1 num2 : Int32) (ch : Option UInt8) (file : Stream) :
    (text (getStep bits f num1 num2 ch file).1
        (getStep bits f num1 num2 ch file).2.2).length
      ≤ (text ch file).length := by
  have hget := text_getChar file
  have hrest := rest_le_text ch file
  unfold getStep
  split
  · dsimp only
    split
    · simp only [text_none, getChar_rest, List.length_tail]
      omega
    · have hnum := getNumber_text_le 0 none (getChar file).1
        (getChar file).2 (bytes ", \t\n")
      rw [hget] at hnum
      split
      · exact Nat.le_trans (rest_le_text _ _) (Nat.le_trans hnum hrest)
      · rw [setRange_text]
        exact Nat.le_trans hnum hrest
  · refine Nat.le_of_eq ?_
    rw [setRange_text]

/-- Whatever `get_range` returns, the text from its lookahead on is no
longer than the text it was given. -/
theorem getRange_text_le (bits : Bitmaps) (f : Field)
    (ch : Option UInt8) (file : Stream) :
    (text (getRange bits f ch file).1
        (getRange bits f ch file).2.2).length
      ≤ (text ch file).length := by
  have hget := text_getChar file
  have hrest := rest_le_text ch file
  have hnum := getNumber_text_le f.low f.names ch file (bytes ",- \t\n")
  unfold getRange
  split
  · dsimp only
    split
    · simp only [text_none, getChar_rest, List.length_tail]
      omega
    · refine Nat.le_trans (getStep_text_le ..) ?_
      rw [hget]
      exact hrest
  · generalize getNumber f.low f.names ch file (bytes ",- \t\n") = r at hnum
    obtain ⟨ch1, num1, file1⟩ := r
    have hrest1 := rest_le_text ch1 file1
    dsimp only at hnum ⊢
    split
    · exact Nat.le_trans hrest1 hnum
    · split
      · split
        · simpa using hnum
        · exact hnum
      · split
        · simp only [text_none, getChar_rest, List.length_tail]
          omega
        · have hnum2 := getNumber_text_le f.low f.names (getChar file1).1
            (getChar file1).2 (bytes "/, \t\n")
          rw [text_getChar] at hnum2
          split
          · exact Nat.le_trans (rest_le_text _ _)
              (Nat.le_trans hnum2 (Nat.le_trans hrest1 hnum))
          · exact Nat.le_trans (getStep_text_le ..)
              (Nat.le_trans hnum2 (Nat.le_trans hrest1 hnum))

-- ============================================================ get_list

/-- The loop of `get_list`: `range {"," range}`. -/
def getListLoop (bits : Bitmaps) (f : Field) (ch : Option UInt8)
    (file : Stream) : Option UInt8 × Bitmaps × Stream :=
  let r := getRange bits f ch file
  if r.1 = none then r
  else if _h : r.1 = some comma then
    getListLoop r.2.1 f (getChar r.2.2).1 (getChar r.2.2).2
  else r
termination_by (text ch file).length
decreasing_by
  have h1 := text_getChar_lt comma r.2.2
  rw [← _h] at h1
  exact Nat.lt_of_lt_of_le h1 (getRange_text_le bits f ch file)

/-- `get_list`. -/
def getList (bits : Bitmaps) (f : Field) (ch : Option UInt8)
    (file : Stream) : Option UInt8 × Bitmaps × Stream :=
  -- clear the bit string, since the default is 'off'
  let bits := bitNclear bits f.name 0 (bitIndex (f.high - f.low + 1))
  let (ch, bits, file) := getListLoop bits f ch file
  if ch = none then (none, bits, file)
  else
    let (ch, file) := skipNonblanks ch file
    let (ch, file) := skipBlanks ch file
    (ch, bits, file)

end Tinjac
