/-
When the parser's arithmetic is exact.

A numeral has as many digits as fit `temp`, and `atoi` makes an `int` of
it: the numeral's value exactly if that is an `int` at all
(`atoi_exact_iff`). The stepping loop adds its step before it looks at
the index again. An index it adds to is in the field, so the sum can
only be too large if the step is, and a step that large is added once,
to the first index (`mem_stepIndices`); `noOverflow_iff` is what follows
for the three numbers of a range.
-/
import Tinjac.Proofs.Strictness

namespace Tinjac

open Span

-- ============================================================ numerals

/-- The terminators `get_range` passes to `get_number`. -/
def numberTerms : List (List UInt8) :=
  [bytes ",- \t\n", bytes "/, \t\n", bytes ", \t\n"]

theorem numberTerms_no_eof : ∀ terms ∈ numberTerms, (255 : UInt8) ∉ terms := by
  decide

/-- **`atoi`** is exact on what an `int` can hold, and on nothing else. -/
theorem atoi_exact_iff (ds : List UInt8) :
    (atoi ds).toInt = digitsValue ds ↔ digitsValue ds < 2 ^ 31 := by
  constructor
  · intro h
    have hlt := Int32.toInt_lt (atoi ds)
    omega
  · exact atoi_toInt

/-- A number that starts with digits is its digits. -/
theorem readNumber_digits {names : Option (List (List UInt8))}
    {terms t next : List UInt8} {x : Num} (hds : t.takeWhile isDigit ≠ [])
    (h : readNumber names terms t = .done x next) :
    x = .digits (t.takeWhile isDigit) := by
  unfold readNumber at h
  dsimp only at h
  split at h
  · cases h
  · split at h
    · injection h with hx _
      exact hx.symm
    · cases h

/-- What `get_number` stores for a numeral it accepts. -/
theorem getNumber_numeral {low : Int32}
    {names : Option (List (List UInt8))} {terms : List UInt8}
    (hterms : terms ∈ numberTerms) {c : UInt8} {file : Stream}
    (haccept : (getNumber low names (some c) file terms).1 ≠ none)
    (hds : (c :: file.rest).takeWhile isDigit ≠ []) :
    (getNumber low names (some c) file terms).2.1
      = atoi ((c :: file.rest).takeWhile isDigit) := by
  have hat : At (some c) file (c :: file.rest) := ⟨rfl, rfl⟩
  have hshows :=
    getNumber_shows low names (numberTerms_no_eof terms hterms) hat
  cases ho : readNumber names terms (c :: file.rest) with
  | done x next =>
      rw [hshows.value x next ho, readNumber_digits hds ho]
      rfl
  | fail left =>
      have hnone := hshows.shows
      rw [ho] at hnone
      exact absurd hnone.1 haccept
  | eaten next =>
      have hnone := hshows.shows
      rw [ho] at hnone
      exact absurd hnone.1 haccept

-- =================================================== the stepping loop

/-- The indices that a stepping loop sets, and then adds its step to. -/
def stepIndices (f : Field) (num2 num3 : Int32) (hstep : num3 ≠ 0)
    (i : Int32) : List Int32 :=
  if _h : i ≤ num2 ∧ ¬ (i < f.low ∨ f.high < i) then
    i :: stepIndices f num2 num3 hstep (i + num3)
  else []
termination_by stepMeasure f num3 i
decreasing_by exact stepMeasure_lt hstep _h.2

/-- They are the indices of the loop. -/
theorem stepLoop_eq_foldl (f : Field) (num2 num3 : Int32)
    (hstep : num3 ≠ 0) (i : Int32) (bits : Bitmaps) :
    (stepLoop f num2 num3 hstep i bits).2
      = (stepIndices f num2 num3 hstep i).foldl
          (fun bits i => bitSet bits f.name (bitIndex (i - f.low))) bits := by
  fun_induction stepIndices f num2 num3 hstep i generalizing bits with
  | case1 i h ih =>
      rw [stepLoop_in h.1 h.2, List.foldl_cons, ih]
  | case2 i h =>
      rw [List.foldl_nil]
      by_cases hle : i ≤ num2
      · have hout : i < f.low ∨ f.high < i := by
          by_contra hin
          exact h ⟨hle, hin⟩
        rw [stepLoop_out hle hout]
      · rw [stepLoop_end hle]

/-- No addition of the loop leaves the range of `int`. -/
def NoOverflow (f : Field) (num1 num2 num3 : Int32) (hstep : num3 ≠ 0) :
    Prop :=
  ∀ i ∈ stepIndices f num2 num3 hstep num1,
    -2 ^ 31 ≤ i.toInt + num3.toInt ∧ i.toInt + num3.toInt < 2 ^ 31

/-- The index is one of the field's. -/
def InField (f : Field) (i : Int32) : Prop :=
  f.low.toInt ≤ i.toInt ∧ i.toInt ≤ f.high.toInt

theorem inField_iff {f : Field} {i : Int32} :
    InField f i ↔ ¬ (i < f.low ∨ f.high < i) := by
  unfold InField
  rw [Int32.lt_iff_toInt_lt, Int32.lt_iff_toInt_lt]
  omega

/-- Every index is in the field, and but for the first one it was
reached by a step that is no larger than the field. -/
theorem mem_stepIndices {f : Field} (hf : f ∈ fields)
    {num2 num3 first i : Int32} {hstep : num3 ≠ 0}
    (h : i ∈ stepIndices f num2 num3 hstep first) :
    InField f i ∧ (i = first ∨ num3.toInt ≤ f.high.toInt) := by
  obtain ⟨hlow0, hlow1, hhigh59, -⟩ := names_bound f hf
  fun_induction stepIndices f num2 num3 hstep first with
  | case1 first hgo ih =>
      have hfirst : InField f first := inField_iff.mpr hgo.2
      rcases List.mem_cons.mp h with rfl | hmem
      · exact ⟨hfirst, Or.inl rfl⟩
      · obtain ⟨hi, hreached⟩ := ih hmem
        refine ⟨hi, Or.inr ?_⟩
        rcases hreached with rfl | hsmall
        · -- a sum that wrapped would be negative
          have hadd := Int32.toInt_add first num3
          have hmod := Int.bmod_eq_emod (first.toInt + num3.toInt) (2 ^ 32)
          have hlt := Int32.toInt_lt num3
          have hle := Int32.le_toInt num3
          obtain ⟨hi1, hi2⟩ := hi
          obtain ⟨hfirst1, hfirst2⟩ := hfirst
          split at hmod
          · omega
          · omega
        · exact hsmall
  | case2 first hstop => cases h

/-- **Overflow.** Only a step that is added to the first index can be too
large. -/
theorem noOverflow_iff {f : Field} (hf : f ∈ fields) (num1 num2 : Int32)
    {num3 : Int32} (hstep : num3 ≠ 0) :
    NoOverflow f num1 num2 num3 hstep
      ↔ ¬ (num1 ≤ num2 ∧ InField f num1
          ∧ 2 ^ 31 ≤ num1.toInt + num3.toInt) := by
  obtain ⟨hlow0, hlow1, hhigh59, -⟩ := names_bound f hf
  constructor
  · intro hno ⟨hle, hin, hlarge⟩
    have hmem : num1 ∈ stepIndices f num2 num3 hstep num1 := by
      rw [stepIndices, dif_pos ⟨hle, inField_iff.mp hin⟩]
      exact List.mem_cons_self
    have hbound := (hno num1 hmem).2
    omega
  · intro hcond i hi
    obtain ⟨hin, hreached⟩ := mem_stepIndices hf hi
    have hle := Int32.le_toInt num3
    obtain ⟨hin1, hin2⟩ := hin
    refine ⟨by omega, ?_⟩
    rcases hreached with rfl | hsmall
    · by_contra hlarge
      refine hcond ⟨?_, ⟨hin1, hin2⟩, by omega⟩
      rw [stepIndices] at hi
      split at hi
      · next hgo => exact hgo.1
      · cases hi
    · omega

-- ======================================================= both together

/-- **The numbers of a field.** A numeral that is accepted is stored as
its value iff that is an `int`. The stepping loop sets the elements of
`stepIndices`, and what it adds to these stays inside the `int`s iff its
first sum does, if it is taken at all. -/
theorem numbers_exact_iff {f : Field} (hf : f ∈ fields) :
    (∀ (low : Int32) (names : Option (List (List UInt8))),
      ∀ terms ∈ numberTerms, ∀ (c : UInt8) (file : Stream),
      (getNumber low names (some c) file terms).1 ≠ none →
      (c :: file.rest).takeWhile isDigit ≠ [] →
      ((getNumber low names (some c) file terms).2.1.toInt
          = digitsValue ((c :: file.rest).takeWhile isDigit)
        ↔ digitsValue ((c :: file.rest).takeWhile isDigit) < 2 ^ 31))
      ∧ ∀ (num1 num2 num3 : Int32) (hstep : num3 ≠ 0),
        (∀ bits : Bitmaps, (stepLoop f num2 num3 hstep num1 bits).2
          = (stepIndices f num2 num3 hstep num1).foldl
              (fun bits i => bitSet bits f.name (bitIndex (i - f.low))) bits)
        ∧ (NoOverflow f num1 num2 num3 hstep
          ↔ ¬ (num1 ≤ num2 ∧ InField f num1
            ∧ 2 ^ 31 ≤ num1.toInt + num3.toInt)) := by
  refine ⟨?_, fun num1 num2 num3 hstep =>
    ⟨stepLoop_eq_foldl f num2 num3 hstep num1,
      noOverflow_iff hf num1 num2 hstep⟩⟩
  intro low names terms hterms c file haccept hds
  rw [getNumber_numeral hterms haccept hds]
  exact atoi_exact_iff _

/-- The minutes, on a numeral of one digit and a step of one. -/
theorem minute_numbers_exact :
    (getNumber minuteField.low minuteField.names (some 53)
        (Stream.ofBytes (bytes " ")) (bytes ",- \t\n")).2.1.toInt = 5
      ∧ NoOverflow minuteField 1 5 1 (by decide) := by
  obtain ⟨hnumeral, hstep⟩ := numbers_exact_iff (f := minuteField)
    (by simp [fields])
  constructor
  · have hexact := hnumeral minuteField.low minuteField.names
      (bytes ",- \t\n") (by decide) 53 (Stream.ofBytes (bytes " "))
      (by decide +kernel) (by decide +kernel)
    rw [hexact.mpr (by decide +kernel)]
    decide +kernel
  · rw [(hstep 1 5 1 (by decide)).2]
    unfold InField
    decide

/-- `4294967301` is accepted as 5, and `1-5/2147483647` adds beyond the
largest `int`. -/
theorem large_numbers_wrap :
    ((getNumber minuteField.low minuteField.names (some 52)
        (Stream.ofBytes (bytes "294967301 ")) (bytes ",- \t\n")).1
        = some space
      ∧ (getNumber minuteField.low minuteField.names (some 52)
        (Stream.ofBytes (bytes "294967301 ")) (bytes ",- \t\n")).2.1
        = 5
      ∧ digitsValue (bytes "4294967301") = 4294967301)
    ∧ atoi (bytes "2147483647") = 2147483647
    ∧ ¬ NoOverflow minuteField 1 5 2147483647 (by decide) := by
  refine ⟨by decide +kernel, by decide +kernel, ?_⟩
  intro hno
  have hmem : (1 : Int32)
      ∈ stepIndices minuteField 5 2147483647 (by decide) 1 := by
    rw [stepIndices, dif_pos (by decide)]
    exact List.mem_cons_self
  exact absurd (hno 1 hmem).2 (by decide)

end Tinjac
