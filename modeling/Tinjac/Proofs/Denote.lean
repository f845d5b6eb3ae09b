/-
What the parser makes of the lists of the grammar.

A range of the grammar whose numerals have at most nine digits is taken
(`Range.taken_of_strict`): its ends and its step are the `int`s they
mean, and the stepping loop, which adds them, does not wrap. The bits
that loop sets are those of the values the range denotes
(`stepLoop_spec`, `Range.apply_spec`), so a field that was cleared and
filled from a list holds the values of the list and no others, and no
other field's bits were touched (`fillField_own`, `fillField_other`).
-/
import Tinjac.Proofs.Bitstring
import Tinjac.Proofs.Locality

namespace Tinjac

open Span Progression

-- ============================================================ numerals

/-- A run of digits is smaller than the power of ten that it has not
reached. -/
theorem digitsValue_lt_aux (ds : List UInt8)
    (hds : ∀ c ∈ ds, isDigit c = true) (n : Nat) :
    ds.foldl (fun n d => 10 * n + (d.toNat - 48)) n
      < (n + 1) * 10 ^ ds.length := by
  induction ds generalizing n with
  | nil => simp
  | cons c ds ih =>
      have hc : c.toNat ≤ 57 := by
        have hdigit := hds c List.mem_cons_self
        simp only [isDigit, Bool.and_eq_true, decide_eq_true_eq,
          UInt8.le_iff_toNat_le, UInt8.reduceToNat] at hdigit
        omega
      rw [List.foldl_cons, List.length_cons]
      refine Nat.lt_of_lt_of_le
        (ih (fun b hb => hds b (List.mem_cons_of_mem c hb)) _) ?_
      calc (10 * n + (c.toNat - 48) + 1) * 10 ^ ds.length
          ≤ (10 * (n + 1)) * 10 ^ ds.length :=
            Nat.mul_le_mul_right _ (by omega)
        _ = (n + 1) * 10 ^ (ds.length + 1) := by
            rw [Nat.pow_succ]
            ring

/-- Nine digits stay below a thousand million. -/
theorem digitsValue_lt {ds : List UInt8}
    (hds : ∀ c ∈ ds, isDigit c = true) (hshort : ds.length ≤ 9) :
    digitsValue ds < 10 ^ 9 := by
  have hlt := digitsValue_lt_aux ds hds 0
  have hpow : 10 ^ ds.length ≤ 10 ^ 9 := Nat.pow_le_pow_right (by omega) hshort
  unfold digitsValue
  omega

/-- The names of the tables have three letters. -/
theorem names_length : ∀ f ∈ fields, ∀ n ∈ f.names.getD [], n.length = 3 := by
  decide

/-- The names of months and weekdays have three letters. -/
theorem name_length {f : Field} (hf : f ∈ fields)
    {ns : List (List UInt8)} {ls : List UInt8} (hns : f.names = some ns)
    (hknown : (nameIndex ns ls).isSome = true) : ls.length = 3 := by
  obtain ⟨i, hi⟩ := Option.isSome_iff_exists.mp hknown
  unfold nameIndex at hi
  obtain ⟨hlt, hsame, -⟩ := List.findIdx?_eq_some_iff_getElem.mp hi
  have hlen := names_length f hf ns[i] (by
    rw [hns]
    exact List.getElem_mem hlt)
  have hmap : ns[i].map toLower = ls.map toLower := by
    simpa [strcaseEq] using hsame
  have hlength := congrArg List.length hmap
  rw [List.length_map, List.length_map] at hlength
  omega

/-- No field is empty: its first value is not behind its last. -/
theorem low_le_high : ∀ f ∈ fields, f.low.toInt ≤ f.high.toInt := by
  decide

/-- A number of the grammar fits the scanner's buffer. -/
theorem Num.Strict.scanned {f : Field} (hf : f ∈ fields) {x : Num}
    (hx : x.Strict f) (hshort : x.Short) : x.Scanned f.names := by
  have hlex := hx.lexical
  cases x with
  | digits ds =>
      refine ⟨hlex.1, hlex.2, ?_⟩
      have hlen : ds.length ≤ 9 := hshort
      unfold maxTempstr
      omega
  | name ls =>
      obtain ⟨⟨hne, hletters⟩, ns, hns, hknown⟩ := hlex
      refine ⟨⟨hne, hletters, ?_⟩, ns, hns, hknown⟩
      rw [name_length hf hns hknown]
      decide

/-- A number of the grammar is stored as what it means, if it is short. -/
theorem Num.Strict.value_toInt {f : Field} (hf : f ∈ fields) {x : Num}
    (hx : x.Strict f) (hshort : x.Short) :
    (x.value f).toInt = x.meaning f :=
  Tinjac.value_toInt hf (hx.scanned hf hshort) (hx.not_wraps hf)

-- =============================================================== steps

/-- A step the stepping loop adds without wrapping: it is positive, and
small beside the largest `int`. -/
structure SmallStep (num3 : Int32) : Prop where
  pos : 1 ≤ num3.toInt
  small : num3.toInt < 10 ^ 9

/-- A step is not 0. -/
theorem SmallStep.ne_zero {num3 : Int32} (h : SmallStep num3) :
    num3 ≠ 0 := by
  intro hzero
  have hpos := h.pos
  rw [hzero] at hpos
  exact absurd hpos (by decide)

/-- A step of the grammar is stored as what it means. -/
theorem StepStrict.stepValue_toInt {step : Option (List UInt8)}
    (hstep : StepStrict step) (hshort : StepShort step) :
    (stepValue step).toInt = stepMeaning step := by
  cases step with
  | none => rfl
  | some n =>
      refine atoi_toInt ?_
      have hlt := digitsValue_lt hstep.1.2 hshort
      omega

/-- And is a small one, so that the loop's sums stay `int`s. -/
theorem StepStrict.small {step : Option (List UInt8)}
    (hstep : StepStrict step) (hshort : StepShort step) :
    SmallStep (stepValue step) := by
  have hvalue := hstep.stepValue_toInt hshort
  cases step with
  | none => exact ⟨by decide, by decide⟩
  | some n =>
      have hlt := digitsValue_lt hstep.1.2 hshort
      have hpos : 1 ≤ digitsValue n := hstep.2
      have hmeaning : stepMeaning (some n) = digitsValue n := rfl
      rw [hmeaning] at hvalue
      exact ⟨by omega, by omega⟩

/-- A step of the grammar is one that `get_range` accepts. -/
theorem StepStrict.taken {step : Option (List UInt8)}
    (hstep : StepStrict step) (hshort : StepShort step) :
    StepTaken step := by
  cases step with
  | none => trivial
  | some n =>
      refine ⟨⟨hstep.1.1, hstep.1.2, ?_⟩, (hstep.small hshort).ne_zero⟩
      have hlen : n.length ≤ 9 := hshort
      unfold maxTempstr
      omega

-- =================================================== the stepping loop

/-- The bit of a value of a field. -/
def Field.pos (f : Field) (v : Int) : Nat :=
  8 * f.name + (v - f.low.toInt).toNat

/-- Every bit of the bitmaps is set iff it was before, or stands for one
of these values of the field. -/
def Sets (f : Field) (S : Int → Prop) (bits bits' : Bitmaps) : Prop :=
  ∀ p, bits'.bit p = true
    ↔ bits.bit p = true ∨ ∃ v, S v ∧ p = f.pos v

/-- An `int` sum that stays small is the sum. -/
theorem toInt_add_small {a b : Int32} (h0 : 0 ≤ a.toInt + b.toInt)
    (hlt : a.toInt + b.toInt < 2 ^ 31) :
    (a + b).toInt = a.toInt + b.toInt := by
  rw [Int32.toInt_add]
  exact Int.bmod_eq_of_le_mul_two (by omega) (by omega)

/-- Subtraction of `int`s is exact where the difference is one. -/
theorem toInt_sub_small {a b : Int32} (h0 : 0 ≤ a.toInt - b.toInt)
    (hlt : a.toInt - b.toInt < 2 ^ 31) :
    (a - b).toInt = a.toInt - b.toInt := by
  rw [Int32.toInt_sub]
  exact Int.bmod_eq_of_le_mul_two (by omega) (by omega)

/-- Setting an element adds its value to the set. -/
theorem bitSet_sets {f : Field} (hf : f ∈ fields) {i : Int32}
    (hlow : f.low.toInt ≤ i.toInt) (hhigh : i.toInt ≤ f.high.toInt)
    (bits : Bitmaps) :
    Sets f (fun v => v = i.toInt) bits
      (bitSet bits f.name (bitIndex (i - f.low))) := by
  obtain ⟨hlow0, hlow1, hhigh59, -⟩ := names_bound f hf
  have hindex : bitIndex (i - f.low) = (i.toInt - f.low.toInt).toNat := by
    unfold bitIndex
    rw [toInt_sub_small (by omega) (by omega)]
  intro p
  rw [bit_bitSet, Bool.or_eq_true, decide_eq_true_eq, hindex, or_comm]
  simp [Field.pos]

/-- Setting one set and then another sets both. -/
theorem Sets.trans {f : Field} {S T U : Int → Prop}
    {bits bits' bits'' : Bitmaps} (h : Sets f S bits bits')
    (h' : Sets f T bits' bits'') (hU : ∀ v, U v ↔ S v ∨ T v) :
    Sets f U bits bits'' := by
  intro p
  rw [h' p, h p]
  constructor
  · intro hp
    rcases hp with (hp | ⟨v, hv, hpos⟩) | ⟨v, hv, hpos⟩
    · exact Or.inl hp
    · exact Or.inr ⟨v, (hU v).mpr (Or.inl hv), hpos⟩
    · exact Or.inr ⟨v, (hU v).mpr (Or.inr hv), hpos⟩
  · intro hp
    rcases hp with hp | ⟨v, hv, hpos⟩
    · exact Or.inl (Or.inl hp)
    · rcases (hU v).mp hv with hS | hT
      · exact Or.inl (Or.inr ⟨v, hS, hpos⟩)
      · exact Or.inr ⟨v, hT, hpos⟩

/-- The stepping loop inside a field runs to its end and sets what it
visits. -/
theorem stepLoop_spec {f : Field} (hf : f ∈ fields) {num2 num3 : Int32}
    (hstep : SmallStep num3) (hne : num3 ≠ 0) {i : Int32}
    (hlow : f.low.toInt ≤ i.toInt) (hi : i.toInt < 2 ^ 30)
    (hhigh : num2.toInt ≤ f.high.toInt) (bits : Bitmaps) :
    (stepLoop f num2 num3 hne i bits).1 = true
      ∧ Sets f (Steps i.toInt num2.toInt num3.toInt) bits
          (stepLoop f num2 num3 hne i bits).2 := by
  obtain ⟨hlow0, hlow1, hhigh59, -⟩ := names_bound f hf
  have hpos := hstep.pos
  have hsmall := hstep.small
  fun_induction stepLoop f num2 num3 hne i bits with
  | case1 i bits hle hset =>
      rw [Int32.le_iff_toInt_le] at hle
      rw [setElement_in bits (by
        rw [Int32.lt_iff_toInt_lt, Int32.lt_iff_toInt_lt]
        omega)] at hset
      cases hset
  | case2 i bits hle bits' hset ih =>
      rw [Int32.le_iff_toInt_le] at hle
      obtain ⟨-, rfl⟩ := setElement_eq_some hset
      have hnext : (i + num3).toInt = i.toInt + num3.toInt :=
        toInt_add_small (by omega) (by omega)
      obtain ⟨hdone, hsets⟩ := ih (by omega) (by omega)
      refine ⟨hdone, (bitSet_sets hf hlow (by omega) bits).trans hsets ?_⟩
      intro v
      rw [hnext]
      exact steps_cons hle
  | case3 i bits hle =>
      rw [Int32.le_iff_toInt_le] at hle
      refine ⟨rfl, fun p => ?_⟩
      constructor
      · exact Or.inl
      · intro hp
        rcases hp with hp | ⟨v, hv, -⟩
        · exact hp
        · exact absurd hv (steps_empty (by omega) (by omega))

-- ============================================================== ranges

/-- **The loop.** From the first number to the last, in steps, it runs to
its end and sets the numbers it visits. -/
theorem setStepping_spec {f : Field} (hf : f ∈ fields)
    {num1 num2 num3 : Int32} (hstep : SmallStep num3)
    (hlow : f.low.toInt ≤ num1.toInt) (hle : num1.toInt ≤ num2.toInt)
    (hhigh : num2.toInt ≤ f.high.toInt) (bits : Bitmaps) :
    (setStepping f num1 num2 num3 bits).1 = true
      ∧ Sets f (Steps num1.toInt num2.toInt num3.toInt) bits
          (setStepping f num1 num2 num3 bits).2 := by
  obtain ⟨-, -, hhigh59, -⟩ := names_bound f hf
  unfold setStepping
  rw [dif_neg hstep.ne_zero]
  exact stepLoop_spec hf hstep hstep.ne_zero hlow (by omega) hhigh bits

/-- A range of the grammar sets the values it denotes. -/
theorem Range.apply_spec {f : Field} (hf : f ∈ fields) {r : Range}
    (hr : r.Strict f) (hshort : r.Short) (bits : Bitmaps) :
    (r.apply f bits).1 = true
      ∧ Sets f (r.Denotes f) bits (r.apply f bits).2 := by
  cases r with
  | star step =>
      have hvalue := StepStrict.stepValue_toInt hr hshort
      have hlow : f.low.toInt ≤ f.high.toInt := low_le_high f hf
      have hspec := setStepping_spec hf (StepStrict.small hr hshort)
        (Int.le_refl _) hlow (Int.le_refl _) bits
      rw [hvalue] at hspec
      exact hspec
  | single x =>
      have hvalue := Num.Strict.value_toInt hf hr hshort
      have hlow := Num.Strict.low_le hr
      have hhigh := Num.Strict.le_high hr
      rw [← hvalue] at hlow hhigh
      have hsets := bitSet_sets hf hlow hhigh bits
      rw [hvalue] at hsets
      have hin : ¬ (x.value f < f.low ∨ f.high < x.value f) := by
        rw [Int32.lt_iff_toInt_lt, Int32.lt_iff_toInt_lt]
        omega
      simp only [Range.apply, setElement_in bits hin]
      exact ⟨trivial, hsets⟩
  | span x y step =>
      obtain ⟨hx, hy, hle, hstep⟩ := hr
      obtain ⟨hxs, hys, hsteps⟩ := hshort
      have hxv := hx.value_toInt hf hxs
      have hyv := hy.value_toInt hf hys
      have hlow := hx.low_le
      have hhigh := hy.le_high
      have hlow' : f.low.toInt ≤ (x.value f).toInt := by omega
      have hle' : (x.value f).toInt ≤ (y.value f).toInt := by omega
      have hspec := setStepping_spec hf (hstep.small hsteps) hlow' hle'
        (by omega) bits
      rw [hxv, hyv, hstep.stepValue_toInt hsteps] at hspec
      exact hspec

/-- A range of the grammar is taken. -/
theorem Range.taken_of_strict {f : Field} (hf : f ∈ fields) {r : Range}
    (hr : r.Strict f) (hshort : r.Short) : r.Taken f := by
  have hfits : r.fits f = true := (r.apply_spec hf hr hshort .zero).1
  cases r with
  | star step => exact ⟨StepStrict.taken hr hshort, hfits⟩
  | single x => exact ⟨Num.Strict.scanned hf hr hshort, hfits⟩
  | span x y step =>
      obtain ⟨hx, hy, hle, hstep⟩ := hr
      obtain ⟨hxs, hys, hsteps⟩ := hshort
      refine ⟨hx.scanned hf hxs, hy.scanned hf hys, ?_,
        hstep.taken hsteps, hfits⟩
      rw [Int32.lt_iff_toInt_lt, hx.value_toInt hf hxs,
        hy.value_toInt hf hys]
      omega

/-- The values a range denotes are values of the field. -/
theorem Range.denotes_in_field {f : Field} {r : Range}
    (hr : r.Strict f) {v : Int} (hv : r.Denotes f v) :
    f.low.toInt ≤ v ∧ v ≤ f.high.toInt := by
  have hstep0 : ∀ {step : Option (List UInt8)}, 0 ≤ stepMeaning step := by
    intro step
    cases step with
    | none => exact Int.one_nonneg
    | some n => exact Int.natCast_nonneg _
  cases r with
  | star step => exact ⟨first_le_steps hstep0 hv, steps_le_last hv⟩
  | single x =>
      have hx : v = x.meaning f := hv
      rw [hx]
      exact ⟨Num.Strict.low_le hr, Num.Strict.le_high hr⟩
  | span x y step =>
      obtain ⟨hx, hy, -, -⟩ := hr
      exact ⟨Int.le_trans hx.low_le (first_le_steps hstep0 hv),
        Int.le_trans (steps_le_last hv) hy.le_high⟩

-- =============================================================== lists

/-- A list of the grammar with short numerals, so that nothing wraps: a
list of these is what a line of a crontab is built of. -/
structure FieldList (f : Field) where
  ranges : List Range
  ne_nil : ranges ≠ []
  strict : ∀ r ∈ ranges, r.Strict f
  short : ∀ r ∈ ranges, r.Short

/-- The values the list denotes: those of each of its ranges, taken
together. -/
def FieldList.Denotes {f : Field} (l : FieldList f) : Int → Prop :=
  ListDenotes f l.ranges

/-- **The list.** Its ranges set what the list denotes. -/
theorem applyRanges_spec {f : Field} (hf : f ∈ fields)
    {rs : List Range} (hrs : ∀ r ∈ rs, r.Strict f)
    (hshort : ∀ r ∈ rs, r.Short) (bits : Bitmaps) :
    Sets f (ListDenotes f rs) bits (applyRanges f rs bits) := by
  unfold applyRanges
  induction rs generalizing bits with
  | nil =>
      intro p
      simp [ListDenotes]
  | cons r rs ih =>
      have hhead := (r.apply_spec hf (hrs r List.mem_cons_self)
        (hshort r List.mem_cons_self) bits).2
      have htail := ih (fun q hq => hrs q (List.mem_cons_of_mem r hq))
        (fun q hq => hshort q (List.mem_cons_of_mem r hq))
        (r.apply f bits).2
      refine hhead.trans htail ?_
      intro v
      simp [ListDenotes]

/-- What a field makes of the bitmaps when it is read as this list. -/
def fillField (f : Field) (rs : List Range) (bits : Bitmaps) : Bitmaps :=
  applyRanges f rs (clearField f bits)

/-- A list denotes values of its field. -/
theorem FieldList.denotes_in_field {f : Field} (l : FieldList f)
    {v : Int} (hv : l.Denotes v) :
    f.low.toInt ≤ v ∧ v ≤ f.high.toInt := by
  obtain ⟨r, hr, hv⟩ := hv
  exact Range.denotes_in_field (l.strict r hr) hv

/-- The clearing of a field stops one past its last value. -/
theorem stopBit_eq : ∀ f ∈ fields,
    (stopBit f : Int) = f.high.toInt - f.low.toInt + 1 := by
  decide

/-- The field holds the values of the list. -/
theorem fillField_own {f : Field} (hf : f ∈ fields) (l : FieldList f)
    (bits : Bitmaps) {v : Int} (hlow : f.low.toInt ≤ v)
    (hhigh : v ≤ f.high.toInt) :
    (fillField f l.ranges bits).bit (f.pos v) = true ↔ l.Denotes v := by
  have hspec := applyRanges_spec hf l.strict l.short (clearField f bits)
  have hstop := stopBit_eq f hf
  have hclear : (clearField f bits).bit (f.pos v) = false := by
    unfold clearField
    rw [bit_bitNclear bits (Nat.zero_le _)]
    have hin : inRange f.name 0 (stopBit f) (f.pos v) = true := by
      unfold inRange Field.pos
      rw [decide_eq_true_iff]
      omega
    rw [hin]
    simp
  unfold fillField
  rw [hspec, hclear]
  constructor
  · intro h
    rcases h with h | ⟨u, hu, hpos⟩
    · cases h
    · obtain ⟨hulow, huhigh⟩ := l.denotes_in_field hu
      have huv : v = u := by
        unfold Field.pos at hpos
        omega
      rw [huv]
      exact hu
  · intro h
    exact Or.inr ⟨v, h, rfl⟩

/-- The bits of the other fields are left alone. -/
theorem fillField_other {f : Field} (hf : f ∈ fields) (l : FieldList f)
    (bits : Bitmaps) {p : Nat}
    (hp : p < 8 * f.name ∨ 8 * f.name + stopBit f < p) :
    (fillField f l.ranges bits).bit p = bits.bit p := by
  have hspec := applyRanges_spec hf l.strict l.short (clearField f bits)
  have hstop := stopBit_eq f hf
  have hclear : (clearField f bits).bit p = bits.bit p := by
    unfold clearField
    rw [bit_bitNclear bits (Nat.zero_le _)]
    have hout : inRange f.name 0 (stopBit f) p = false := by
      unfold inRange
      rw [decide_eq_false_iff_not]
      omega
    rw [hout]
    simp
  unfold fillField
  rw [Bool.eq_iff_iff, hspec, hclear]
  constructor
  · intro h
    rcases h with h | ⟨u, hu, hpos⟩
    · exact h
    · obtain ⟨hulow, huhigh⟩ := l.denotes_in_field hu
      unfold Field.pos at hpos
      omega
  · exact Or.inl

-- =============================================================== words

/-- A list of the grammar written out is the word of a field. -/
theorem FieldList.word {f : Field} (hf : f ∈ fields) (l : FieldList f) :
    ListTaken f l.ranges [newline] := by
  refine ⟨l.ne_nil, ?_, ?_, by decide⟩
  · intro r hr
    exact r.taken_of_strict hf (l.strict r hr) (l.short r hr)
  · intro r _
    exact r.ends_stop (by decide) []

end Tinjac
