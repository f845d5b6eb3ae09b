/-
The rows of digits that `printTime` prints.

A row shows a set if it has one digit for each legal value of its field,
in order (`RowShows`). The entry's memory has what such a row needs:
value `v` is at bit `v - low` (`rowShows_iff`). The loops print the bits
from `low` up to `high`, without `high` itself, as if the values were
bits: of the row that shows the set (`Entry.legalRow`) they print what
is left without its first `low` digits, and one digit too few
(`printRow_cut`). So a field that starts at 0 lacks its last value, and
in one that starts at 1 the first value is missing and each digit stands
one place too far to the left (`printed_digit`).
-/
import Mathlib.Data.List.Forall2
import Tinjac.Proofs.Due
import Tinjac.Proofs.Meaning

namespace Tinjac

-- ====================================================== rows that show

/-- The legal values of a field, in order. -/
def Field.values (f : Field) : List Int :=
  (List.range' (bitIndex f.low)
    (bitIndex f.high + 1 - bitIndex f.low)).map Int.ofNat

/-- The row has one digit for each legal value of the field, in order,
and it is a one if the value is in the set. -/
def RowShows (f : Field) (S : Int → Prop) (digits : List Bool) : Prop :=
  List.Forall₂ (fun v digit => digit = true ↔ S v) f.values digits

/-- The digits of the legal values, from where they are stored. -/
def Entry.legalRow (e : Entry) (f : Field) : List Bool :=
  f.values.map fun v => bitTest e.bits f.name (v - f.low.toInt).toNat

/-- The digits that are printed for a field: the bits from the number of
its first value up to, but without, that of its last. -/
def Entry.printedRow (e : Entry) (f : Field) : List Bool :=
  (List.range' (bitIndex f.low) (bitIndex f.high - bitIndex f.low)).map
    (bitTest e.bits f.name)

section

variable {e : Entry} {f : Field} {S : Int → Prop}

theorem printRow_eq (e : Entry) (label : String) (f : Field) :
    printRow e label f = .row label (e.printedRow f) := rfl

/-- The fields start at 0 or at 1, and have more than one value. -/
theorem bounds_row : ∀ f ∈ fields,
    bitIndex f.low ≤ 1 ∧ bitIndex f.low < bitIndex f.high := by
  decide

/-- The first bit that a row looks at. -/
theorem bitIndex_low (f : Field) : (bitIndex f.low : Int) = f.low.toInt :=
  Int.toNat_of_nonneg f.low_nonneg

/-- The legal values are those between the bounds. -/
theorem mem_values (hf : f ∈ fields) {v : Int} :
    v ∈ f.values ↔ f.low.toInt ≤ v ∧ v ≤ f.high.toInt := by
  have hlow := bitIndex_low f
  have hle := low_le_high f hf
  have hhigh : (bitIndex f.high : Int) = f.high.toInt :=
    Int.toNat_of_nonneg (Int.le_trans f.low_nonneg hle)
  unfold Field.values
  rw [List.mem_map]
  constructor
  · intro hv
    obtain ⟨k, hk, rfl⟩ := hv
    rw [List.mem_range'_1] at hk
    rw [Int.ofNat_eq_natCast]
    omega
  · intro hv
    refine ⟨v.toNat, ?_, ?_⟩
    · rw [List.mem_range'_1]
      omega
    · rw [Int.ofNat_eq_natCast]
      omega

/-- One row shows what the memory holds. -/
theorem rowShows_iff (hf : f ∈ fields) (h : e.bits.Holds f S)
    {digits : List Bool} : RowShows f S digits ↔ digits = e.legalRow f := by
  have hiff : ∀ v ∈ f.values, ∀ digit : Bool, (digit = true ↔ S v)
      ↔ digit = bitTest e.bits f.name (v - f.low.toInt).toNat := by
    intro v hv digit
    obtain ⟨hlow, hhigh⟩ := (mem_values hf).mp hv
    rw [← h v hlow hhigh, Bool.coe_iff_coe]
  unfold RowShows Entry.legalRow
  generalize f.values = vs at hiff
  induction vs generalizing digits with
  | nil => exact List.forall₂_nil_left_iff
  | cons v vs ih =>
      have ih := fun {ds : List Bool} => @ih ds
        (fun w hw => hiff w (List.mem_cons_of_mem v hw))
      rw [List.forall₂_cons_left_iff, List.map_cons]
      constructor
      · intro hrow
        obtain ⟨digit, ds, hdigit, hds, rfl⟩ := hrow
        rw [(hiff v List.mem_cons_self digit).mp hdigit, ih.mp hds]
      · intro hrow
        exact ⟨_, _, (hiff v List.mem_cons_self _).mpr rfl, ih.mpr rfl, hrow⟩

-- ============================================================== the cut

/-- The digits of the legal values are the first bits of the field. -/
theorem legalRow_eq (e : Entry) (f : Field) :
    e.legalRow f
      = (List.range (bitIndex f.high + 1 - bitIndex f.low)).map
          (bitTest e.bits f.name) := by
  have hlow := bitIndex_low f
  unfold Entry.legalRow Field.values
  rw [List.map_map, List.range'_eq_map_range, List.map_map]
  apply List.map_congr_left
  intro i hi
  show bitTest e.bits f.name
    (Int.ofNat (bitIndex f.low + i) - f.low.toInt).toNat = _
  rw [Int.ofNat_eq_natCast, ← hlow]
  congr 1
  omega

/-- **What is printed** of the row that shows the set: its first `low`
digits are missing, and one more at the end unless that is one. -/
theorem printRow_cut (hf : f ∈ fields) (e : Entry) :
    e.printedRow f
      = ((e.legalRow f).drop (bitIndex f.low)).take
          (bitIndex f.high - bitIndex f.low) := by
  obtain ⟨hlow, hlt⟩ := bounds_row f hf
  rw [legalRow_eq, ← List.map_drop, ← List.map_take,
    List.range_eq_range', List.drop_range',
    List.take_range'_of_length_ge (by omega), Nat.zero_add, Nat.mul_one]
  rfl

/-- What a digit of a printed row says: in a field that starts at 1 it is
the digit of the next value. -/
theorem printed_digit (hf : f ∈ fields) (h : e.bits.Holds f S) {i : Nat}
    (hi : i < bitIndex f.high - bitIndex f.low) :
    (e.printedRow f)[i]? = some true ↔ S (2 * f.low.toInt + i) := by
  have hlow := bitIndex_low f
  have hhigh : (bitIndex f.high : Int) = f.high.toInt :=
    Int.toNat_of_nonneg (Int.le_trans f.low_nonneg (low_le_high f hf))
  obtain ⟨hlow1, -⟩ := bounds_row f hf
  rw [← h (2 * f.low.toInt + i) (by omega) (by omega)]
  have hbit : (2 * f.low.toInt + i - f.low.toInt).toNat
      = bitIndex f.low + 1 * i := by
    omega
  rw [hbit]
  unfold Entry.printedRow
  rw [List.getElem?_map, List.getElem?_range' hi, Option.map_some,
    Option.some_inj]

end

-- ========================================================= the theorem

/-- The rows that are printed, and the fields they are for. -/
def rowFields : List (String × Field) :=
  [("Minute:", minuteField), ("Hour:", hourField), ("Day:", domField),
   ("Month:", monthField), ("DOW:", dowField)]

theorem mem_fields_of_row : ∀ r ∈ rowFields, r.2 ∈ fields := by
  simp [rowFields, fields]

theorem row_mem_printTime {fuel : Nat} {ptimeThrows : Tm → Bool} {now : Tm}
    {e : Entry} {label : String} {digits : List Bool} :
    Line.row label digits ∈ (printTime fuel ptimeThrows now e).1
      ↔ Line.row label digits ∈ printRows e := by
  unfold printTime
  dsimp only
  split
  · simp
  · simp
  · split
    · simp
    · simp

/-- The row of a field is printed once. -/
theorem row_mem_printRows {e : Entry} {r : String × Field}
    (hr : r ∈ rowFields) {digits : List Bool} :
    Line.row r.1 digits ∈ printRows e ↔ digits = e.printedRow r.2 := by
  simp only [rowFields, List.mem_cons, List.not_mem_nil, or_false] at hr
  rcases hr with rfl | rfl | rfl | rfl | rfl
  · simp [printRows, printRow_eq]
  · simp [printRows, printRow_eq]
  · simp [printRows, printRow_eq]
  · simp [printRows, printRow_eq]
  · simp [printRows, printRow_eq]

/-- **The rows.** Of whatever entry, at whatever time: each field has its
row, and the row shows no set at all. If the field holds a set, there is
one row that would show it; what is printed of this lacks the digits of
its first and last values as `printRow_cut` says, and each digit that is
printed is that of a value. -/
theorem rows_never_show (fuel : Nat) (ptimeThrows : Tm → Bool) (now : Tm)
    (e : Entry) :
    ∀ r ∈ rowFields, ∃ digits,
      (∀ ds, Line.row r.1 ds ∈ (printTime fuel ptimeThrows now e).1
        ↔ ds = digits)
      ∧ (∀ S, ¬ RowShows r.2 S digits)
      ∧ ∀ S, e.bits.Holds r.2 S →
        (∀ ds, RowShows r.2 S ds ↔ ds = e.legalRow r.2)
          ∧ digits = ((e.legalRow r.2).drop (bitIndex r.2.low)).take
              (bitIndex r.2.high - bitIndex r.2.low)
          ∧ ∀ i, i < bitIndex r.2.high - bitIndex r.2.low →
            (digits[i]? = some true ↔ S (2 * r.2.low.toInt + i)) := by
  intro r hr
  have hf := mem_fields_of_row r hr
  refine ⟨e.printedRow r.2, ?_, ?_, ?_⟩
  · intro ds
    rw [row_mem_printTime, row_mem_printRows hr]
  · intro S hshows
    obtain ⟨-, hlt⟩ := bounds_row r.2 hf
    have hlen := List.Forall₂.length_eq hshows
    simp only [Field.values, Entry.printedRow, List.length_map,
      List.length_range'] at hlen
    omega
  · intro S h
    exact ⟨fun ds => rowShows_iff hf h, printRow_cut hf e,
      fun i hi => printed_digit hf h hi⟩

/-- The list `59`, of which the row shows nothing. -/
def lastMinuteList : FieldList minuteField :=
  .one (.single (.digits (bytes "59")))
    ⟨⟨by decide, by decide +kernel⟩, by decide, by decide⟩
    (by
      show (bytes "59").length ≤ 9
      decide)

/-- The minute row of a job for every noon: one minute is set, and the row
does not show it. -/
theorem noon_row_shows_nothing :
    ∃ e, loadedFrom "0 12 * * * root true\n" = some e
      ∧ ∃ digits,
        (∀ ds, Line.row "Minute:" ds
            ∈ (printTime 2 (fun _ => false) januaryMorning e).1
          ↔ ds = digits)
        ∧ ∀ S, ¬ RowShows minuteField S digits := by
  have hsome : (loadedFrom "0 12 * * * root true\n").isSome = true := by
    decide +kernel
  obtain ⟨e, he⟩ := Option.isSome_iff_exists.mp hsome
  obtain ⟨digits, hprinted, hnever, -⟩ :=
    rows_never_show 2 (fun _ => false) januaryMorning e _ List.mem_cons_self
  exact ⟨e, he, digits, hprinted, hnever⟩

/-- A job for the last minute of every hour: there is no one in its
row. -/
theorem last_minute_not_shown :
    ∃ e, loadedFrom "59 * * * * root true\n" = some e
      ∧ Line.row "Minute:" (List.replicate 59 false) ∈ printRows e
      ∧ lastMinuteList.Denotes 59
      ∧ ¬ RowShows minuteField lastMinuteList.Denotes
          (List.replicate 59 false) := by
  have hrow : (loadedFrom "59 * * * * root true\n").map
      (fun e => e.printedRow minuteField)
        = some (List.replicate 59 false) := by
    decide +kernel
  obtain ⟨e, he, hdigits⟩ := Option.map_eq_some_iff.mp hrow
  refine ⟨e, he, ?_, ?_, ?_⟩
  · rw [← hdigits]
    exact List.mem_cons_self
  · refine ⟨_, List.mem_cons_self, ?_⟩
    show (59 : Int) = digitsValue (bytes "59")
    decide
  · intro hshows
    exact absurd (List.Forall₂.length_eq hshows) (by decide)

end Tinjac
