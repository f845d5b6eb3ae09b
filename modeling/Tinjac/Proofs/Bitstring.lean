/-
What the macros of `include/bitstring.h` do to the bits of an entry.

All five bitmaps are one memory, so a bit has one absolute position in
it: bit `i` of the bitmap at byte offset `name` is bit `8 * name + i`.
The three macros then read as operations on sets of positions, and what
one of them does to a neighbouring bitmap is the same statement.
-/
import Tinjac.Lib.BitMem
import Tinjac.Model.Bitstring

namespace Tinjac

open Bitmaps
open BitMem (testBit_255 testBit_one testBit_low testBit_high)

namespace Bitmaps

/-- A bit of the bitmap area. -/
def bit (m : Bitmaps) (p : Nat) : Bool := BitMem.bit m.byte p

/-- Recording which bytes were touched leaves the bits alone. -/
@[simp] theorem bit_touch (m : Bitmaps) (name p : Nat) (bits : List Nat) :
    (m.touch name bits).bit p = m.bit p := rfl

/-- A byte that is stored has its own bits, and the other bytes keep
theirs. -/
theorem bit_store (m : Bitmaps) (k v p : Nat) :
    (m.store k v).bit p
      = if p / 8 = k then v.testBit (p % 8) else m.bit p :=
  BitMem.bit_store m.byte k v p

/-- No bit is set in the memory of a new entry. -/
@[simp] theorem bit_zero (p : Nat) : Bitmaps.zero.bit p = false := by
  unfold bit BitMem.bit zero
  simp

/-- The byte a macro reads, bit by bit. -/
theorem testBit_byte {m : Bitmaps} {k p : Nat} (h : p / 8 = k) :
    (m.byte k).toNat.testBit (p % 8) = m.bit p := by
  rw [← h]
  rfl

/-- The loop between the first and the last byte fills the bytes strictly
between them. -/
theorem bit_fillBetween (m : Bitmaps) (name startbyte stopbyte v p : Nat) :
    (fillBetween m name startbyte stopbyte v).bit p
      = if name + startbyte < p / 8 ∧ p / 8 < name + stopbyte
        then v.testBit (p % 8) else m.bit p := by
  have hfold : ∀ (l : List Nat) (m : Bitmaps),
      (l.foldl (fun m k => m.store (name + k) v) m).byte
        = (l.map (name + ·)).foldl (fun b k => BitMem.store b k v)
            m.byte := by
    intro l
    induction l with
    | nil =>
        intro m
        rfl
    | cons k l ih =>
        intro m
        exact ih (m.store (name + k) v)
  unfold fillBetween bit
  rw [hfold, List.map_add_range', BitMem.bit_fill]
  by_cases hin : name + startbyte < p / 8 ∧ p / 8 < name + stopbyte
  · rw [if_pos hin, if_pos (by omega)]
  · rw [if_neg hin, if_neg (by omega)]

end Bitmaps

-- ========================================================== the macros

/-- `_bit_byte` shifts by three, which is a division by eight. -/
theorem bitByte_eq (i : Nat) : bitByte i = i / 8 := by
  unfold bitByte
  rw [Nat.shiftRight_eq_div_pow]

/-- `bit & 0x7` is the remainder. -/
theorem and_seven (i : Nat) : i &&& 0x7 = i % 8 :=
  Nat.and_two_pow_sub_one_eq_mod i 3

/-- `bit_test` reads one bit of the memory, counted from the start of the
bitstring. -/
theorem bitTest_eq (m : Bitmaps) (name i : Nat) :
    bitTest m name i = m.bit (8 * name + i) := by
  have hbyte : (8 * name + i) / 8 = name + i / 8 := by omega
  have hmod : (8 * name + i) % 8 = i % 8 := by omega
  unfold bitTest bitMask
  rw [bitByte_eq, and_seven, ← testBit_byte hbyte, hmod, Nat.one_shiftLeft,
    Nat.and_two_pow]
  cases (m.byte (name + i / 8)).toNat.testBit (i % 8) with
  | false => simp
  | true => simp

/-- `bit_set` sets one bit and no other. -/
theorem bit_bitSet (m : Bitmaps) (name i p : Nat) :
    (bitSet m name i).bit p = (decide (p = 8 * name + i) || m.bit p) := by
  unfold bitSet bitMask
  rw [bit_touch, bit_store, bitByte_eq, and_seven]
  by_cases hbyte : p / 8 = name + i / 8
  · rw [if_pos hbyte, Nat.testBit_or, testBit_byte hbyte, testBit_one,
      Bool.or_comm]
    congr 1
    rw [decide_eq_decide]
    omega
  · rw [if_neg hbyte, show decide (p = 8 * name + i) = false by
      rw [decide_eq_false_iff_not]; omega]
    simp

/-- The positions a range macro writes. -/
def inRange (name start stop p : Nat) : Bool :=
  decide (8 * name + start ≤ p ∧ p ≤ 8 * name + stop)

/-- `bit_nclear` clears the bits of its range, the last one included, and
no others; whether the range is in one byte or in several. -/
theorem bit_bitNclear (m : Bitmaps) {name start stop : Nat}
    (hle : start ≤ stop) (p : Nat) :
    (bitNclear m name start stop).bit p
      = (m.bit p && !inRange name start stop p) := by
  have hmod : p % 8 < 8 := Nat.mod_lt _ (by decide)
  unfold bitNclear inRange
  simp only [bit_touch, bitByte_eq, and_seven]
  by_cases hone : start / 8 = stop / 8
  · rw [if_pos hone, bit_store]
    by_cases hbyte : p / 8 = name + start / 8
    · rw [if_pos hbyte, Nat.testBit_and, testBit_byte hbyte,
        Nat.testBit_or, testBit_low, testBit_high _ _ hmod,
        ← Bool.decide_or, ← decide_not]
      congr 1
      rw [decide_eq_decide]
      omega
    · rw [if_neg hbyte, ← decide_not,
        show decide (¬ (8 * name + start ≤ p ∧ p ≤ 8 * name + stop)) = true
          by rw [decide_eq_true_iff]; omega, Bool.and_true]
  · rw [if_neg hone, bit_store]
    by_cases hstop : p / 8 = name + stop / 8
    · rw [if_pos hstop, Nat.testBit_and, testBit_byte hstop,
        bit_fillBetween, if_neg (by omega), bit_store, if_neg (by omega),
        testBit_high _ _ hmod, ← decide_not]
      congr 1
      rw [decide_eq_decide]
      omega
    · rw [if_neg hstop, bit_fillBetween]
      by_cases hmid : name + start / 8 < p / 8 ∧ p / 8 < name + stop / 8
      · rw [if_pos hmid, Nat.zero_testBit,
          show decide (8 * name + start ≤ p ∧ p ≤ 8 * name + stop) = true
            by rw [decide_eq_true_iff]; omega]
        simp
      · rw [if_neg hmid, bit_store]
        by_cases hstart : p / 8 = name + start / 8
        · rw [if_pos hstart, Nat.testBit_and, testBit_byte hstart,
            testBit_low, ← decide_not]
          congr 1
          rw [decide_eq_decide]
          omega
        · rw [if_neg hstart, ← decide_not,
            show decide (¬ (8 * name + start ≤ p ∧ p ≤ 8 * name + stop))
                = true
              by rw [decide_eq_true_iff]; omega, Bool.and_true]

/-- `bit_nset` sets the bits of its range, the last one included, and no
others. -/
theorem bit_bitNset (m : Bitmaps) {name start stop : Nat}
    (hle : start ≤ stop) (p : Nat) :
    (bitNset m name start stop).bit p
      = (m.bit p || inRange name start stop p) := by
  have hmod : p % 8 < 8 := Nat.mod_lt _ (by decide)
  unfold bitNset inRange
  simp only [bit_touch, bitByte_eq, and_seven]
  by_cases hone : start / 8 = stop / 8
  · rw [if_pos hone, bit_store]
    by_cases hbyte : p / 8 = name + start / 8
    · rw [if_pos hbyte, Nat.testBit_or, testBit_byte hbyte,
        Nat.testBit_and, testBit_low, testBit_high _ _ hmod,
        ← Bool.decide_and]
      congr 1
      rw [decide_eq_decide]
      omega
    · rw [if_neg hbyte,
        show decide (8 * name + start ≤ p ∧ p ≤ 8 * name + stop) = false
          by rw [decide_eq_false_iff_not]; omega, Bool.or_false]
  · rw [if_neg hone, bit_store]
    by_cases hstop : p / 8 = name + stop / 8
    · rw [if_pos hstop, Nat.testBit_or, testBit_byte hstop,
        bit_fillBetween, if_neg (by omega), bit_store, if_neg (by omega),
        testBit_low]
      congr 1
      rw [decide_eq_decide]
      omega
    · rw [if_neg hstop, bit_fillBetween]
      by_cases hmid : name + start / 8 < p / 8 ∧ p / 8 < name + stop / 8
      · rw [if_pos hmid, testBit_255,
          show decide (8 * name + start ≤ p ∧ p ≤ 8 * name + stop) = true
            by rw [decide_eq_true_iff]; omega]
        simp [hmod]
      · rw [if_neg hmid, bit_store]
        by_cases hstart : p / 8 = name + start / 8
        · rw [if_pos hstart, Nat.testBit_or, testBit_byte hstart,
            testBit_high _ _ hmod]
          congr 1
          rw [decide_eq_decide]
          omega
        · rw [if_neg hstart,
            show decide (8 * name + start ≤ p ∧ p ≤ 8 * name + stop)
                = false
              by rw [decide_eq_false_iff_not]; omega, Bool.or_false]

end Tinjac
