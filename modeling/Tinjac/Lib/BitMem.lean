/-
Bits in a byte memory: bit `p` of the memory is bit `p % 8` of byte
`p / 8`, least significant first.

A macro package that sets and clears bits through byte masks is
understood by what each mask selects (`testBit_low`, `testBit_high`,
`testBit_one`) and by what storing a byte does to the bits
(`bit_store`, `bit_fill`); the bits a macro reaches are then arithmetic
on `p`.
-/
import Mathlib.Data.Nat.Bitwise

namespace BitMem

/-- Bit `p` of the memory. -/
def bit (mem : Nat → UInt8) (p : Nat) : Bool :=
  (mem (p / 8)).toNat.testBit (p % 8)

/-- Store the low byte of a number. -/
def store (mem : Nat → UInt8) (k v : Nat) : Nat → UInt8 :=
  fun j => if j = k then UInt8.ofNat v else mem j

/-- Storing a byte replaces its eight bits. -/
theorem bit_store (mem : Nat → UInt8) (k v p : Nat) :
    bit (store mem k v) p
      = if p / 8 = k then v.testBit (p % 8) else bit mem p := by
  unfold bit store
  by_cases hk : p / 8 = k
  · have hlt : p % 8 < 8 := Nat.mod_lt _ (by decide)
    rw [if_pos hk, if_pos hk, UInt8.toNat_ofNat', Nat.testBit_mod_two_pow]
    simp [hlt]
  · rw [if_neg hk, if_neg hk]

/-- Storing the same byte all over an interval of addresses. -/
theorem bit_fill (mem : Nat → UInt8) (v first len p : Nat) :
    bit ((List.range' first len).foldl (fun m k => store m k v) mem) p
      = if first ≤ p / 8 ∧ p / 8 < first + len then v.testBit (p % 8)
        else bit mem p := by
  induction len generalizing first mem with
  | zero =>
      rw [if_neg (by omega)]
      rfl
  | succ len ih =>
      rw [List.range'_succ, List.foldl_cons, ih, bit_store]
      by_cases hin : first + 1 ≤ p / 8 ∧ p / 8 < first + 1 + len
      · rw [if_pos hin, if_pos (by omega)]
      · rw [if_neg hin]
        by_cases hfirst : p / 8 = first
        · rw [if_pos hfirst, if_pos (by omega)]
        · rw [if_neg hfirst, if_neg (by omega)]

-- =============================================================== masks

theorem testBit_255 (i : Nat) : (255 : Nat).testBit i = decide (i < 8) := by
  rw [show (255 : Nat) = 2 ^ 8 - 1 from rfl, Nat.testBit_two_pow_sub_one]

/-- The mask of one bit. -/
theorem testBit_one (s i : Nat) : (1 <<< s).testBit i = decide (i = s) := by
  rw [Nat.one_shiftLeft, Nat.testBit_two_pow]
  simp only [eq_comm]

/-- The mask of the low `8 - s` bits. -/
theorem testBit_low (s i : Nat) :
    ((255 : Nat) >>> s).testBit i = decide (s + i < 8) := by
  rw [Nat.testBit_shiftRight, testBit_255]

/-- The mask of the bits from `s` on. -/
theorem testBit_high (s i : Nat) (hi : i < 8) :
    ((255 : Nat) <<< s).testBit i = decide (s ≤ i) := by
  rw [Nat.testBit_shiftLeft, testBit_255]
  by_cases hs : s ≤ i
  · simp only [ge_iff_le, hs, decide_true, Bool.true_and, decide_eq_true_eq]
    omega
  · simp [hs]

end BitMem
