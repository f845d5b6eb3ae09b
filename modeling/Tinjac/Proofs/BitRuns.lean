/-
Bitstrings as sets.

A program that keeps within its bitstrings can take them for sets of
numbers: whatever is set and cleared, in whatever order and however many
bitstrings there are beside one another, `bit_test` finds what a set
would have (`Layout.Holds` is the invariant). The two searches do not:
both go on to the byte that bit `nbits` is in, which is no byte of the
bitstring if `nbits` is a multiple of eight, and has bits that are none
of it if it is not.
-/
import Tinjac.Proofs.Bitstring
import Tinjac.Model.Fields
import Mathlib.Order.Interval.Set.Defs
import Mathlib.Data.Set.Insert
import Mathlib.Data.Nat.Find

namespace Tinjac

open Bitmaps
open BitMem (testBit_255 testBit_one)

-- ============================================================ the macros

theorem bitstrSize_eq {nbits : Nat} (h : 0 < nbits) :
    bitstrSize nbits = (nbits + 7) / 8 := by
  unfold bitstrSize
  rw [Nat.shiftRight_eq_div_pow]
  omega

theorem bit_bitClear (m : Bitmaps) (name i p : Nat) :
    (bitClear m name i).bit p = (m.bit p && !decide (p = 8 * name + i)) := by
  have hmod : p % 8 < 8 := Nat.mod_lt _ (by decide)
  unfold bitClear bitMask
  rw [bit_touch, bit_store, bitByte_eq, and_seven]
  by_cases hbyte : p / 8 = name + i / 8
  · rw [if_pos hbyte, Nat.testBit_and, testBit_byte hbyte,
      Nat.testBit_xor, testBit_255, testBit_one, decide_eq_true hmod,
      Bool.true_xor]
    congr 2
    rw [decide_eq_decide]
    omega
  · rw [if_neg hbyte, show decide (p = 8 * name + i) = false by
      rw [decide_eq_false_iff_not]; omega]
    simp

theorem and_one_eq_iff {low : Nat} (hlow : low < 2) (v : Nat) :
    v &&& 0x1 = low ↔ v.testBit 0 = (low == 1) := by
  rw [Nat.and_one_is_mod, Nat.testBit_zero]
  obtain rfl | rfl : low = 0 ∨ low = 1 := by omega
  · simp
  · simp

/-- The inner loop stops at the first bit that is not passed. -/
theorem bitShift_first {low : Nat} (hlow : low < 2) {fuel v value i : Nat}
    (hi : i < fuel) (hbit : v.testBit i ≠ (low == 1))
    (hbelow : ∀ j < i, v.testBit j = (low == 1)) :
    bitShift low fuel v value = some (value + i) := by
  induction fuel generalizing v value i with
  | zero => omega
  | succ fuel ih =>
      unfold bitShift
      cases i with
      | zero => rw [if_neg (by rw [and_one_eq_iff hlow]; exact hbit)]; rfl
      | succ i =>
          rw [if_pos ((and_one_eq_iff hlow v).mpr
            (hbelow 0 (Nat.succ_pos i)))]
          have hrest := @ih (v >>> 1) (value + 1) i (by omega)
            (by rw [Nat.testBit_shiftRight, Nat.add_comm]; exact hbit)
            (by
              intro j hj
              rw [Nat.testBit_shiftRight, Nat.add_comm]
              exact hbelow (j + 1) (by omega))
          rw [hrest]
          congr 1
          omega

/-- The first number of a set below `n`, or `-1`. -/
def FirstIn (s : Set Nat) (n : Nat) (v : Int) : Prop :=
  (∃ i < n, v = i ∧ i ∈ s ∧ ∀ j < i, j ∉ s) ∨ (v = -1 ∧ ∀ i < n, i ∉ s)

/-- A byte all of whose bits are the same. -/
def flatByte (b : Bool) : Nat := if b then 0xff else 0

theorem flatByte_testBit (b : Bool) {i : Nat} (hi : i < 8) :
    (flatByte b).testBit i = b := by
  unfold flatByte
  cases b with
  | false => exact Nat.zero_testBit i
  | true => rw [if_pos rfl, testBit_255, decide_eq_true hi]

/-- A byte is flat if its bits are the same. -/
theorem eq_flatByte_iff {b : Bool} {m : Bitmaps} {k : Nat} :
    (m.byte k).toNat = flatByte b
      ↔ ∀ i < 8, (m.byte k).toNat.testBit i = b := by
  constructor
  · intro h i hi
    rw [h]
    exact flatByte_testBit b hi
  · intro h
    refine Nat.eq_of_testBit_eq fun i => ?_
    by_cases hi : i < 8
    · rw [h i hi, flatByte_testBit b hi]
    · have hbig : ∀ x < 256, x.testBit i = false := fun x hx =>
        Nat.testBit_lt_two_pow (Nat.lt_of_lt_of_le hx
          (show 2 ^ 8 ≤ 2 ^ i from Nat.pow_le_pow_right (by decide) (by omega)))
      rw [hbig _ (m.byte k).toNat_lt, hbig]
      unfold flatByte
      split <;> decide

/-- What a search finds: the first bit that it does not pass, up to the
end of the last byte it looks at. -/
theorem bitSearch_first {low : Nat} (hlow : low < 2) (m : Bitmaps)
    (name bytes byte : Nat)
    (hbelow : ∀ i < 8 * byte, m.bit (8 * name + i) = (low == 1)) :
    ∃ v, bitSearch m name (flatByte (low == 1)) low bytes byte = some v
      ∧ FirstIn {i | m.bit (8 * name + i) ≠ (low == 1)}
        (8 * (byte + bytes)) v := by
  have hbit : ∀ k i, i < 8 → (m.byte (name + k)).toNat.testBit i
      = m.bit (8 * name + (8 * k + i)) := by
    intro k i hi
    have hbyte : (8 * name + (8 * k + i)) / 8 = name + k := by omega
    have hmod : (8 * name + (8 * k + i)) % 8 = i := by omega
    rw [← testBit_byte hbyte, hmod]
  induction bytes generalizing byte with
  | zero =>
      exact ⟨-1, rfl, Or.inr ⟨rfl, fun i hi h => h (hbelow i hi)⟩⟩
  | succ bytes ih =>
      unfold bitSearch
      dsimp only
      by_cases hflat : (m.byte (name + byte)).toNat = flatByte (low == 1)
      · rw [if_neg (by rw [not_not]; exact hflat)]
        have hnext : ∀ i < 8 * (byte + 1),
            m.bit (8 * name + i) = (low == 1) := by
          intro i hi
          by_cases hlt : i < 8 * byte
          · exact hbelow i hlt
          · have hi' := eq_flatByte_iff.mp hflat (i - 8 * byte) (by omega)
            rw [hbit _ _ (by omega)] at hi'
            rw [← hi']
            congr 2
            omega
        obtain ⟨v, hsearch, hfirst⟩ := ih (byte + 1) hnext
        exact ⟨v, hsearch, by rw [← Nat.add_assoc, Nat.add_right_comm];
                              exact hfirst⟩
      · rw [if_pos hflat]
        -- the least bit of the byte that is not passed
        have hsome : ∃ i, i < 8
            ∧ (m.byte (name + byte)).toNat.testBit i ≠ (low == 1) := by
          by_contra hnone
          apply hflat
          rw [eq_flatByte_iff]
          intro i hi
          by_contra hne
          exact hnone ⟨i, hi, hne⟩
        classical
        obtain ⟨hi, hne⟩ := Nat.find_spec hsome
        have hleast : ∀ j < Nat.find hsome,
            (m.byte (name + byte)).toNat.testBit j = (low == 1) := by
          intro j hj
          by_contra hne'
          exact Nat.find_min hsome hj ⟨by omega, hne'⟩
        generalize Nat.find hsome = i at hi hne hleast
        rw [bitShift_first hlow (by omega) hne hleast]
        rw [hbit _ _ hi] at hne
        refine ⟨_, rfl, Or.inl ⟨8 * byte + i, by omega, ?_, hne, ?_⟩⟩
        · rw [Nat.shiftLeft_eq]
          congr 1
          omega
        · intro j hj h
          by_cases hlt : j < 8 * byte
          · exact h (hbelow j hlt)
          · have hj' := hleast (j - 8 * byte) (by omega)
            rw [hbit _ _ (by omega)] at hj'
            apply h
            rw [← hj']
            congr 2
            omega

-- ============================================================ the runs

/-- An operation on a bitstring, by the macro that does it and the bits
that it is told. -/
inductive BitOp
  | set (bit : Nat)
  | clear (bit : Nat)
  | nset (start stop : Nat)
  | nclear (start stop : Nat)

namespace BitOp

/-- The operation keeps within this many bits: what a caller of the macros
has to see to. -/
def Within (nbits : Nat) : BitOp → Prop
  | set bit => bit < nbits
  | clear bit => bit < nbits
  | nset start stop => start ≤ stop ∧ stop < nbits
  | nclear start stop => start ≤ stop ∧ stop < nbits

/-- The macro. -/
def run (m : Bitmaps) (name : Nat) : BitOp → Bitmaps
  | set bit => bitSet m name bit
  | clear bit => bitClear m name bit
  | nset start stop => bitNset m name start stop
  | nclear start stop => bitNclear m name start stop

/-- What it is meant to do. -/
def on (s : Set Nat) : BitOp → Set Nat
  | set bit => insert bit s
  | clear bit => s \ {bit}
  | nset start stop => s ∪ Set.Icc start stop
  | nclear start stop => s \ Set.Icc start stop

variable {nbits : Nat} {op : BitOp}

theorem on_below {s : Set Nat} (hop : op.Within nbits)
    (hs : ∀ i ∈ s, i < nbits) : ∀ i ∈ op.on s, i < nbits := by
  intro i hi
  cases op with
  | set bit =>
      rcases hi with rfl | hi
      · exact hop
      · exact hs i hi
  | clear bit => exact hs i hi.1
  | nset start stop =>
      rcases hi with hi | hi
      · exact hs i hi
      · exact Nat.lt_of_le_of_lt hi.2 hop.2
  | nclear start stop => exact hs i hi.1

/-- A macro does what it is meant to do. -/
theorem run_bit (hop : op.Within nbits) (m : Bitmaps) (name i : Nat) :
    (op.run m name).bit (8 * name + i) = true
      ↔ i ∈ op.on {j | m.bit (8 * name + j) = true} := by
  have hsame : ∀ j, 8 * name + i = 8 * name + j ↔ i = j := fun j => by omega
  have hrange : ∀ start stop, inRange name start stop (8 * name + i) = true
      ↔ i ∈ Set.Icc start stop := by
    intro start stop
    unfold inRange
    rw [decide_eq_true_iff, Set.mem_Icc]
    omega
  cases op with
  | set bit =>
      show (bitSet m name bit).bit _ = true ↔ i ∈ insert bit _
      rw [bit_bitSet, Bool.or_eq_true, decide_eq_true_iff, hsame,
        Set.mem_insert_iff]
      rfl
  | clear bit =>
      show (bitClear m name bit).bit _ = true ↔ i ∈ _ \ {bit}
      rw [bit_bitClear, Bool.and_eq_true, Bool.not_eq_true',
        decide_eq_false_iff_not, hsame, Set.mem_sdiff, Set.mem_singleton_iff]
      rfl
  | nset start stop =>
      show (bitNset m name start stop).bit _ = true ↔ i ∈ _ ∪ _
      rw [bit_bitNset m hop.1, Bool.or_eq_true, hrange, Set.mem_union]
      rfl
  | nclear start stop =>
      show (bitNclear m name start stop).bit _ = true ↔ i ∈ _ \ _
      rw [bit_bitNclear m hop.1, Bool.and_eq_true, Bool.not_eq_true',
        ← Bool.not_eq_true, hrange, Set.mem_sdiff]
      rfl

/-- An operation within its bitstring does nothing to the bits of the
others. -/
theorem run_other (hop : op.Within nbits) (m : Bitmaps) {name p : Nat}
    (hp : p < 8 * name ∨ 8 * name + nbits ≤ p) :
    (op.run m name).bit p = m.bit p := by
  have hne : ∀ i < nbits, decide (p = 8 * name + i) = false := by
    intro i hi
    rw [decide_eq_false_iff_not]
    omega
  have hout : ∀ start stop, stop < nbits →
      inRange name start stop p = false := by
    intro start stop hstop
    unfold inRange
    rw [decide_eq_false_iff_not]
    omega
  cases op with
  | set bit =>
      show (bitSet m name bit).bit p = _
      rw [bit_bitSet, hne bit hop, Bool.false_or]
  | clear bit =>
      show (bitClear m name bit).bit p = _
      rw [bit_bitClear, hne bit hop, Bool.not_false, Bool.and_true]
  | nset start stop =>
      show (bitNset m name start stop).bit p = _
      rw [bit_bitNset m hop.1, hout start stop hop.2, Bool.or_false]
  | nclear start stop =>
      show (bitNclear m name start stop).bit p = _
      rw [bit_bitNclear m hop.1, hout start stop hop.2, Bool.not_false,
        Bool.and_true]

end BitOp

/-- Bitstrings beside one another in a memory, each as large as
`bitstr_size` has it. -/
structure Layout (ι : Type) where
  name : ι → Nat
  nbits : ι → Nat
  pos : ∀ b, 0 < nbits b
  apart : ∀ b c, b ≠ c → name b + bitstrSize (nbits b) ≤ name c
    ∨ name c + bitstrSize (nbits c) ≤ name b

namespace Layout

variable {ι : Type} [DecidableEq ι] (l : Layout ι)

/-- Any operations on them, one after the other. -/
def run (m : Bitmaps) (ops : List (ι × BitOp)) : Bitmaps :=
  ops.foldl (fun m o => o.2.run m (l.name o.1)) m

/-- What they are meant to do. -/
def sets (s : ι → Set Nat) (ops : List (ι × BitOp)) : ι → Set Nat :=
  ops.foldl (fun s o => Function.update s o.1 (o.2.on (s o.1))) s

/-- The bits that are set in the memory are those of the sets. -/
structure Holds (m : Bitmaps) (s : ι → Set Nat) : Prop where
  bits : ∀ p, m.bit p = true ↔ ∃ b, ∃ i ∈ s b, p = 8 * l.name b + i
  below : ∀ b, ∀ i ∈ s b, i < l.nbits b

variable {l} {m : Bitmaps} {s : ι → Set Nat}

omit [DecidableEq ι] in
/-- A position in one bitstring is in no other. -/
theorem same_of_pos {b c : ι} {i j : Nat} (hi : i < 8 * bitstrSize (l.nbits b))
    (hj : j < l.nbits c) (h : 8 * l.name b + i = 8 * l.name c + j) :
    b = c ∧ i = j := by
  have hpos := l.pos c
  rw [bitstrSize_eq (l.pos b)] at hi
  by_cases hbc : b = c
  · rw [← hbc] at h
    exact ⟨hbc, by omega⟩
  · have hapart := l.apart b c hbc
    rw [bitstrSize_eq (l.pos b), bitstrSize_eq (l.pos c)] at hapart
    omega

omit [DecidableEq ι] in
theorem lt_size (l : Layout ι) {b : ι} {i : Nat} (hi : i < l.nbits b) :
    i < 8 * bitstrSize (l.nbits b) := by
  rw [bitstrSize_eq (l.pos b)]
  omega

omit [DecidableEq ι] in
/-- A bit of a bitstring, the bits that fill its last byte included. -/
theorem Holds.mem (h : l.Holds m s) {b : ι} {i : Nat}
    (hi : i < 8 * bitstrSize (l.nbits b)) :
    m.bit (8 * l.name b + i) = true ↔ i ∈ s b := by
  rw [h.bits]
  constructor
  · rintro ⟨c, j, hj, heq⟩
    obtain ⟨rfl, rfl⟩ := same_of_pos hi (h.below c j hj) heq
    exact hj
  · exact fun hmem => ⟨b, i, hmem, rfl⟩

/-- What is held is held after any operation. -/
theorem Holds.op (h : l.Holds m s) {b : ι} {op : BitOp}
    (hop : op.Within (l.nbits b)) :
    l.Holds (op.run m (l.name b))
      (Function.update s b (op.on (s b))) := by
  have hnext : ∀ c i, i ∈ Function.update s b (op.on (s b)) c
      ↔ if c = b then i ∈ op.on (s b) else i ∈ s c := by
    intro c i
    by_cases hc : c = b
    · rw [hc, if_pos rfl, Function.update_self]
    · rw [if_neg hc, Function.update_of_ne hc]
  have hon : ∀ i < l.nbits b, i ∈ op.on {j | m.bit (8 * l.name b + j) = true}
      ↔ i ∈ op.on (s b) := by
    intro i hi
    have hsame : i ∈ {j | m.bit (8 * l.name b + j) = true} ↔ i ∈ s b :=
      h.mem (l.lt_size hi)
    cases op with
    | set bit => exact or_congr Iff.rfl hsame
    | clear bit => exact and_congr hsame Iff.rfl
    | nset start stop => exact or_congr hsame Iff.rfl
    | nclear start stop => exact and_congr hsame Iff.rfl
  refine ⟨?_, ?_⟩
  · intro p
    by_cases hp : p < 8 * l.name b ∨ 8 * l.name b + l.nbits b ≤ p
    · -- the bit is not one of this bitstring
      rw [BitOp.run_other hop m hp, h.bits]
      constructor
      · rintro ⟨c, i, hi, rfl⟩
        refine ⟨c, i, (hnext c i).mpr ?_, rfl⟩
        have hc : c ≠ b := by
          rintro rfl
          have := h.below c i hi
          omega
        rw [if_neg hc]
        exact hi
      · rintro ⟨c, i, hi, rfl⟩
        rw [hnext] at hi
        by_cases hc : c = b
        · rw [if_pos hc] at hi
          have := BitOp.on_below hop (h.below b) i hi
          rw [hc] at hp
          omega
        · rw [if_neg hc] at hi
          exact ⟨c, i, hi, rfl⟩
    · have hin : p = 8 * l.name b + (p - 8 * l.name b) := by omega
      have hlt : p - 8 * l.name b < l.nbits b := by omega
      generalize p - 8 * l.name b = i at hin hlt
      rw [hin, BitOp.run_bit hop, hon i hlt]
      constructor
      · intro hi
        exact ⟨b, i, (hnext b i).mpr (by rw [if_pos rfl]; exact hi), rfl⟩
      · rintro ⟨c, j, hj, heq⟩
        have hj' : j < l.nbits c := by
          rw [hnext] at hj
          by_cases hc : c = b
          · rw [if_pos hc] at hj
            rw [hc]
            exact BitOp.on_below hop (h.below b) j hj
          · rw [if_neg hc] at hj
            exact h.below c j hj
        obtain ⟨rfl, rfl⟩ := same_of_pos (l.lt_size hlt) hj' heq
        rw [hnext, if_pos rfl] at hj
        exact hj
  · intro c i hi
    rw [hnext] at hi
    by_cases hc : c = b
    · rw [if_pos hc] at hi
      rw [hc]
      exact BitOp.on_below hop (h.below b) i hi
    · rw [if_neg hc] at hi
      exact h.below c i hi

theorem Holds.run (h : l.Holds m s) {ops : List (ι × BitOp)}
    (hops : ∀ o ∈ ops, o.2.Within (l.nbits o.1)) :
    l.Holds (l.run m ops) (sets s ops) := by
  induction ops generalizing m s with
  | nil => exact h
  | cons o ops ih =>
      exact ih (h.op (hops o List.mem_cons_self))
        fun o' ho' => hops o' (List.mem_cons_of_mem o ho')

omit [DecidableEq ι] in
theorem holds_zero (l : Layout ι) : l.Holds .zero fun _ => ∅ := by
  refine ⟨?_, fun b i hi => absurd hi (Set.notMem_empty i)⟩
  intro p
  rw [bit_zero]
  constructor
  · intro h
    cases h
  · rintro ⟨b, i, hi, -⟩
    exact absurd hi (Set.notMem_empty i)

end Layout

-- ======================================================== the searches

/-- The first number below a smaller bound. -/
theorem firstIn_iff {s : Set Nat} {n N : Nat} (hn : n ≤ N) {v : Int}
    (h : FirstIn s N v) :
    FirstIn s n v ↔ (∃ i < n, i ∈ s) ∨ ∀ i, n ≤ i → i < N → i ∉ s := by
  constructor
  · rintro (⟨i, hi, -, his, -⟩ | ⟨hv, -⟩)
    · exact Or.inl ⟨i, hi, his⟩
    · rcases h with ⟨i, -, hv', -⟩ | ⟨-, hnone⟩
      · omega
      · exact Or.inr fun i _ hi => hnone i hi
  · intro hor
    rcases h with ⟨i, hi, hv, his, hleast⟩ | ⟨hv, hnone⟩
    · rcases hor with ⟨j, hj, hjs⟩ | hbeyond
      · have hij : i ≤ j := by
          by_contra hlt
          exact hleast j (by omega) hjs
        exact Or.inl ⟨i, by omega, hv, his, hleast⟩
      · refine Or.inl ⟨i, ?_, hv, his, hleast⟩
        by_contra hge
        exact hbeyond i (by omega) hi his
    · exact Or.inr ⟨hv, fun i hi => hnone i (by omega)⟩

theorem firstIn_congr {s t : Set Nat} {n : Nat} {v : Int}
    (h : ∀ i < n, i ∈ s ↔ i ∈ t) : FirstIn s n v ↔ FirstIn t n v := by
  have hside : ∀ {s t : Set Nat}, (∀ i < n, i ∈ s ↔ i ∈ t) →
      FirstIn s n v → FirstIn t n v := by
    rintro s t h (⟨i, hi, hv, his, hleast⟩ | ⟨hv, hnone⟩)
    · exact Or.inl ⟨i, hi, hv, (h i hi).mp his,
        fun j hj hjt => hleast j hj ((h j (by omega)).mpr hjt)⟩
    · exact Or.inr ⟨hv, fun i hi hit => hnone i hi ((h i hi).mpr hit)⟩
  exact ⟨hside h, hside fun i hi => (h i hi).symm⟩

namespace Layout

variable {ι : Type} {l : Layout ι} {m : Bitmaps} {s : ι → Set Nat}

/-- The byte that bit `nbits` is in. -/
def last (l : Layout ι) (m : Bitmaps) (b : ι) : UInt8 :=
  m.byte (l.name b + l.nbits b / 8)

/-- The bits from bit `nbits` to the end of its byte. -/
theorem Holds.beyond (h : l.Holds m s) (b : ι) (v : Bool) :
    (∀ i, l.nbits b ≤ i → i < 8 * (l.nbits b / 8 + 1) →
        m.bit (8 * l.name b + i) = v)
      ↔ if l.nbits b % 8 = 0 then (l.last m b).toNat = flatByte v
        else v = false := by
  by_cases hn : l.nbits b % 8 = 0
  · rw [if_pos hn, last, eq_flatByte_iff]
    have hbit : ∀ j < 8, (m.byte (l.name b + l.nbits b / 8)).toNat.testBit j
        = m.bit (8 * l.name b + (l.nbits b + j)) := by
      intro j hj
      have hbyte : (8 * l.name b + (l.nbits b + j)) / 8
          = l.name b + l.nbits b / 8 := by omega
      have hmod : (8 * l.name b + (l.nbits b + j)) % 8 = j := by omega
      rw [← testBit_byte hbyte, hmod]
    constructor
    · intro hall j hj
      rw [hbit j hj]
      exact hall (l.nbits b + j) (by omega) (by omega)
    · intro hall i hge hlt
      have hj := hall (i - l.nbits b) (by omega)
      rw [hbit _ (by omega)] at hj
      rw [← hj]
      congr 2
      omega
  · rw [if_neg hn]
    -- these bits fill the last byte up, and are never set
    have hclear : ∀ i, l.nbits b ≤ i → i < 8 * (l.nbits b / 8 + 1) →
        m.bit (8 * l.name b + i) = false := by
      intro i hge hlt
      rw [← Bool.not_eq_true, h.mem (by rw [bitstrSize_eq (l.pos b)]; omega)]
      intro hi
      have := h.below b i hi
      omega
    constructor
    · intro hall
      have hfirst := hall (l.nbits b) (Nat.le_refl _) (by omega)
      rw [← hfirst]
      exact hclear _ (Nat.le_refl _) (by omega)
    · rintro rfl
      exact hclear

/-- What a search finds is the first of the bits it is for, unless there
is none, and the byte that bit `nbits` is in has one behind them. -/
theorem Holds.search (h : l.Holds m s) (b : ι) {low : Nat} (hlow : low < 2)
    {t : Set Nat} (ht : ∀ i < l.nbits b, i ∈ t
      ↔ m.bit (8 * l.name b + i) ≠ (low == 1)) :
    ∃ v, bitSearch m (l.name b) (flatByte (low == 1)) low
        (bitByte (l.nbits b) + 1) 0 = some v
      ∧ (FirstIn t (l.nbits b) v
        ↔ (∃ i < l.nbits b, i ∈ t)
          ∨ if l.nbits b % 8 = 0 then
              (l.last m b).toNat = flatByte (low == 1)
            else (low == 1) = false) := by
  obtain ⟨v, hsearch, hfirst⟩ := bitSearch_first hlow m (l.name b)
    (bitByte (l.nbits b) + 1) 0 (by intro i hi; omega)
  refine ⟨v, hsearch, ?_⟩
  rw [Nat.zero_add, bitByte_eq] at hfirst
  have hset : FirstIn t (l.nbits b) v
      ↔ FirstIn {i | m.bit (8 * l.name b + i) ≠ (low == 1)} (l.nbits b) v :=
    firstIn_congr ht
  rw [hset, firstIn_iff (by omega) hfirst, ← h.beyond b]
  refine or_congr ?_ ?_
  · constructor
    · rintro ⟨i, hi, hmem⟩
      exact ⟨i, hi, (ht i hi).mpr hmem⟩
    · rintro ⟨i, hi, hmem⟩
      exact ⟨i, hi, (ht i hi).mp hmem⟩
  · constructor
    · intro hall i hge hlt
      exact not_not.mp (hall i hge hlt)
    · intro hall i hge hlt
      exact not_not.mpr (hall i hge hlt)

/-- **Bitstrings as sets.** Whatever is done to bitstrings beside one
another that were allocated together, as long as each operation keeps
within its bitstring, `bit_test` finds in each what a set would have.
`bit_ffs` does not where the set is empty, its size is a multiple of
eight, and the byte behind it is not zero; and `bit_ffc` does not where
the set is full, unless its size is a multiple of eight and the byte
behind it is full too. -/
theorem bitstrings_as_sets [DecidableEq ι] (l : Layout ι)
    (ops : List (ι × BitOp))
    (hops : ∀ o ∈ ops, o.2.Within (l.nbits o.1)) (b : ι) :
    (∀ i < l.nbits b, bitTest (l.run .zero ops) (l.name b) i = true
        ↔ i ∈ sets (fun _ => ∅) ops b)
      ∧ (∃ v, bitFfs (l.run .zero ops) (l.name b) (l.nbits b) = some v
        ∧ (FirstIn (sets (fun _ => ∅) ops b) (l.nbits b) v
          ↔ (∃ i, i ∈ sets (fun _ => ∅) ops b) ∨ l.nbits b % 8 ≠ 0
            ∨ l.last (l.run .zero ops) b = 0))
      ∧ ∃ v, bitFfc (l.run .zero ops) (l.name b) (l.nbits b) = some v
        ∧ (FirstIn {i | i ∉ sets (fun _ => ∅) ops b} (l.nbits b) v
          ↔ (∃ i < l.nbits b, i ∉ sets (fun _ => ∅) ops b)
            ∨ l.nbits b % 8 = 0 ∧ l.last (l.run .zero ops) b = 0xff) := by
  have hholds := (holds_zero l).run hops
  generalize l.run .zero ops = m at hholds
  generalize sets (fun _ => ∅) ops = s at hholds
  have hmem : ∀ i < l.nbits b, m.bit (8 * l.name b + i) = true ↔ i ∈ s b :=
    fun i hi => hholds.mem (l.lt_size hi)
  have hlast : ∀ x : UInt8, (l.last m b).toNat = x.toNat ↔ l.last m b = x :=
    fun x => UInt8.toNat_inj
  refine ⟨fun i hi => ?_, ?_, ?_⟩
  · rw [bitTest_eq]
    exact hmem i hi
  · obtain ⟨v, hsearch, hfirst⟩ := hholds.search b (show 0 < 2 by decide)
      (t := s b) fun i hi => by
        rw [← hmem i hi, Ne, show ((0 : Nat) == 1) = false from rfl,
          Bool.not_eq_false]
    refine ⟨v, hsearch, hfirst.trans (or_congr ?_ ?_)⟩
    · constructor
      · rintro ⟨i, -, hi⟩
        exact ⟨i, hi⟩
      · rintro ⟨i, hi⟩
        exact ⟨i, hholds.below b i hi, hi⟩
    · rw [← hlast]
      by_cases hn : l.nbits b % 8 = 0
      · rw [if_pos hn]
        exact ⟨Or.inr, fun h => h.resolve_left fun hne => hne hn⟩
      · rw [if_neg hn]
        exact ⟨fun _ => Or.inl hn, fun _ => rfl⟩
  · obtain ⟨v, hsearch, hfirst⟩ := hholds.search b (show 1 < 2 by decide)
      (t := {i | i ∉ s b}) fun i hi => by
        show i ∉ s b ↔ _
        rw [← hmem i hi]
        rfl
    refine ⟨v, hsearch, hfirst.trans (or_congr Iff.rfl ?_)⟩
    rw [← hlast]
    by_cases hn : l.nbits b % 8 = 0
    · rw [if_pos hn]
      exact ⟨fun h => ⟨hn, h⟩, And.right⟩
    · rw [if_neg hn]
      exact ⟨fun h => absurd h (by decide), fun h => absurd h.1 hn⟩

end Layout

/-- The hours and the days of the month of an entry. -/
def hourAndDom : Layout Bool where
  name b := if b then domField.name else hourField.name
  nbits b := if b then domCount else hourCount
  pos := by decide
  apart := by decide

/-- In an entry that has the first of the month, and no hour yet, the
first hour is that day. -/
theorem first_hour_is_day :
    bitFfs (hourAndDom.run .zero [(true, .set 0)]) hourField.name hourCount
        = some 24
      ∧ ¬ FirstIn ∅ hourCount 24 := by
  have hsearch : bitFfs (hourAndDom.run .zero [(true, .set 0)])
      hourField.name hourCount = some 24 := by
    decide +kernel
  have hempty : Layout.sets (fun _ => ∅) [(true, BitOp.set 0)] false = ∅ := by
    show Function.update (fun _ : Bool => (∅ : Set Nat)) true
      (BitOp.on ∅ (.set 0)) false = ∅
    exact Function.update_of_ne (by decide) _ _
  obtain ⟨-, ⟨v, hv, hiff⟩, -⟩ :=
    hourAndDom.bitstrings_as_sets [(true, .set 0)] (by
      intro o ho
      rw [List.mem_singleton.mp ho]
      show 0 < domCount
      decide) false
  have hv : (some 24 : Option Int) = some v := hsearch.symm.trans hv
  injection hv with hv
  rw [hempty, ← hv] at hiff
  refine ⟨hsearch, fun hfirst => ?_⟩
  rcases hiff.mp hfirst with ⟨i, hi⟩ | hsize | hlast
  · exact absurd hi (Set.notMem_empty i)
  · exact absurd hsize (by decide)
  · exact absurd hlast (by decide +kernel)

end Tinjac
