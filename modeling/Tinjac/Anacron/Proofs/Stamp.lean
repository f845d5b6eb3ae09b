/-
A time stamp reads back as the day that was written.

This holds up to the year 9999; the stamp of a later year has a digit
too many, and its first eight bytes are another date or none.
-/
import Tinjac.Anacron.Model.Lock
import Mathlib.Data.Nat.Digits.Lemmas

namespace Tinjac.Anacron

open Tinjac.Crond (isSpace)

/-- The character of a digit. -/
def digitChar (d : Nat) : UInt8 := (48 + d).toUInt8

theorem digitChar_spec : ∀ d < 10, isDigit (digitChar d) = true
    ∧ (digitChar d).toNat - 48 = d := by
  decide

/-- The digits of a number, the first of them first. -/
theorem digitsValue_reverse (ds : List Nat) (h : ∀ d ∈ ds, d < 10) :
    digitsValue (ds.reverse.map digitChar) = Nat.ofDigits 10 ds := by
  unfold digitsValue
  rw [List.map_reverse, List.foldl_reverse]
  induction ds with
  | nil => rfl
  | cons d ds ih =>
      rw [List.map_cons, List.foldr_cons,
        ih fun d' hd' => h d' (List.mem_cons_of_mem d hd'),
        (digitChar_spec d (h d List.mem_cons_self)).2, Nat.ofDigits_cons]
      exact Nat.add_comm _ _

/-- Leading zeros do not count. -/
theorem digitsValue_zeros (k : Nat) (l : List UInt8) :
    digitsValue (List.replicate k 48 ++ l) = digitsValue l := by
  unfold digitsValue
  rw [List.foldl_append]
  congr 1
  induction k with
  | zero => rfl
  | succ k ih =>
      rw [List.replicate_succ, List.foldl_cons]
      exact ih

/-- The digits of a number that fits its width, filled up with zeros in
front. -/
structure IsPadded (width n : Nat) (l : List UInt8) : Prop where
  length : l.length = width
  digits : ∀ c ∈ l, isDigit c = true
  value : digitsValue l = n

theorem padded_spec {width n : Nat} (h : n < 10 ^ width) :
    IsPadded width n (padded width n) := by
  have hlt : ∀ d ∈ Nat.digits 10 n, d < 10 := fun d hd =>
    Nat.digits_lt_base (by decide) hd
  have hle : (Nat.digits 10 n).length ≤ width :=
    (Nat.digits_length_le_iff (by decide) n).mpr h
  have hmap : ((Nat.digits 10 n).reverse.map fun d => (48 + d).toUInt8)
      = (Nat.digits 10 n).reverse.map digitChar := rfl
  unfold padded
  rw [hmap]
  refine ⟨?_, ?_, ?_⟩
  · rw [List.length_append, List.length_replicate, List.length_map,
      List.length_reverse]
    omega
  · intro c hc
    rcases List.mem_append.mp hc with hc | hc
    · rw [(List.mem_replicate.mp hc).2]
      decide
    · obtain ⟨d, hd, rfl⟩ := List.mem_map.mp hc
      exact (digitChar_spec d (hlt d (List.mem_reverse.mp hd))).1
  · rw [digitsValue_zeros, digitsValue_reverse _ hlt, Nat.ofDigits_digits]

theorem isSpace_of_isDigit {c : UInt8} (h : isDigit c = true) :
    isSpace c = false ∧ c ≠ dash ∧ c ≠ 43 ∧ c ≠ nul := by
  have hrange : 48 ≤ c.toNat ∧ c.toNat ≤ 57 := by
    unfold isDigit at h
    rw [Bool.and_eq_true, decide_eq_true_eq, decide_eq_true_eq,
      UInt8.le_iff_toNat_le, UInt8.le_iff_toNat_le] at h
    exact h
  have hne : ∀ x : UInt8, isDigit x = false → c ≠ x := by
    rintro x hx rfl
    rw [h] at hx
    cases hx
  refine ⟨?_, hne dash (by decide), hne 43 (by decide), hne nul (by decide)⟩
  unfold isSpace
  rw [Bool.or_eq_false_iff, beq_eq_false_iff_ne]
  refine ⟨hne space (by decide), ?_⟩
  rw [Bool.and_eq_false_iff, decide_eq_false_iff_not,
    decide_eq_false_iff_not, UInt8.le_iff_toNat_le, UInt8.le_iff_toNat_le]
  refine Or.inr fun hle => ?_
  have hle : c.toNat ≤ 13 := hle
  omega

/-- A padded number is scanned, whatever is behind it. -/
theorem scanInt_padded {width n : Nat} {l rest : List UInt8}
    (h : IsPadded width n l) (hpos : 0 < width) :
    scanInt width (l ++ rest) = some ((n : Int), rest) := by
  have hscan : scanDigits width (l ++ rest) = some (n, rest) := by
    have htake : ((l ++ rest).take width).takeWhile isDigit = l := by
      rw [← h.length, List.take_left, List.takeWhile_eq_self_iff]
      exact h.digits
    unfold scanDigits
    rw [htake]
    dsimp only
    rw [List.drop_left, h.value, if_neg]
    intro hnil
    have hzero := h.length
    rw [hnil] at hzero
    exact absurd hzero (Nat.ne_of_lt hpos)
  cases l with
  | nil =>
      have hzero := h.length
      exact absurd hzero (Nat.ne_of_lt hpos)
  | cons c l =>
      obtain ⟨hspace, hdash, hplus, -⟩ :=
        isSpace_of_isDigit (h.digits c List.mem_cons_self)
      unfold scanInt
      rw [List.cons_append, List.dropWhile_cons_of_neg (by rw [hspace]; simp)]
      dsimp only
      rw [if_neg hdash, if_neg hplus, ← List.cons_append, hscan]
      rfl

/-- A date whose stamp is read back: its year has four digits at most, its
month and its day have two. -/
structure Date.Fits (d : Date) : Prop where
  year : d.year < 10000
  month : d.month < 100
  day : d.day < 100

theorem stampDay_stamp {d : Date} (h : d.Fits) :
    stampDay ((stamp d).take 8) = d.dayNum
      ∧ ((stamp d).take 8).length = 8 := by
  have hy := padded_spec (show d.year < 10 ^ 4 from h.year)
  have hm := padded_spec (show d.month < 10 ^ 2 from h.month)
  have hd := padded_spec (show d.day < 10 ^ 2 from h.day)
  have hlength : (padded 4 d.year ++ padded 2 d.month
      ++ padded 2 d.day).length = 8 := by
    rw [List.length_append, List.length_append, hy.length, hm.length,
      hd.length]
  have htake : (stamp d).take 8
      = padded 4 d.year ++ padded 2 d.month ++ padded 2 d.day := by
    unfold stamp
    rw [List.take_take, show min 8 9 = 8 from rfl, ← hlength,
      List.take_left]
  have hnul : ((padded 4 d.year ++ padded 2 d.month
      ++ padded 2 d.day).takeWhile (· != nul))
      = padded 4 d.year ++ (padded 2 d.month ++ (padded 2 d.day ++ [])) := by
    rw [List.append_nil, ← List.append_assoc, List.takeWhile_eq_self_iff]
    intro c hc
    have hdigit : isDigit c = true := by
      rcases List.mem_append.mp hc with hc | hc
      · rcases List.mem_append.mp hc with hc | hc
        · exact hy.digits c hc
        · exact hm.digits c hc
      · exact hd.digits c hc
    exact bne_iff_ne.mpr (isSpace_of_isDigit hdigit).2.2.2
  rw [htake]
  refine ⟨?_, hlength⟩
  unfold stampDay
  rw [hnul]
  dsimp only
  rw [scanInt_padded hy (by decide)]
  dsimp only [Option.bind_some]
  rw [scanInt_padded hm (by decide)]
  dsimp only [Option.bind_some]
  rw [scanInt_padded hd (by decide)]
  rfl

end Tinjac.Anacron
