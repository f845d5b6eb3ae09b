/-
What `glue_strings` stores.

Both copying loops store what still fits of their string
(`glueCopy_eq`), so the cursor meets the end of the buffer exactly when
the strings do not fit, and each of the four tests of the end asks
whether they do so far. `glueStrings_cases` is the whole of it: nothing
is stored behind the buffer, success means that string, separator,
string and NUL fit, and then they are what was stored.
-/
import Tinjac.Model.Env

namespace Tinjac

-- ====================================================== what is wanted

/-- The separator between the two strings: a `/` is not doubled. -/
def glueSeparator (a : List UInt8) (separator : UInt8) : List UInt8 :=
  if separator = slash ∧ a ≠ [] ∧ a.getLast? = some slash then []
  else [separator]

/-- The two strings, glued, and the NUL that ends them. -/
def glued (a b : List UInt8) (separator : UInt8) : List UInt8 :=
  a ++ glueSeparator a separator ++ b ++ [nul]

-- ====================================================== what is stored

/-- A copying loop stores what still fits. -/
theorem glueCopy_eq (n : Nat) (buf s : List UInt8) (h : buf.length ≤ n) :
    glueCopy n buf s = buf ++ s.take (n - buf.length) := by
  induction s generalizing buf with
  | nil => simp [glueCopy]
  | cons c s ih =>
      rw [glueCopy]
      by_cases hroom : buf.length < n
      · obtain ⟨k, hk⟩ : ∃ k, n - buf.length = k + 1 :=
          ⟨n - buf.length - 1, by omega⟩
        have hlen : (buf ++ [c]).length = buf.length + 1 := by simp
        have hleft : n - (buf ++ [c]).length = k := by omega
        rw [if_pos hroom, ih (buf ++ [c]) (by omega), hleft, hk,
          List.take_succ_cons, List.append_assoc]
        rfl
      · rw [if_neg hroom, Nat.sub_eq_zero_of_le (by omega), List.take_zero,
          List.append_nil]

theorem glueCopy_length (n : Nat) (buf s : List UInt8)
    (h : buf.length ≤ n) :
    (glueCopy n buf s).length = min (buf.length + s.length) n := by
  rw [glueCopy_eq n buf s h, List.length_append, List.length_take]
  omega

/-- A loop that does not reach the end of the buffer copied all of its
string. -/
theorem glueCopy_fits {n : Nat} {buf s : List UInt8} (h : buf.length ≤ n)
    (hne : (glueCopy n buf s).length ≠ n) : glueCopy n buf s = buf ++ s := by
  have hlen := glueCopy_length n buf s h
  rw [glueCopy_eq n buf s h, List.take_of_length_le (by omega)]

/-- The separator that is stored behind the first string. -/
theorem glueSeparator_eq (a : List UInt8) (separator : UInt8) :
    (if separator ≠ slash ∨ a = [] ∨ a.getLast? ≠ some slash then
        a ++ [separator] else a)
      = a ++ glueSeparator a separator := by
  unfold glueSeparator
  by_cases h : separator = slash ∧ a ≠ [] ∧ a.getLast? = some slash
  · have hno : ¬ (separator ≠ slash ∨ a = [] ∨ a.getLast? ≠ some slash) := by
      intro hor
      rcases hor with h1 | h2 | h3
      · exact h1 h.1
      · exact h.2.1 h2
      · exact h3 h.2.2
    rw [if_pos h, if_neg hno, List.append_nil]
  · have hyes : separator ≠ slash ∨ a = [] ∨ a.getLast? ≠ some slash := by
      by_contra hno
      rw [not_or, not_or, not_not, not_not] at hno
      exact h hno
    rw [if_neg h, if_pos hyes]

theorem glued_length (a b : List UInt8) (separator : UInt8) :
    (glued a b separator).length
      = (a ++ glueSeparator a separator).length + b.length + 1 := by
  unfold glued
  simp only [List.length_append, List.length_singleton]

theorem glueSeparator_length (a : List UInt8) (separator : UInt8) :
    (glueSeparator a separator).length ≤ 1 := by
  unfold glueSeparator
  split
  · exact Nat.zero_le 1
  · exact Nat.le_refl 1

/-- How `glue_strings` ends: with everything stored, or with nothing
behind the buffer and too little room. -/
theorem glueStrings_cases (n : Nat) (a b : List UInt8)
    (separator : UInt8) :
    ((glued a b separator).length ≤ n
        ∧ glueStrings n a b separator = (true, glued a b separator))
      ∨ (n < (glued a b separator).length
        ∧ ∃ buf, glueStrings n a b separator = (false, buf)
          ∧ buf.length ≤ n) := by
  have hlen := glued_length a b separator
  have hsep : (a ++ glueSeparator a separator).length
      = a.length + (glueSeparator a separator).length :=
    List.length_append
  have hone := glueSeparator_length a separator
  unfold glueStrings
  by_cases hzero : n ≤ 0
  · rw [if_pos hzero]
    exact Or.inr ⟨by omega, [], rfl, Nat.zero_le n⟩
  · rw [if_neg hzero]
    have hcopy := glueCopy_length n [] a (Nat.zero_le n)
    rw [List.length_nil, Nat.zero_add] at hcopy
    dsimp only
    by_cases hfirst : (glueCopy n [] a).length = n
    · -- the first string fills the buffer
      rw [if_pos hfirst]
      exact Or.inr ⟨by omega, _, rfl, by omega⟩
    · rw [if_neg hfirst, glueCopy_fits (Nat.zero_le n) hfirst,
        List.nil_append, glueSeparator_eq]
      have hroom : (a ++ glueSeparator a separator).length ≤ n := by omega
      by_cases hmiddle : (a ++ glueSeparator a separator).length = n
      · -- the separator takes the last byte
        rw [if_pos hmiddle]
        exact Or.inr ⟨by omega, _, rfl, hroom⟩
      · rw [if_neg hmiddle]
        have hcopy2 :=
          glueCopy_length n (a ++ glueSeparator a separator) b hroom
        by_cases hlast :
            (glueCopy n (a ++ glueSeparator a separator) b).length = n
        · -- the second string leaves no room for the NUL
          rw [if_pos hlast]
          exact Or.inr ⟨by omega, _, rfl, by omega⟩
        · rw [if_neg hlast, glueCopy_fits hroom hlast]
          exact Or.inl ⟨by omega, rfl⟩

/-- **`glue_strings`** stores below the end of the buffer only, succeeds
iff the strings fit with their separator and NUL, and then they are what
it stored. -/
theorem glueStrings_exact (bufferSize : Nat) (a b : CString)
    (separator : UInt8) :
    (glueStrings bufferSize a.bytes b.bytes separator).2.length
        ≤ bufferSize
      ∧ ((glueStrings bufferSize a.bytes b.bytes separator).1 = true
        ↔ (glued a.bytes b.bytes separator).length ≤ bufferSize)
      ∧ ((glueStrings bufferSize a.bytes b.bytes separator).1 = true →
        (glueStrings bufferSize a.bytes b.bytes separator).2
          = glued a.bytes b.bytes separator) := by
  rcases glueStrings_cases bufferSize a.bytes b.bytes separator with
    ⟨hfits, heq⟩ | ⟨hlong, buf, heq, hbuf⟩
  · rw [heq]
    exact ⟨hfits, iff_of_true rfl hfits, fun _ => rfl⟩
  · rw [heq]
    refine ⟨hbuf, iff_of_false ?_ (by omega), ?_⟩
    · intro h
      cases h
    · intro h
      cases h

end Tinjac
