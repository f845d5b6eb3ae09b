/-
Arithmetic progressions with an upper bound: `first`, `first + step`,
`first + 2 * step`, ... as far as `last`.

This is what a loop `for (i = first; i <= last; i += step)` visits. The
two lemmas a proof by the loop's own recursion needs are what it visits
when its test holds (`steps_cons`) and when it does not (`steps_empty`).
-/
import Mathlib.Data.Int.Order.Basic
import Mathlib.Tactic.Ring

namespace Progression

/-- `v` is `first`, or some `step`s behind it, and not above `last`. -/
def Steps (first last step v : Int) : Prop :=
  ∃ k : Nat, v = first + k * step ∧ v ≤ last

variable {first last step v : Int}

theorem steps_le_last (h : Steps first last step v) : v ≤ last := by
  obtain ⟨k, -, hle⟩ := h
  exact hle

theorem first_le_steps (hstep : 0 ≤ step) (h : Steps first last step v) :
    first ≤ v := by
  obtain ⟨k, hv, -⟩ := h
  have hk : 0 ≤ (k : Int) * step :=
    Int.mul_nonneg (Int.natCast_nonneg k) hstep
  omega

/-- A first element, and the progression from the next one on. -/
theorem steps_cons (hle : first ≤ last) :
    Steps first last step v
      ↔ v = first ∨ Steps (first + step) last step v := by
  constructor
  · intro ⟨k, hv, hlast⟩
    cases k with
    | zero =>
        refine Or.inl ?_
        rw [hv]
        simp
    | succ k =>
        refine Or.inr ⟨k, ?_, hlast⟩
        rw [hv]
        push_cast
        ring
  · intro h
    rcases h with hv | ⟨k, hv, hlast⟩
    · refine ⟨0, ?_, ?_⟩
      · rw [hv]
        simp
      · omega
    · refine ⟨k + 1, ?_, hlast⟩
      rw [hv]
      push_cast
      ring

/-- Nothing, if the first element is above the bound. -/
theorem steps_empty (hstep : 0 ≤ step) (hlt : last < first) :
    ¬ Steps first last step v := by
  intro h
  have hfirst := first_le_steps hstep h
  have hlast := steps_le_last h
  omega

/-- The number of steps, if there is one. -/
theorem steps_iff : Steps first last step v
    ↔ v = first + ((v - first) / step).toNat * step ∧ v ≤ last := by
  constructor
  · rintro ⟨k, hv, hlast⟩
    refine ⟨?_, hlast⟩
    have hsub : v - first = k * step := by omega
    rcases eq_or_ne step 0 with rfl | hstep
    · omega
    · rw [hsub, Int.mul_ediv_cancel _ hstep, Int.toNat_natCast]
      exact hv
  · rintro ⟨hv, hlast⟩
    exact ⟨_, hv, hlast⟩

instance : Decidable (Steps first last step v) :=
  decidable_of_iff _ steps_iff.symm

end Progression
