/-
Once in each period: a rule that looks at the lengths of two.

The days are numbered, and fall into periods of the lengths `len 0`,
`len 1`, and so on. Every day it is decided whether to act, by how many
days ago that was the last time: if it is as many as the period before
had days, or exactly as many as this one has (`Rule`).

So it is done in each period, once it was done in one (`in_next`): if
the day of the last time comes again in this period, then on that day,
and if this period is too short for that, because of the second half of
the rule. Twice in a period is at least as many days apart as the period
before had (`apart`); and if there are that many days left, it is done
again (`again`).
-/
import Mathlib.Data.Nat.Find
import Mathlib.Order.Monotone.Basic
import Mathlib.Order.Interval.Set.Defs

namespace Periods

variable (len : Nat → Nat)

/-- The first day of a period. -/
def start : Nat → Nat
  | 0 => 0
  | i + 1 => start i + len i

/-- A day of a period. -/
def Within (i day : Nat) : Prop := start len i ≤ day ∧ day < start len (i + 1)

/-- The last time before a day. -/
structure Last (acts : Nat → Prop) (r day : Nat) : Prop where
  did : acts r
  before : r < day
  none : ∀ k, r < k → k < day → ¬ acts k

/-- The rule is followed on the days of a period. -/
def Rule (acts : Nat → Prop) (i : Nat) : Prop :=
  ∀ day r, Within len (i + 1) day → Last acts r day →
    (acts day ↔ len i ≤ day - r ∨ day - r = len (i + 1))

variable {len} {acts : Nat → Prop} {i : Nat}

/-- Later periods start later. -/
theorem start_mono (len : Nat → Nat) : Monotone (start len) :=
  monotone_nat_of_le_succ fun i => Nat.le_add_right (start len i) (len i)

/-- There is a last time, if there is one. -/
theorem exists_last {a day : Nat} (ha : acts a) (hlt : a < day) :
    ∃ r, a ≤ r ∧ Last acts r day := by
  classical
  induction hn : day - a using Nat.strong_induction_on generalizing a with
  | _ n ih =>
      by_cases hmore : ∃ b, a < b ∧ b < day ∧ acts b
      · obtain ⟨b, hab, hb, hacts⟩ := hmore
        obtain ⟨r, hr, hlast⟩ := ih (day - b) (by omega) hacts hb rfl
        exact ⟨r, by omega, hlast⟩
      · refine ⟨a, Nat.le_refl a, ha, hlt, fun k hk hday hacts => ?_⟩
        exact hmore ⟨k, hk, hday, hacts⟩

/-- What is done in one period is done in the next. -/
theorem in_next (hrule : Rule len acts i) (hle : len i ≤ 2 * len (i + 1))
    {a : Nat} (hin : Within len i a) (ha : acts a) :
    ∃ day, Within len (i + 1) day ∧ acts day := by
  by_contra hno
  have hnone : ∀ day, Within len (i + 1) day → ¬ acts day :=
    fun day hday hacts => hno ⟨day, hday, hacts⟩
  obtain ⟨hstart, hend⟩ := hin
  have hnext : start len (i + 1) = start len i + len i := rfl
  have hafter : start len (i + 2) = start len (i + 1) + len (i + 1) := rfl
  obtain ⟨r, har, hlast⟩ := exists_last ha hend
  have hr := hlast.before
  -- it is still the last time all through the next period
  have hstays : ∀ day, Within len (i + 1) day → Last acts r day := by
    intro day hday
    refine ⟨hlast.did, by have := hday.1; omega, fun k hk hkday hacts => ?_⟩
    by_cases hkstart : k < start len (i + 1)
    · exact hlast.none k hk hkstart hacts
    · exact hnone k ⟨by omega, by have := hday.2; omega⟩ hacts
  by_cases hfits : r + len i < start len (i + 2)
  · have hday : Within len (i + 1) (r + len i) := ⟨by omega, hfits⟩
    refine hnone _ hday ((hrule _ r hday (hstays _ hday)).mpr (Or.inl ?_))
    omega
  · have hday : Within len (i + 1) (r + len (i + 1)) := by
      constructor
      · omega
      · show r + len (i + 1) < start len (i + 2)
        omega
    refine hnone _ hday ((hrule _ r hday (hstays _ hday)).mpr (Or.inr ?_))
    omega

/-- Two times in a period are the last one's length apart. -/
theorem apart (hrule : Rule len acts i) {a b : Nat}
    (ha : Within len (i + 1) a) (hb : Within len (i + 1) b)
    (hacts : acts a) (hacts' : acts b) (hlt : a < b) : len i ≤ b - a := by
  obtain ⟨r, har, hlast⟩ := exists_last hacts hlt
  have hafter : start len (i + 2) = start len (i + 1) + len (i + 1) := rfl
  have hastart := ha.1
  have hbend : b < start len (i + 2) := hb.2
  have hr := hlast.before
  rcases (hrule b r hb hlast).mp hacts' with hle | heq
  · omega
  · omega

/-- And if the period has that many days more, it is done again: a period
that is longer than the one before may see it twice. -/
theorem again (hrule : Rule len acts i) {b : Nat}
    (hb : Within len (i + 1) b) (hacts : acts b) (hlen : 0 < len i)
    (hmore : b + len i < start len (i + 2)) : acts (b + len i) := by
  have hin : Within len (i + 1) (b + len i) :=
    ⟨Nat.le_add_right_of_le hb.1, hmore⟩
  obtain ⟨r, hbr, hlast⟩ := exists_last hacts (Nat.lt_add_of_pos_right hlen)
  have hr := hlast.before
  -- nothing was done in between, since less than that ago it was
  have heq : r = b := by
    by_contra hne
    have hlt : b < r := by omega
    have hend : r < start len (i + 2) := by omega
    have hin' : Within len (i + 1) r := ⟨Nat.le_trans hb.1 hbr, hend⟩
    have hapart := apart hrule hb hin' hacts hlast.did hlt
    omega
  refine (hrule _ r hin hlast).mpr (Or.inl ?_)
  omega

/-- So from one time on it is done in every period in which the rule is
followed. -/
theorem in_each {j : Nat} (hrule : ∀ k, i ≤ k → k < j → Rule len acts k)
    (hle : ∀ k, len k ≤ 2 * len (k + 1)) {a : Nat} (hin : Within len i a)
    (ha : acts a) (hij : i ≤ j) : ∃ day, Within len j day ∧ acts day := by
  induction j, hij using Nat.le_induction with
  | base => exact ⟨a, hin, ha⟩
  | succ j hij ih =>
      obtain ⟨day, hday, hacts⟩ :=
        ih fun k hik hkj => hrule k hik (Nat.lt_succ_of_lt hkj)
      exact in_next (hrule j hij (Nat.lt_succ_self j)) (hle j) hday hacts

end Periods
