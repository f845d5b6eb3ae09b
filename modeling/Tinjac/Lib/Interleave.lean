/-
Processes that take turns: each has a state of its own, and all have one
that they share.

An invariant of a process speaks of its own state and of the shared one.
It holds in every state that can be reached if the process's own steps
keep it, and if it is not disturbed by what the other processes may do
to the shared state (`Keeps`). What they may do is a relation, which
every process guarantees to the others.
-/
import Mathlib.Logic.Function.Basic
import Mathlib.Logic.Relation

namespace Interleave

variable {Pid Own Shared : Type} [DecidableEq Pid]

/-- The states of all processes, and what they share. -/
structure State (Pid Own Shared : Type) where
  own : Pid → Own
  shared : Shared

/-- What a process may do in one step. -/
abbrev Act (Pid Own Shared : Type) : Type :=
  Pid → Own → Shared → Own → Shared → Prop

/-- A step of one of them. -/
inductive Step (act : Act Pid Own Shared) :
    State Pid Own Shared → State Pid Own Shared → Prop
  | step {s : State Pid Own Shared} (p : Pid) {l : Own} {g : Shared}
      (turn : act p (s.own p) s.shared l g) :
      Step act s { own := Function.update s.own p l, shared := g }

/-- Any number of steps, of any processes, in any order. -/
abbrev Steps (act : Act Pid Own Shared) :
    State Pid Own Shared → State Pid Own Shared → Prop :=
  Relation.ReflTransGen (Step act)

/-- An invariant of each process, and what the others leave of it. -/
structure Keeps (act : Act Pid Own Shared) (inv : Pid → Own → Shared → Prop)
    (rely : Pid → Shared → Shared → Prop) : Prop where
  own : ∀ {p l g l' g'}, inv p l g → act p l g l' g' → inv p l' g'
  guarantee : ∀ {p q l g l' g'}, inv p l g → act p l g l' g' → q ≠ p →
    rely q g g'
  stable : ∀ {q l g g'}, inv q l g → rely q g g' → inv q l g'

variable {act : Act Pid Own Shared} {inv : Pid → Own → Shared → Prop}
  {rely : Pid → Shared → Shared → Prop} {s s' : State Pid Own Shared}

theorem Keeps.step (hk : Keeps act inv rely)
    (hinv : ∀ p, inv p (s.own p) s.shared) (hs : Step act s s') :
    ∀ p, inv p (s'.own p) s'.shared := by
  cases hs with
  | @step p l g turn =>
      intro q
      show inv q (Function.update s.own p l q) g
      by_cases hq : q = p
      · rw [hq, Function.update_self]
        exact hk.own (hinv p) turn
      · rw [Function.update_of_ne hq]
        exact hk.stable (hinv q) (hk.guarantee (hinv p) turn hq)

/-- The invariants hold in every state that can be reached. -/
theorem Keeps.steps (hk : Keeps act inv rely)
    (hinv : ∀ p, inv p (s.own p) s.shared) (hs : Steps act s s') :
    ∀ p, inv p (s'.own p) s'.shared := by
  induction hs with
  | refl => exact hinv
  | tail _ hlast ih => exact hk.step ih hlast

/-- So does one of the shared state, if the processes keep it. -/
theorem Keeps.shared (hk : Keeps act inv rely) (all : Shared → Prop)
    (hall : ∀ {p l g l' g'}, inv p l g → all g → act p l g l' g' → all g')
    (hinv : ∀ p, inv p (s.own p) s.shared) (h : all s.shared)
    (hs : Steps act s s') : all s'.shared := by
  induction hs with
  | refl => exact h
  | tail hinit hlast ih =>
      have hbefore := hk.steps hinv hinit
      cases hlast with
      | step p turn => exact hall (hbefore p) ih turn

/-- One process may go on alone. -/
theorem Steps.solo {p : Pid} {l : Own} {g : Shared}
    (h : Relation.ReflTransGen
      (fun x x' : Own × Shared => act p x.1 x.2 x'.1 x'.2)
      (s.own p, s.shared) (l, g)) :
    Steps act s { own := Function.update s.own p l, shared := g } := by
  generalize hx : (l, g) = x at h
  induction h generalizing l g with
  | refl =>
      cases hx
      rw [Function.update_eq_self]
  | @tail b c _ hlast ih =>
      cases hx
      have hbefore := ih (l := b.1) (g := b.2) rfl
      have hturn : act p (Function.update s.own p b.1 p) b.2 l g := by
        rw [Function.update_self]
        exact hlast
      have hstep := @Step.step Pid Own Shared _ act
        { own := Function.update s.own p b.1, shared := b.2 } p l g hturn
      rw [Function.update_idem] at hstep
      exact hbefore.tail hstep

end Interleave
