/-
Jobs done one after the other on a shared state, as long as each comes
back.

`run` is the list of their results. A job has a result of its own at its
place exactly if every job before it comes back, and then it is done on
the state those leave (`run_at`). So whether a job is disturbed by the
jobs before it is a matter of two things: whether they all come back,
and whether what they leave changes the result (`run_at_alone_iff`).
-/
import Mathlib.Data.List.Basic

namespace Batch

variable {σ α β : Type*} (step : σ → α → β × σ) (back : β → Prop)

/-- The results, up to the first of a job that does not come back. -/
def run [DecidablePred back] : σ → List α → List β
  | _, [] => []
  | s, a :: as =>
      (step s a).1 :: if back (step s a).1 then run (step s a).2 as else []

/-- The state the jobs leave. -/
def after : σ → List α → σ
  | s, [] => s
  | s, a :: as => after (step s a).2 as

/-- All the jobs come back. -/
def AllBack : σ → List α → Prop
  | _, [] => True
  | s, a :: as => back (step s a).1 ∧ AllBack (step s a).2 as

variable {step back}

@[simp] theorem after_cons (s : σ) (a : α) (as : List α) :
    after step s (a :: as) = after step (step s a).2 as := rfl

@[simp] theorem allBack_cons (s : σ) (a : α) (as : List α) :
    AllBack step back s (a :: as)
      ↔ back (step s a).1 ∧ AllBack step back (step s a).2 as := Iff.rfl

variable [DecidablePred back]

/-- **A job's result** at its place. -/
theorem run_at {as bs : List α} {a : α} (s : σ) (r : β) :
    (run step back s (as ++ a :: bs))[as.length]? = some r
      ↔ AllBack step back s as ∧ r = (step (after step s as) a).1 := by
  induction as generalizing s with
  | nil =>
      show some (step s a).1 = some r ↔ True ∧ r = (step s a).1
      rw [Option.some.injEq, true_and]
      exact eq_comm
  | cons b as ih =>
      rw [List.cons_append, List.length_cons, run, List.getElem?_cons_succ]
      by_cases hback : back (step s b).1
      · rw [if_pos hback, ih, allBack_cons, and_iff_right hback, after_cons]
      · rw [if_neg hback]
        refine iff_of_false ?_ (fun h => hback h.1.1)
        exact fun h => by cases h

theorem run_alone (s : σ) (a : α) :
    run step back s [a] = [(step s a).1] := by
  unfold run
  split
  · rfl
  · rfl

/-- **A job is not disturbed** by those before it iff they come back and
what they leave does not change its result. -/
theorem run_at_alone_iff {as bs : List α} {a : α} (s : σ) :
    (run step back s (as ++ a :: bs))[as.length]?
        = (run step back s [a])[0]?
      ↔ AllBack step back s as
        ∧ (step s a).1 = (step (after step s as) a).1 := by
  rw [run_alone]
  exact run_at s (step s a).1

end Batch
