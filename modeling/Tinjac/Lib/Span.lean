/-
Splitting a list at the first element that fails a test: the facts about
`takeWhile` and `dropWhile` a hand-written scanner rests on.

A scanner loop reads while a test holds, so what it leaves is a
`dropWhile` of its input. Two things are wanted of that. On an input
given as a run and a remainder the loop reads exactly the run
(`takeWhile_run`, `dropWhile_run`). And once the input contains an
element that stops the loop, what comes after that element does not
matter (`takeWhile_append_stop`, `dropWhile_append_stop`): this is what
makes the scanner local.
-/
import Mathlib.Data.List.TakeWhile

namespace Span

variable {α : Type*} {p : α → Bool}

/-- The list starts with nothing that passes the test. -/
def Stops (p : α → Bool) (l : List α) : Prop :=
  ∀ a, l.head? = some a → p a = false

theorem stops_nil : Stops p [] := by
  intro a h
  cases h

theorem stops_cons {a : α} {l : List α} : Stops p (a :: l) ↔ p a = false := by
  simp [Stops]

/-- What a loop leaves stops it. -/
theorem stops_dropWhile (p : α → Bool) (l : List α) :
    Stops p (l.dropWhile p) := by
  intro a h
  have hnot := List.head?_dropWhile_not p l
  rw [h] at hnot
  simpa using hnot

/-- If not everything passes, there is a first element that does not. -/
theorem exists_stop {l : List α} (h : ¬ ∀ a ∈ l, p a = true) :
    ∃ a r, l = l.takeWhile p ++ a :: r ∧ p a = false := by
  cases hd : l.dropWhile p with
  | nil => exact absurd (List.dropWhile_eq_nil_iff.mp hd) h
  | cons a r =>
      have hstop := stops_dropWhile p l
      rw [hd] at hstop
      refine ⟨a, r, ?_, stops_cons.mp hstop⟩
      rw [← hd, List.takeWhile_append_dropWhile]

/-- On a run and a remainder the loop takes the run. -/
theorem takeWhile_run {w l : List α} (hw : ∀ a ∈ w, p a)
    (hl : Stops p l) : (w ++ l).takeWhile p = w := by
  rw [List.takeWhile_append_of_pos hw]
  cases l with
  | nil => simp
  | cons a l => simp [stops_cons.mp hl]

/-- On a run and a remainder the loop leaves the remainder. -/
theorem dropWhile_run {w l : List α} (hw : ∀ a ∈ w, p a)
    (hl : Stops p l) : (w ++ l).dropWhile p = l := by
  rw [List.dropWhile_append_of_pos hw]
  cases l with
  | nil => rfl
  | cons a l => simp [stops_cons.mp hl]

/-- What stops the loop is behind an element that does not. -/
theorem stop_of_cons {a : α} {l : List α} (hl : ∃ b ∈ a :: l, p b = false)
    (ha : p a = true) : ∃ b ∈ l, p b = false := by
  obtain ⟨b, hb, hpb⟩ := hl
  rcases List.mem_cons.mp hb with rfl | hb
  · rw [ha] at hpb
    cases hpb
  · exact ⟨b, hb, hpb⟩

/-- Once something stops the loop, it does not see what follows. -/
theorem takeWhile_append_stop {l : List α} (hl : ∃ a ∈ l, p a = false)
    (r : List α) : (l ++ r).takeWhile p = l.takeWhile p := by
  induction l with
  | nil => simp at hl
  | cons a l ih =>
      rw [List.cons_append, List.takeWhile_cons, List.takeWhile_cons]
      cases ha : p a with
      | false => rfl
      | true => rw [if_pos rfl, if_pos rfl, ih (stop_of_cons hl ha)]

theorem dropWhile_append_stop {l : List α} (hl : ∃ a ∈ l, p a = false)
    (r : List α) : (l ++ r).dropWhile p = l.dropWhile p ++ r := by
  induction l with
  | nil => simp at hl
  | cons a l ih =>
      rw [List.cons_append, List.dropWhile_cons, List.dropWhile_cons]
      cases ha : p a with
      | false => rfl
      | true => rw [if_pos rfl, if_pos rfl, ih (stop_of_cons hl ha)]

/-- What stops the loop is still there after it. -/
theorem mem_dropWhile {l : List α} {a : α} (ha : a ∈ l)
    (hpa : p a = false) : a ∈ l.dropWhile p := by
  rw [← List.takeWhile_append_dropWhile (p := p) (l := l)] at ha
  rcases List.mem_append.mp ha with h | h
  · have hp := List.mem_takeWhile_imp h
    rw [hpa] at hp
    cases hp
  · exact h

theorem dropWhile_ne_nil {l : List α} (hl : ∃ a ∈ l, p a = false) :
    l.dropWhile p ≠ [] := by
  obtain ⟨a, ha, hpa⟩ := hl
  exact List.ne_nil_of_mem (mem_dropWhile ha hpa)

end Span
