/-
Filling a buffer through a pointer that moves.

A `Cursor` is such a pointer, with everything that was stored through it
in order: `put` is `*p++ = b`, `set` is `*p = b`. Two things are asked
of the stores. Where they went: `Below`. And what they leave behind:
`Leaves`, the first cells of the buffer, whatever was there before. A
cursor that has `Wrote` a run and nothing else stands behind it, so one
more `put` makes the run longer (`Wrote.put`), and a final `set` closes
it and can be written over (`Wrote.set`, `Wrote.leaves_set`).
-/
import Tinjac.Lib.ByteMem
import Tinjac.Lib.Span

namespace StoreLog

open ByteMem

variable {β : Type}

-- ============================================================== stores

/-- Stores of one cell each, in order: the index, and what was stored. -/
abbrev Stores (β : Type) : Type := List (Nat × β)

/-- The memory after the stores. -/
def after (m : Nat → β) (w : Stores β) : Nat → β :=
  w.foldl (fun m s => store m s.1 [s.2]) m

/-- No store at index `n` or behind it. -/
def Below (n : Nat) (w : Stores β) : Prop := ∀ s ∈ w, s.1 < n

/-- After the stores the buffer starts with these cells. -/
def Leaves (w : Stores β) (bs : List β) : Prop :=
  ∀ m, load (after m w) 0 bs.length = bs

theorem after_snoc (m : Nat → β) (w : Stores β) (i : Nat) (b : β) :
    after m (w ++ [(i, b)]) = store (after m w) i [b] := by
  unfold after
  rw [List.foldl_append, List.foldl_cons, List.foldl_nil]

theorem Below.nil (n : Nat) : Below n ([] : Stores β) := by
  intro s hs
  cases hs

theorem Below.snoc {n i : Nat} {w : Stores β} (h : Below n w) (hi : i < n)
    (b : β) : Below n (w ++ [(i, b)]) := by
  intro s hs
  rcases List.mem_append.mp hs with hs | hs
  · exact h s hs
  · rw [List.mem_singleton.mp hs]
    exact hi

theorem Leaves.nil (w : Stores β) : Leaves w [] := fun _ => rfl

/-- One more cell, next to the others. -/
theorem Leaves.snoc {w : Stores β} {bs : List β} (h : Leaves w bs) (b : β) :
    Leaves (w ++ [(bs.length, b)]) (bs ++ [b]) := by
  intro m
  have hlast := store_inside (after m w) bs.length [b] (i := 0) Nat.one_pos
  have hfirst : load (store (after m w) bs.length [b]) 0 bs.length = bs := by
    rw [load_store_disjoint, h m]
    exact Or.inl (Nat.le_of_eq (Nat.zero_add _))
  rw [after_snoc, List.length_append, List.length_singleton, load_succ,
    hfirst, Nat.zero_add]
  rw [Nat.add_zero] at hlast
  rw [hlast]
  rfl

/-- Fewer cells. -/
theorem Leaves.of_append {w : Stores β} {bs cs : List β}
    (h : Leaves w (bs ++ cs)) : Leaves w bs := by
  intro m
  have hall := congrArg (List.take bs.length) (h m)
  rw [List.take_left, List.length_append, load_take (Nat.le_add_right _ _)]
    at hall
  exact hall

/-- A run with a terminator behind it is read back as a string. -/
theorem Leaves.takeWhile {w : Stores β} {bs : List β} {z : β}
    (h : Leaves w (bs ++ [z])) {p : β → Bool} (hbs : ∀ b ∈ bs, p b = true)
    (hz : p z = false) {n : Nat} (hn : bs.length < n) (m : Nat → β) :
    (load (after m w) 0 n).takeWhile p = bs := by
  have hfirst : (load (after m w) 0 n).take (bs.length + 1)
      = bs ++ [z] := by
    have hall := h m
    rw [List.length_append, List.length_singleton] at hall
    rw [load_take hn, hall]
  rw [← List.take_append_drop (bs.length + 1) (load (after m w) 0 n),
    hfirst, List.append_assoc]
  exact Span.takeWhile_run hbs (Span.stops_cons.mpr hz)

-- ============================================================= cursors

/-- A pointer into the buffer, and the stores through it so far. -/
structure Cursor (β : Type) where
  pos : Nat
  stores : Stores β

namespace Cursor

/-- At the start of the buffer. -/
def start : Cursor β := { pos := 0, stores := [] }

/-- `*p = b` -/
def set (p : Cursor β) (b : β) : Cursor β :=
  { p with stores := p.stores ++ [(p.pos, b)] }

/-- `*p++ = b` -/
def put (p : Cursor β) (b : β) : Cursor β :=
  { pos := p.pos + 1, stores := p.stores ++ [(p.pos, b)] }

/-- The cells in front of the pointer are these. -/
structure Wrote (p : Cursor β) (bs : List β) : Prop where
  pos : p.pos = bs.length
  leaves : Leaves p.stores bs

variable {p : Cursor β} {bs : List β}

theorem Wrote.start : (start : Cursor β).Wrote [] :=
  ⟨rfl, Leaves.nil _⟩

theorem Wrote.leaves_set (h : p.Wrote bs) (b : β) :
    Leaves (p.set b).stores (bs ++ [b]) := by
  have hstores : (p.set b).stores = p.stores ++ [(bs.length, b)] := by
    rw [← h.pos]
    rfl
  rw [hstores]
  exact h.leaves.snoc b

theorem Wrote.put (h : p.Wrote bs) (b : β) : (p.put b).Wrote (bs ++ [b]) where
  pos := by
    rw [List.length_append, ← h.pos]
    rfl
  leaves := h.leaves_set b

theorem Wrote.set (h : p.Wrote bs) (b : β) : (p.set b).Wrote bs where
  pos := h.pos
  leaves := (h.leaves_set b).of_append

end Cursor

end StoreLog
