/-
A flat memory of cells, and the regions a program writes in it.

`store` writes a run of cells, `load` reads one. A load sees the last
store to its region (`load_store_same`) and no store to a region that is
disjoint from it (`load_store_disjoint`). A block that is filled from
one end to the other is a tiling (`Tiles`): its regions are inside the
block and pairwise disjoint (`tiles_inside`, `tiles_pairwise`), which is
what a program that fills a block piece by piece needs of them.
-/
import Mathlib.Data.List.Pairwise

namespace ByteMem

variable {β : Type}

-- ============================================================= regions

/-- The cells from `base` on, `len` of them. -/
structure Region where
  base : Nat
  len : Nat
deriving DecidableEq, Repr

namespace Region

/-- The first cell behind the region. -/
def stop (r : Region) : Nat := r.base + r.len

/-- The address is one of the region's. -/
def Contains (r : Region) (a : Nat) : Prop := r.base ≤ a ∧ a < r.stop

/-- No address is in both. -/
def Disjoint (r s : Region) : Prop := r.stop ≤ s.base ∨ s.stop ≤ r.base

/-- `r` lies in `s`. -/
def Inside (r s : Region) : Prop := s.base ≤ r.base ∧ r.stop ≤ s.stop

/-- This is so the other way round. -/
theorem Disjoint.symm {r s : Region} (h : r.Disjoint s) : s.Disjoint r :=
  Or.symm h

/-- A region inside another has no address that the other has not. -/
theorem Contains.of_inside {r s : Region} {a : Nat} (h : r.Contains a)
    (hr : r.Inside s) : s.Contains a :=
  ⟨Nat.le_trans hr.1 h.1, Nat.lt_of_lt_of_le h.2 hr.2⟩

/-- An address of one of two disjoint regions is not in the other. -/
theorem Disjoint.not_contains {r s : Region} {a : Nat}
    (h : r.Disjoint s) (ha : r.Contains a) : ¬ s.Contains a := by
  intro hs
  obtain ⟨hr1, hr2⟩ := ha
  obtain ⟨hs1, hs2⟩ := hs
  rcases h with h | h
  · omega
  · omega

end Region

-- ============================================================== memory

/-- The `n` cells from `a` on. -/
def load (m : Nat → β) (a n : Nat) : List β :=
  (List.range n).map fun i => m (a + i)

/-- Write a run of cells from `a` on. -/
def store (m : Nat → β) (a : Nat) (bs : List β) : Nat → β :=
  fun k => if a ≤ k then bs.getD (k - a) (m k) else m k

/-- So many bytes are read as are asked for. -/
@[simp] theorem load_length (m : Nat → β) (a n : Nat) :
    (load m a n).length = n := by
  simp [load]

/-- Reading one byte more. -/
theorem load_succ (m : Nat → β) (a n : Nat) :
    load m a (n + 1) = load m a n ++ [m (a + n)] := by
  simp [load, List.range_succ]

/-- The first cells of a load. -/
theorem load_take {m : Nat → β} {a k n : Nat} (h : k ≤ n) :
    (load m a n).take k = load m a k := by
  unfold load
  rw [← List.map_take, List.take_range, Nat.min_eq_left h]

/-- Storing leaves what is outside alone. -/
theorem store_outside (m : Nat → β) {a : Nat} {bs : List β} {k : Nat}
    (h : ¬ (Region.mk a bs.length).Contains k) : store m a bs k = m k := by
  unfold store
  split
  · next hle =>
    have hlen : bs.length ≤ k - a := by
      by_contra hlt
      exact h ⟨hle, by simp only [Region.stop]; omega⟩
    rw [List.getD_eq_getElem?_getD, List.getElem?_eq_none hlen]
    rfl
  · rfl

/-- And stores the bytes in order. -/
theorem store_inside (m : Nat → β) (a : Nat) (bs : List β) {i : Nat}
    (h : i < bs.length) : store m a bs (a + i) = bs[i] := by
  unfold store
  rw [if_pos (Nat.le_add_right a i), Nat.add_sub_cancel_left,
    List.getD_eq_getElem?_getD, List.getElem?_eq_getElem h]
  rfl

/-- A load depends on its region only. -/
theorem load_congr {m m' : Nat → β} {a n : Nat}
    (h : ∀ k, (Region.mk a n).Contains k → m k = m' k) :
    load m a n = load m' a n := by
  unfold load
  apply List.map_congr_left
  intro i hi
  refine h (a + i) ⟨Nat.le_add_right a i, ?_⟩
  exact Nat.add_lt_add_left (List.mem_range.mp hi) a

/-- What was stored is read back. -/
theorem load_store_same (m : Nat → β) (a : Nat) (bs : List β) :
    load (store m a bs) a bs.length = bs := by
  refine List.ext_getElem (by simp) ?_
  intro i hi hi'
  simp only [load, List.getElem_map, List.getElem_range]
  exact store_inside m a bs hi'

/-- A region that is disjoint from what was stored reads as before. -/
theorem load_store_disjoint (m : Nat → β) {a b n : Nat} {bs : List β}
    (h : (Region.mk b n).Disjoint ⟨a, bs.length⟩) :
    load (store m a bs) b n = load m b n := by
  apply load_congr
  intro k hk
  exact store_outside m (h.not_contains hk)

-- ============================================================= tilings

/-- The regions fill the cells from `a` up to `b`, one behind the
other. -/
def Tiles (a : Nat) : List Region → Nat → Prop
  | [], b => a = b
  | r :: rs, b => r.base = a ∧ Tiles r.stop rs b

/-- One more region at the end. -/
theorem tiles_snoc {a b : Nat} {rs : List Region} (h : Tiles a rs b)
    (n : Nat) : Tiles a (rs ++ [⟨b, n⟩]) (b + n) := by
  induction rs generalizing a with
  | nil =>
      have hab : a = b := h
      exact ⟨hab.symm, rfl⟩
  | cons r rs ih => exact ⟨h.1, ih h.2⟩

/-- Regions one behind the other end behind where they start. -/
theorem tiles_le {a b : Nat} {rs : List Region} (h : Tiles a rs b) :
    a ≤ b := by
  induction rs generalizing a with
  | nil => exact Nat.le_of_eq h
  | cons r rs ih =>
      have hstop := ih h.2
      have hbase := h.1
      unfold Region.stop at hstop
      omega

/-- Each of them is inside the whole. -/
theorem tiles_inside {a b : Nat} {rs : List Region} (h : Tiles a rs b) :
    ∀ r ∈ rs, r.Inside ⟨a, b - a⟩ := by
  induction rs generalizing a with
  | nil =>
      intro r hr
      cases hr
  | cons s rs ih =>
      intro r hr
      have hle := tiles_le h
      have hstop := tiles_le h.2
      have hbase := h.1
      have hs : s.stop = s.base + s.len := rfl
      rcases List.mem_cons.mp hr with rfl | hr
      · exact ⟨by simp only; omega, by simp only [Region.stop] at *; omega⟩
      · obtain ⟨h1, h2⟩ := ih h.2 r hr
        simp only [Region.stop] at h1 h2 ⊢
        exact ⟨by simp only; omega, by simp only [Region.stop] at *; omega⟩

/-- And no two of them overlap. -/
theorem tiles_pairwise {a b : Nat} {rs : List Region}
    (h : Tiles a rs b) : rs.Pairwise Region.Disjoint := by
  induction rs generalizing a with
  | nil => exact List.Pairwise.nil
  | cons r rs ih =>
      refine List.Pairwise.cons ?_ (ih h.2)
      intro s hs
      exact Or.inl (tiles_inside h.2 s hs).1

end ByteMem
