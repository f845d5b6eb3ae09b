/-
A map kept as a list of entries that carry their own keys.

`upsert` replaces the entry with a key, in place, or appends it; what a
history of such updates settles to (`settle`) has one entry for each key
that was ever set, in the order in which the keys were first set
(`map_key_settle`), and a lookup finds the last one set
(`find_settle`).

`upsert_eq_set` and `upsert_eq_append` are for an implementation that
searches the list for an index first. The search may run from either
end: keys are distinct (`nodup_settle`).
-/
import Mathlib.Data.List.Dedup
import Mathlib.Data.List.Induction

namespace KeyedList

variable {α κ : Type} [DecidableEq κ] (key : α → κ)

/-- Replace the entry with the key of `a`, or append `a`. -/
def upsert : List α → α → List α
  | [], a => [a]
  | b :: l, a => if key b = key a then a :: l else b :: upsert l a

/-- What a history of updates settles to. -/
def settle (hist : List α) : List α := hist.foldl (upsert key) []

variable {key}

theorem upsert_eq_append {l : List α} {a : α}
    (h : key a ∉ l.map key) : upsert key l a = l ++ [a] := by
  induction l with
  | nil => rfl
  | cons b l ih =>
      rw [List.map_cons, List.mem_cons, not_or] at h
      rw [upsert, if_neg (fun hb => h.1 hb.symm), ih h.2]
      rfl

theorem upsert_eq_set {l : List α} {a : α} {i : Nat} (hi : i < l.length)
    (hkey : key l[i] = key a) (hnodup : (l.map key).Nodup) :
    upsert key l a = l.set i a := by
  induction l generalizing i with
  | nil => simp at hi
  | cons b l ih =>
      rw [List.map_cons, List.nodup_cons] at hnodup
      cases i with
      | zero =>
          rw [List.getElem_cons_zero] at hkey
          rw [upsert, if_pos hkey]
          rfl
      | succ i =>
          rw [List.getElem_cons_succ] at hkey
          have hi' : i < l.length := by simpa using hi
          have hne : key b ≠ key a := by
            intro hb
            refine hnodup.1 ?_
            rw [hb, ← hkey]
            exact List.mem_map_of_mem (List.getElem_mem hi')
          rw [upsert, if_neg hne, ih hi' hkey hnodup.2]
          rfl

/-- An update leaves the keys as they are, or appends its own. -/
theorem map_key_upsert (l : List α) (a : α) :
    (upsert key l a).map key
      = if key a ∈ l.map key then l.map key
        else l.map key ++ [key a] := by
  induction l with
  | nil => simp [upsert]
  | cons b l ih =>
      rw [upsert]
      by_cases hb : key b = key a
      · rw [if_pos hb, if_pos (by simp [hb])]
        simp [hb]
      · rw [if_neg hb, List.map_cons, List.map_cons, ih]
        by_cases hl : key a ∈ l.map key
        · rw [if_pos hl, if_pos (List.mem_cons_of_mem _ hl)]
        · rw [if_neg hl, if_neg]
          · rfl
          · rw [List.mem_cons, not_or]
            exact ⟨fun h => hb h.symm, hl⟩

theorem find_upsert (l : List α) (a : α) (k : κ) :
    (upsert key l a).find? (fun b => decide (key b = k))
      = if key a = k then some a
        else l.find? (fun b => decide (key b = k)) := by
  induction l with
  | nil =>
      rw [upsert, List.find?_singleton]
      simp
  | cons b l ih =>
      rw [upsert]
      by_cases hb : key b = key a
      · rw [if_pos hb, List.find?_cons, List.find?_cons]
        by_cases ha : key a = k
        · simp [ha]
        · simp [ha, hb]
      · rw [if_neg hb, List.find?_cons, ih, List.find?_cons]
        by_cases hbk : key b = k
        · have hak : key a ≠ k := fun h => hb (hbk.trans h.symm)
          simp [hbk, hak]
        · simp [hbk]

/-- With distinct keys an entry is what a lookup of its key finds. -/
theorem find_self {l : List α} (hnodup : (l.map key).Nodup) {a : α}
    (ha : a ∈ l) : l.find? (fun b => decide (key b = key a)) = some a := by
  induction l with
  | nil => cases ha
  | cons b l ih =>
      rw [List.map_cons, List.nodup_cons] at hnodup
      rw [List.find?_cons]
      rcases List.mem_cons.mp ha with rfl | ha
      · simp
      · have hne : key b ≠ key a := by
          intro hb
          exact hnodup.1 (hb ▸ List.mem_map_of_mem ha)
        simp [hne, ih hnodup.2 ha]

-- =========================================================== histories

theorem settle_append (hist : List α) (a : α) :
    settle key (hist ++ [a]) = upsert key (settle key hist) a := by
  unfold settle
  rw [List.foldl_append]
  rfl

/-- One entry for each key, in the order of first setting. -/
theorem map_key_settle (hist : List α) :
    (settle key hist).map key = (hist.map key).reverse.dedup.reverse := by
  induction hist using List.reverseRecOn with
  | nil => rfl
  | append_singleton hist a ih =>
      rw [settle_append, map_key_upsert, ih, List.map_append,
        List.reverse_append]
      show _ = (key a :: (hist.map key).reverse).dedup.reverse
      by_cases ha : key a ∈ (hist.map key).reverse
      · rw [List.dedup_cons_of_mem ha, if_pos (by simpa using ha)]
      · rw [List.dedup_cons_of_notMem ha, List.reverse_cons,
          if_neg (by simpa using ha)]

theorem nodup_settle (hist : List α) :
    ((settle key hist).map key).Nodup := by
  rw [map_key_settle, List.nodup_reverse]
  exact List.nodup_dedup _

/-- A lookup finds the last entry set. -/
theorem find_settle (hist : List α) (k : κ) :
    (settle key hist).find? (fun b => decide (key b = k))
      = hist.reverse.find? (fun b => decide (key b = k)) := by
  induction hist using List.reverseRecOn with
  | nil => rfl
  | append_singleton hist a ih =>
      rw [settle_append, find_upsert, ih, List.reverse_append]
      show _ = (a :: hist.reverse).find? _
      rw [List.find?_cons]
      by_cases ha : key a = k
      · simp [ha]
      · simp [ha]

theorem mem_of_mem_upsert {l : List α} {a b : α}
    (h : b ∈ upsert key l a) : b = a ∨ b ∈ l := by
  induction l with
  | nil => exact Or.inl (List.mem_singleton.mp h)
  | cons c l ih =>
      rw [upsert] at h
      split at h
      · rcases List.mem_cons.mp h with h | h
        · exact Or.inl h
        · exact Or.inr (List.mem_cons_of_mem _ h)
      · rcases List.mem_cons.mp h with h | h
        · exact Or.inr (h ▸ List.mem_cons_self)
        · rcases ih h with h | h
          · exact Or.inl h
          · exact Or.inr (List.mem_cons_of_mem _ h)

/-- Nothing settles that was not set. -/
theorem mem_of_mem_settle {hist : List α} {b : α}
    (h : b ∈ settle key hist) : b ∈ hist := by
  induction hist using List.reverseRecOn with
  | nil => exact h
  | append_singleton hist a ih =>
      rw [settle_append] at h
      rw [List.mem_append, List.mem_singleton]
      rcases mem_of_mem_upsert h with h | h
      · exact Or.inr h
      · exact Or.inl (ih h)

end KeyedList
