/-
A heap of allocated blocks, for C programs that pass vectors and
strings around by pointer.

A block holds one value of a type `β` of the client's choosing. Blocks
are never reused: `alloc` hands out addresses in increasing order, so an
address names at most one block in a run, and a pointer that outlives
its block reads as nothing. Whether an allocation succeeds is not the
program's to decide, so the heap carries the pattern of the run
(`granted`) and the number of requests made (`asked`); a theorem that
holds for every heap holds for every pattern of failures.

# Frames

`Frame h h' S` says that going from `h` to `h'` changed no block of `h`
outside `S`. It is reflexive, composes along a run, and is what the
client's operations promise to everybody else's pointers: a block that
is not in the footprint of an operation is still there after it, with
what it held.
-/

namespace BlockHeap

/-- Live blocks by address, and the fate of the allocation requests. -/
structure Heap (β : Type) where
  block : Nat → Option β
  next : Nat
  granted : Nat → Bool
  asked : Nat
  fresh : ∀ a, next ≤ a → block a = none

namespace Heap

variable {β : Type}

/-- The empty heap under a pattern of allocation successes. -/
def empty (granted : Nat → Bool) : Heap β :=
  { block := fun _ => none, next := 0, granted := granted, asked := 0,
    fresh := fun _ _ => rfl }

/-- One allocation request that stores nothing the client looks at. -/
def request (h : Heap β) : Bool × Heap β :=
  (h.granted h.asked, { h with asked := h.asked + 1 })

/-- `malloc` of a block with these contents. -/
def alloc (h : Heap β) (b : β) : Option Nat × Heap β :=
  if h.granted h.asked then
    (some h.next,
      { h with
        block := fun a => if a = h.next then some b else h.block a
        next := h.next + 1
        asked := h.asked + 1
        fresh := by
          intro a ha
          rw [if_neg (by omega)]
          exact h.fresh a (by omega) })
  else (none, { h with asked := h.asked + 1 })

/-- `free`. -/
def free (h : Heap β) (p : Nat) : Heap β :=
  { h with
    block := fun a => if a = p then none else h.block a
    fresh := by
      intro a ha
      split
      · rfl
      · exact h.fresh a ha }

/-- Overwrite a live block. -/
def update (h : Heap β) (p : Nat) (g : β → β) : Heap β :=
  { h with
    block := fun a => if a = p then (h.block a).map g else h.block a
    fresh := by
      intro a ha
      rw [h.fresh a ha]
      simp }

-- ======================================================== what they do

/-- A new block has an address of its own, and its contents; the others
are as they were. -/
theorem alloc_some {h h' : Heap β} {b : β} {p : Nat}
    (ha : h.alloc b = (some p, h')) :
    p = h.next ∧ h'.next = h.next + 1
      ∧ (∀ a, h'.block a = if a = p then some b else h.block a) := by
  unfold alloc at ha
  split at ha
  · injection ha with hp hh
    injection hp with hp
    subst hp
    rw [← hh]
    exact ⟨rfl, rfl, fun _ => rfl⟩
  · cases ha

/-- An allocation that fails changes nothing but the number of requests.
-/
theorem alloc_none {h h' : Heap β} {b : β}
    (ha : h.alloc b = (none, h')) :
    h'.next = h.next ∧ h'.block = h.block
      ∧ h.granted h.asked = false := by
  unfold alloc at ha
  split at ha
  · cases ha
  · next hno =>
    injection ha with _ hh
    rw [← hh]
    exact ⟨rfl, rfl, Bool.eq_false_iff.mpr hno⟩

/-- Which requests are granted is settled beforehand. -/
theorem granted_alloc {h h' : Heap β} {b : β} {r : Option Nat}
    (ha : h.alloc b = (r, h')) : h'.granted = h.granted := by
  unfold alloc at ha
  split at ha
  · injection ha with _ hh
    rw [← hh]
  · injection ha with _ hh
    rw [← hh]

/-- Freeing takes one block away. -/
theorem free_block (h : Heap β) (p a : Nat) :
    (h.free p).block a = if a = p then none else h.block a := rfl

/-- Writing to a block changes no other. -/
theorem update_block (h : Heap β) (p a : Nat) (g : β → β) :
    (h.update p g).block a
      = if a = p then (h.block a).map g else h.block a := rfl

/-- A live block is below the next fresh address. -/
theorem lt_next_of_block {h : Heap β} {a : Nat} {b : β}
    (hb : h.block a = some b) : a < h.next := by
  refine Nat.lt_of_not_le fun hge => ?_
  rw [h.fresh a hge] at hb
  cases hb

-- ============================================================== frames

/-- Nothing of `h` outside `S` was changed on the way to `h'`, and the
fate of the requests is still the run's. -/
structure Frame (h h' : Heap β) (S : Nat → Prop) : Prop where
  next_le : h.next ≤ h'.next
  granted : h'.granted = h.granted
  keep : ∀ a, a < h.next → ¬ S a → h'.block a = h.block a

/-- Nothing has changed. -/
theorem Frame.refl (h : Heap β) (S : Nat → Prop) : Frame h h S :=
  ⟨Nat.le_refl _, rfl, fun _ _ _ => rfl⟩

/-- Frames compose; blocks the first half allocated are free for the
second half to change. -/
theorem Frame.trans {h h' h'' : Heap β} {S T : Nat → Prop}
    (h1 : Frame h h' S) (h2 : Frame h' h'' T)
    (hT : ∀ a, a < h.next → T a → S a) : Frame h h'' S := by
  refine ⟨Nat.le_trans h1.next_le h2.next_le,
    h2.granted.trans h1.granted, ?_⟩
  intro a ha hS
  rw [h2.keep a (Nat.lt_of_lt_of_le ha h1.next_le)
    (fun hTa => hS (hT a ha hTa))]
  exact h1.keep a ha hS

/-- What is allocated was not there before, so no block that was there has
changed. -/
theorem frame_alloc {h h' : Heap β} {b : β} {r : Option Nat}
    (ha : h.alloc b = (r, h')) (S : Nat → Prop) : Frame h h' S := by
  cases r with
  | none =>
      obtain ⟨hn, hb, -⟩ := alloc_none ha
      exact ⟨by omega, granted_alloc ha, fun a _ _ => by rw [hb]⟩
  | some p =>
      obtain ⟨hp, hn, hb⟩ := alloc_some ha
      refine ⟨by omega, granted_alloc ha, fun a hlt _ => ?_⟩
      rw [hb, if_neg (by omega)]

/-- What is freed is among the blocks that may change. -/
theorem frame_free (h : Heap β) {p : Nat} {S : Nat → Prop} (hp : S p) :
    Frame h (h.free p) S := by
  refine ⟨Nat.le_refl _, rfl, fun a _ hS => ?_⟩
  rw [free_block, if_neg]
  intro hap
  exact hS (hap ▸ hp)

/-- So is what is written to. -/
theorem frame_update (h : Heap β) {p : Nat} {S : Nat → Prop} (hp : S p)
    (g : β → β) : Frame h (h.update p g) S := by
  refine ⟨Nat.le_refl _, rfl, fun a _ hS => ?_⟩
  rw [update_block, if_neg]
  intro hap
  exact hS (hap ▸ hp)

end Heap

end BlockHeap
