/-
The command of a job, cut in place.

While the loop of `child_process` runs, the array holds what was written,
a gap, and what is still to be read, in this order (`Cut`); so no byte is
overwritten before it was read, and the loop computes `splitText`
(`loop_cuts`). The induction is on the text, two characters at a time
where the first is a backslash.
-/
import Tinjac.Crond.Text.Command
import Tinjac.Crond.Proofs.Table

namespace Tinjac.Crond

open CHeap

namespace CmdScan

-- ========================================================= the invariant

/-- The loop has written `w`, and `l` is in front of it. -/
structure Cut (s : CmdScan) (w l : List UInt8) : Prop where
  mem : ∃ gap, s.mem = w ++ (gap ++ (l ++ [nul]))
    ∧ s.inputData = w.length + gap.length
  p : s.p = w.length

/-- The loop has left: behind `*p = '\0'` these two are strings in the
array. -/
def Left (s : CmdScan) (cmd input : List UInt8) : Prop :=
  ∃ t, s.mem.set s.p nul = cmd ++ nul :: t
    ∧ (s.mem.set s.p nul).drop s.inputData = input ++ [nul]

/-- The pointers go on to the next character, `input_data++, p++`. -/
def next (s : CmdScan) : CmdScan :=
  { s with p := s.p + 1, inputData := s.inputData + 1 }

/-- Storing at the place behind the first part of an array. -/
theorem set_length (w t : List UInt8) (a b : UInt8) :
    (w ++ a :: t).set w.length b = w ++ b :: t := by
  rw [List.set_append_right _ _ (Nat.le_refl _), Nat.sub_self]
  rfl

section

variable {s s' : CmdScan} {w l : List UInt8} {c : UInt8} {fuel : Nat}

/-- The loop reads the next character of the command. -/
theorem Cut.reads (h : s.Cut w (c :: l)) :
    s.mem[s.inputData]? = some c := by
  obtain ⟨⟨gap, hmem, hinput⟩, -⟩ := h
  rw [hmem, hinput, ← List.append_assoc,
    List.getElem?_append_right (by rw [List.length_append]),
    List.length_append, Nat.sub_self]
  rfl

/-- At the end it reads the NUL, which is still there: `p` is not in front
of `input_data`. -/
theorem Cut.reads_end (h : s.Cut w []) :
    s.mem[s.inputData]? = some nul := by
  obtain ⟨⟨gap, hmem, hinput⟩, -⟩ := h
  rw [hmem, hinput, ← List.append_assoc,
    List.getElem?_append_right (by rw [List.length_append]),
    List.length_append, Nat.sub_self]
  rfl

/-- What is read is written behind what was written before. The gap
keeps its length. -/
theorem Cut.moved (h : s.Cut w (c :: l)) :
    ∃ gap, (if s.p ≠ s.inputData then { s with mem := s.mem.set s.p c }
        else s) = { s with mem := w ++ c :: (gap ++ (l ++ [nul])) }
      ∧ s.inputData = w.length + gap.length := by
  obtain ⟨⟨gap, hmem, hinput⟩, hp⟩ := h
  cases gap with
  | nil =>
      rw [List.length_nil, Nat.add_zero] at hinput
      refine ⟨[], ?_, hinput⟩
      rw [if_neg (by rw [hp, hinput]; simp)]
      rw [List.nil_append, List.cons_append] at hmem
      rw [List.nil_append, ← hmem]
  | cons g gap =>
      rw [List.length_cons] at hinput
      refine ⟨gap ++ [c], ?_, ?_⟩
      · rw [if_pos (by rw [hp, hinput]; omega), hmem, hp,
          List.cons_append, set_length]
        simp
      · rw [hinput, List.length_append]
        rfl

-- ============================================================= one step

/-- A character that is kept. -/
theorem Cut.store (h : s.Cut w (c :: l))
    (hkeep : if s.escaped then c ≠ percent
      else c ≠ backslash ∧ c ≠ percent) :
    ∃ s', s.body c = (s', false) ∧ s'.next.Cut (w ++ [c]) l
      ∧ s'.escaped = false := by
  obtain ⟨gap, hmoved, hinput⟩ := h.moved
  have hcut : { s with
      mem := w ++ c :: (gap ++ (l ++ [nul])), escaped := false }.next.Cut
        (w ++ [c]) l := by
    refine ⟨⟨gap, ?_, ?_⟩, ?_⟩
    · simp [next]
    · show s.inputData + 1 = _
      rw [List.length_append, hinput]
      simp only [List.length_cons, List.length_nil]
      omega
    · show s.p + 1 = _
      rw [List.length_append, h.p]
      rfl
  refine ⟨_, ?_, hcut, rfl⟩
  unfold body
  rw [hmoved]
  dsimp only
  cases hesc : s.escaped with
  | true =>
      rw [hesc, if_pos rfl] at hkeep
      rw [if_pos rfl, if_neg hkeep]
  | false =>
      rw [hesc, if_neg Bool.false_ne_true] at hkeep
      rw [if_neg Bool.false_ne_true, if_neg hkeep.1, if_neg hkeep.2]

/-- A backslash is copied, and the next character is an escaped one. -/
theorem Cut.slash (h : s.Cut w (backslash :: l))
    (hesc : s.escaped = false) :
    ∃ s', s.body backslash = (s', false)
      ∧ s'.next.Cut (w ++ [backslash]) l ∧ s'.escaped = true := by
  obtain ⟨gap, hmoved, hinput⟩ := h.moved
  have hcut : { s with
      mem := w ++ backslash :: (gap ++ (l ++ [nul]))
      escaped := true }.next.Cut (w ++ [backslash]) l := by
    refine ⟨⟨gap, ?_, ?_⟩, ?_⟩
    · simp [next]
    · show s.inputData + 1 = _
      rw [List.length_append, hinput]
      simp only [List.length_cons, List.length_nil]
      omega
    · show s.p + 1 = _
      rw [List.length_append, h.p]
      rfl
  refine ⟨_, ?_, hcut, rfl⟩
  unfold body
  rw [hmoved]
  dsimp only
  rw [hesc, if_neg Bool.false_ne_true, if_pos rfl]

/-- A `%` behind a backslash takes its place. -/
theorem Cut.keep (h : s.Cut (w ++ [backslash]) (percent :: l))
    (hesc : s.escaped = true) :
    ∃ s', s.body percent = (s', false) ∧ s'.next.Cut (w ++ [percent]) l
      ∧ s'.escaped = false := by
  obtain ⟨gap, hmoved, hinput⟩ := h.moved
  have hp : s.p = w.length + 1 := by
    rw [h.p, List.length_append]
    rfl
  have hcut : { s with
      mem := w ++ percent :: (percent :: gap ++ (l ++ [nul]))
      p := w.length, escaped := false }.next.Cut (w ++ [percent]) l := by
    refine ⟨⟨percent :: gap, ?_, ?_⟩, ?_⟩
    · simp [next]
    · show s.inputData + 1 = _
      rw [List.length_append] at hinput ⊢
      rw [hinput, List.length_cons]
      simp only [List.length_cons, List.length_nil]
      omega
    · show w.length + 1 = _
      rw [List.length_append]
      rfl
  refine ⟨_, ?_, hcut, rfl⟩
  unfold body
  rw [hmoved]
  dsimp only
  rw [hesc, if_pos rfl, if_pos rfl, hp, Nat.add_sub_cancel,
    List.append_assoc, List.singleton_append, set_length]
  rfl

/-- The `%` that ends the command. -/
theorem Cut.split (h : s.Cut w (percent :: l)) (hesc : s.escaped = false) :
    ∃ s', s.body percent = (s', true) ∧ s'.Left w l := by
  obtain ⟨gap, hmoved, hinput⟩ := h.moved
  refine ⟨{ s with
    mem := (w ++ percent :: (gap ++ (l ++ [nul]))).set s.inputData nul
    inputData := s.inputData + 1 }, ?_, ?_⟩
  · unfold body
    rw [hmoved]
    dsimp only
    rw [hesc, if_neg Bool.false_ne_true, if_neg (by decide), if_pos rfl]
  · have hmem : (w ++ percent :: (gap ++ (l ++ [nul]))).set s.inputData nul
        = w ++ (percent :: gap).set gap.length nul ++ (l ++ [nul]) := by
      rw [hinput, List.set_append_right _ _ (by omega),
        Nat.add_sub_cancel_left, ← List.cons_append,
        List.set_append_left _ _ (by rw [List.length_cons]; omega),
        List.append_assoc]
    obtain ⟨a, t, ht⟩ : ∃ a t, (percent :: gap).set gap.length nul
        = a :: t := by
      apply List.exists_cons_of_ne_nil
      intro hnil
      have hlen := congrArg List.length hnil
      rw [List.length_set, List.length_cons] at hlen
      cases hlen
    have hlen : t.length = gap.length := by
      have hlen := congrArg List.length ht
      rw [List.length_set, List.length_cons, List.length_cons] at hlen
      omega
    have hset : (w ++ a :: t ++ (l ++ [nul])).set s.p nul
        = w ++ nul :: (t ++ (l ++ [nul])) := by
      rw [h.p, List.append_assoc, List.cons_append, set_length]
    unfold Left
    dsimp only
    rw [hmem, ht, hset]
    refine ⟨_, rfl, ?_⟩
    have hdrop : s.inputData + 1 = (w ++ nul :: t).length := by
      rw [hinput, List.length_append, List.length_cons, hlen]
      omega
    rw [← List.cons_append, ← List.append_assoc, hdrop, List.drop_left]

/-- The end of the text. -/
theorem Cut.finish (h : s.Cut w []) : s.Left w [] := by
  obtain ⟨⟨gap, hmem, hinput⟩, hp⟩ := h
  unfold Left
  rw [List.nil_append] at hmem
  cases gap with
  | nil =>
      rw [List.length_nil, Nat.add_zero] at hinput
      rw [hmem, hp, hinput, List.nil_append, set_length, List.drop_left]
      exact ⟨[], rfl, rfl⟩
  | cons g gap =>
      rw [hmem, hp, hinput, List.cons_append, set_length]
      refine ⟨_, rfl, ?_⟩
      have hdrop : w.length + (g :: gap).length
          = (w ++ nul :: gap).length := by
        rw [List.length_append]
        rfl
      rw [← List.cons_append, ← List.append_assoc, hdrop, List.drop_left]
      rfl

-- ============================================================= the loop

/-- A round of the loop that does not break. -/
theorem loop_next (h : s.Cut w (c :: l)) (hc : c ≠ nul)
    (hbody : s.body c = (s', false)) :
    s.loop (fuel + 1) = s'.next.loop fuel := by
  rw [loop, h.reads]
  dsimp only
  rw [if_neg hc, hbody]
  rfl

/-- A round of the loop that breaks: nothing more is read, and the state
is that of the break. -/
theorem loop_left (h : s.Cut w (c :: l)) (hc : c ≠ nul)
    (hbody : s.body c = (s', true)) : s.loop (fuel + 1) = some s' := by
  rw [loop, h.reads]
  dsimp only
  rw [if_neg hc, hbody]
  rfl

/-- The loop ends at the NUL. -/
theorem loop_end (h : s.Cut w []) : s.loop (fuel + 1) = some s := by
  rw [loop, h.reads_end]
  rfl

/-- The loop comes to its end, and has cut the text. -/
theorem loop_cuts (h : s.Cut w l) (hesc : s.escaped = false)
    (hnul : nul ∉ l) (hfuel : l.length < fuel) :
    ∃ s', s.loop fuel = some s'
      ∧ s'.Left (w ++ (splitText l).1) (splitText l).2 := by
  obtain ⟨fuel, rfl⟩ := Nat.exists_eq_add_one.mpr
    (Nat.lt_of_le_of_lt (Nat.zero_le _) hfuel)
  fun_induction splitText l generalizing s w fuel with
  | case1 =>
      rw [List.append_nil]
      exact ⟨s, loop_end h, h.finish⟩
  | case2 =>
      obtain ⟨s', hbody, hleft⟩ := h.split hesc
      rw [List.append_nil]
      exact ⟨s', loop_left h (by decide) hbody, hleft⟩
  | case3 c hc =>
      have hcnul : c ≠ nul := by
        rintro rfl
        exact hnul List.mem_cons_self
      obtain ⟨fuel, rfl⟩ : ∃ n, fuel = n + 1 := by
        rw [List.length_singleton] at hfuel
        exact Nat.exists_eq_add_one.mpr (by omega)
      obtain ⟨s', hbody, hcut⟩ : ∃ s', s.body c = (s', false)
          ∧ s'.next.Cut (w ++ [c]) [] := by
        by_cases hslash : c = backslash
        · subst hslash
          obtain ⟨s', hbody, hcut, -⟩ := h.slash hesc
          exact ⟨s', hbody, hcut⟩
        · obtain ⟨s', hbody, hcut, -⟩ := h.store (by
            rw [hesc, if_neg Bool.false_ne_true]
            exact ⟨hslash, hc⟩)
          exact ⟨s', hbody, hcut⟩
      exact ⟨s'.next, (loop_next h hcnul hbody).trans (loop_end hcut),
        hcut.finish⟩
  | case4 d l ih =>
      have hdnul : d ≠ nul := by
        rintro rfl
        exact hnul (List.mem_cons_of_mem _ List.mem_cons_self)
      have hlnul : nul ∉ l := fun hmem =>
        hnul (List.mem_cons_of_mem _ (List.mem_cons_of_mem _ hmem))
      rw [List.length_cons, List.length_cons] at hfuel
      obtain ⟨fuel, rfl⟩ : ∃ n, fuel = n + 2 :=
        ⟨fuel - 2, by omega⟩
      obtain ⟨s1, hbody, hcut, hesc1⟩ := h.slash hesc
      have hfirst : s.loop (fuel + 3) = s1.next.loop (fuel + 2) :=
        loop_next h (by decide) hbody
      -- the character behind the backslash
      obtain ⟨s2, hbody2, hcut2, hesc2⟩ : ∃ s2, s1.next.body d = (s2, false)
          ∧ s2.next.Cut (w ++ if d = percent then [percent]
            else [backslash, d]) l
          ∧ s2.escaped = false := by
        by_cases hd : d = percent
        · rw [if_pos hd]
          rw [hd] at hcut ⊢
          exact hcut.keep hesc1
        · rw [if_neg hd]
          obtain ⟨s2, hbody2, hcut2, hesc2⟩ := hcut.store (by
            rw [show s1.next.escaped = true from hesc1, if_pos rfl]
            exact hd)
          rw [List.append_assoc] at hcut2
          exact ⟨s2, hbody2, hcut2, hesc2⟩
      have hsecond : s1.next.loop (fuel + 2) = s2.next.loop (fuel + 1) :=
        loop_next hcut hdnul hbody2
      obtain ⟨s', hloop, hleft⟩ := ih hcut2 hesc2 hlnul fuel (by omega)
      refine ⟨s', (hfirst.trans hsecond).trans hloop, ?_⟩
      rw [← List.append_assoc]
      exact hleft
  | case5 d l hne =>
      obtain ⟨s', hbody, hleft⟩ := h.split hesc
      rw [List.append_nil]
      exact ⟨s', loop_left h (by decide) hbody, hleft⟩
  | case6 c d l hslash hpercent ih =>
      have hcnul : c ≠ nul := by
        rintro rfl
        exact hnul List.mem_cons_self
      rw [List.length_cons] at hfuel
      obtain ⟨fuel, rfl⟩ : ∃ n, fuel = n + 1 := ⟨fuel - 1, by
        rw [List.length_cons] at hfuel
        omega⟩
      obtain ⟨s1, hbody, hcut, hesc1⟩ := h.store (by
        rw [hesc, if_neg Bool.false_ne_true]
        exact ⟨hslash, hpercent⟩)
      obtain ⟨s', hloop, hleft⟩ := ih hcut hesc1
        (fun hmem => hnul (List.mem_cons_of_mem _ hmem)) fuel (by omega)
      refine ⟨s', (loop_next h hcnul hbody).trans hloop, ?_⟩
      rw [List.append_assoc] at hleft
      exact hleft

end

end CmdScan

/-- A string is what stands before the first NUL. -/
theorem ofBuf_stop {w : List UInt8} (hw : nul ∉ w) (t : List UInt8) :
    (CString.ofBuf (w ++ nul :: t)).bytes = w := by
  refine Span.takeWhile_run ?_ (Span.stops_cons.mpr (bne_self_eq_false nul))
  intro c hc
  exact bne_iff_ne.mpr (ne_of_mem_of_not_mem hc hw)

/-- Both parts of a command are made of its own characters. -/
theorem splitText_subset (l : List UInt8) :
    (∀ c ∈ (splitText l).1, c ∈ l) ∧ ∀ c ∈ (splitText l).2, c ∈ l := by
  fun_induction splitText l with
  | case1 => simp
  | case2 => simp
  | case3 c _ => simp
  | case4 d l ih =>
      obtain ⟨ih1, ih2⟩ := ih
      refine ⟨?_, fun c hc => ?_⟩
      · intro c hc
        rcases List.mem_append.mp hc with hc | hc
        · split at hc
          · next hd =>
            rw [List.mem_singleton.mp hc, ← hd]
            simp
          · rcases List.mem_cons.mp hc with rfl | hc
            · exact List.mem_cons_self
            · rw [List.mem_singleton.mp hc]
              simp
        · exact List.mem_cons_of_mem _ (List.mem_cons_of_mem _ (ih1 c hc))
      · exact List.mem_cons_of_mem _ (List.mem_cons_of_mem _ (ih2 c hc))
  | case5 d l _ => exact ⟨by simp, fun c hc => List.mem_cons_of_mem _ hc⟩
  | case6 c d l _ _ ih =>
      obtain ⟨ih1, ih2⟩ := ih
      refine ⟨?_, fun a ha => List.mem_cons_of_mem _ (ih2 a ha)⟩
      intro a ha
      rcases List.mem_cons.mp ha with rfl | ha
      · exact List.mem_cons_self
      · exact List.mem_cons_of_mem _ (ih1 a ha)

/-- The strings that are left in the array. -/
theorem splitCommand_eq (cmd : CString) :
    ∃ mem inputData, splitCommand cmd = some (mem, inputData)
      ∧ (CString.ofBuf mem).bytes = (splitText cmd.bytes).1
      ∧ (CString.ofBuf (mem.drop inputData)).bytes
        = (splitText cmd.bytes).2 := by
  obtain ⟨hcmd, hinput⟩ := splitText_subset cmd.bytes
  have hcut : CmdScan.Cut
      { mem := cmd.bytes ++ [nul], p := 0, inputData := 0, escaped := false }
      [] cmd.bytes := ⟨⟨[], rfl, rfl⟩, rfl⟩
  obtain ⟨s, hloop, t, hmem, hdrop⟩ :=
    CmdScan.loop_cuts hcut rfl cmd.noNul (Nat.lt_succ_self _)
  refine ⟨s.mem.set s.p nul, s.inputData, ?_, ?_, ?_⟩
  · unfold splitCommand
    dsimp only
    rw [hloop]
    rfl
  · rw [hmem]
    exact ofBuf_stop (fun h => cmd.noNul (hcmd nul h)) t
  · rw [hdrop]
    exact ofBuf_stop (fun h => cmd.noNul (hinput nul h)) []

-- ============================================================ the input

namespace Feed

variable {s : Feed} {c : UInt8}

/-- A character behind no backslash, which is no backslash, is written as
it is or as a newline. -/
theorem put_plain (hesc : s.escaped = false) (hc : c ≠ backslash) :
    s.put c = { out := s.out ++ [if c = percent then newline else c]
                needNewline := (if c = percent then newline else c) != newline
                escaped := false } := by
  unfold put
  rw [hesc, if_neg Bool.false_ne_true]
  dsimp only
  by_cases hp : c = percent
  · rw [if_pos hp]
    rfl
  · rw [if_neg hp, if_neg hc]

/-- A backslash is held back. -/
theorem put_slash (hesc : s.escaped = false) :
    s.put backslash = { s with escaped := true } := by
  unfold put
  rw [hesc, if_neg Bool.false_ne_true]
  rfl

/-- A percent sign behind one is written in its place. -/
theorem put_kept (hesc : s.escaped = true) :
    s.put percent
      = { out := s.out ++ [percent], needNewline := true
          escaped := false } := by
  unfold put
  rw [hesc, if_pos rfl]
  rfl

/-- Any other character behind a backslash: it is as if this had been
put, and nothing were pending. -/
theorem put_other (hesc : s.escaped = true) (hc : c ≠ percent) :
    s.put c
      = put { s with out := s.out ++ [backslash], escaped := false } c := by
  unfold put
  dsimp only
  rw [hesc, if_pos rfl, if_neg Bool.false_ne_true, if_pos hc, if_neg hc]

/-- What is out behind the loop. -/
def written (s : Feed) : List UInt8 :=
  if s.escaped then s.out ++ [backslash] else s.out

/-- The loop over the input. -/
theorem foldl_put (l : List UInt8) (hesc : s.escaped = false) :
    (l.foldl put s).written = s.out ++ inputText l
      ∧ (l.foldl put s).needNewline
        = lineOpen s.needNewline (inputText l) := by
  fun_induction inputText l generalizing s with
  | case1 =>
      rw [List.append_nil, List.foldl_nil, written, hesc]
      exact ⟨rfl, rfl⟩
  | case2 =>
      rw [List.foldl_cons, put_plain hesc (by decide)]
      exact ⟨rfl, rfl⟩
  | case3 c hc =>
      rw [List.foldl_cons, List.foldl_nil]
      by_cases hslash : c = backslash
      · rw [hslash, put_slash hesc]
        exact ⟨rfl, rfl⟩
      · rw [put_plain hesc hslash, if_neg hc]
        refine ⟨rfl, ?_⟩
        rw [lineOpen, if_neg hslash]
        rfl
  | case4 l ih =>
      rw [List.foldl_cons, List.foldl_cons, put_slash hesc, put_kept rfl]
      obtain ⟨hout, hneed⟩ := ih
        (s := { out := s.out ++ [percent], needNewline := true
                escaped := false }) rfl
      rw [hout, hneed, List.append_assoc]
      exact ⟨rfl, rfl⟩
  | case5 d l hd ih =>
      rw [List.foldl_cons, List.foldl_cons, put_slash hesc,
        put_other rfl hd, ← List.foldl_cons]
      obtain ⟨hout, hneed⟩ := ih
        (s := { s with out := s.out ++ [backslash], escaped := false }) rfl
      rw [hout, hneed, List.append_assoc]
      exact ⟨rfl, rfl⟩
  | case6 c d l hslash ih =>
      rw [List.foldl_cons, put_plain hesc hslash]
      obtain ⟨hout, hneed⟩ := ih
        (s := { out := s.out ++ [if c = percent then newline else c]
                needNewline := (if c = percent then newline else c) != newline
                escaped := false }) rfl
      rw [hout, hneed, List.append_assoc]
      refine ⟨rfl, ?_⟩
      rw [lineOpen]
      by_cases hc : c = percent
      · rw [if_pos hc, if_neg (by decide)]
      · rw [if_neg hc, if_neg hslash]

end Feed

/-- What is written to the standard input of a job. -/
theorem feed_eq (input : List UInt8) :
    feed input = closeLine (inputText input) := by
  obtain ⟨hout, hneed⟩ := Feed.foldl_put
    (s := { out := [], needNewline := false, escaped := false }) input rfl
  unfold Feed.written at hout
  unfold feed closeLine
  dsimp only
  rw [hout, hneed, List.nil_append]
  cases lineOpen false (inputText input) with
  | true => rfl
  | false => exact (List.append_nil _).symm

-- ===================================================== what can be said

/-- The condition on a command, character by character: `b` says that an
odd number of backslashes stands in front. -/
theorem evenSlashes_cons {b : Bool} {c : UInt8} {l : List UInt8} :
    EvenSlashes b (c :: l)
      ↔ (c = percent → b = false)
        ∧ EvenSlashes (if c = backslash then !b else false) l := by
  constructor
  · intro h
    refine ⟨fun hc => h [] l (by rw [hc]; rfl), ?_⟩
    intro a t hl
    exact h (c :: a) t (by rw [hl]; rfl)
  · rintro ⟨hc, hl⟩ a t heq
    cases a with
    | nil =>
        injection heq with heq _
        exact hc heq
    | cons x a =>
        injection heq with hx heq
        rw [← hx]
        exact hl a t heq

/-- It holds of the empty command. -/
theorem evenSlashes_nil (b : Bool) : EvenSlashes b [] := by
  intro a t h
  cases a with
  | nil => cases h
  | cons x a => cases h

/-- The first percent sign ends the command. -/
theorem splitText_percent (l : List UInt8) :
    splitText (percent :: l) = ([], l) := by
  cases l with
  | nil => rfl
  | cons d l => rw [splitText, if_neg (by decide), if_pos rfl]

/-- A plain character is part of it. -/
theorem splitText_plain {c : UInt8} (hslash : c ≠ backslash)
    (hpercent : c ≠ percent) (l : List UInt8) :
    splitText (c :: l) = (c :: (splitText l).1, (splitText l).2) := by
  cases l with
  | nil =>
      show splitText [c] = ([c], [])
      rw [splitText, if_neg hpercent]
  | cons d l => rw [splitText, if_neg hslash, if_neg hpercent]

/-- A backslash and what is behind it are taken together, and only before
a percent sign the backslash is dropped. -/
theorem splitText_pair (d : UInt8) (l : List UInt8) :
    splitText (backslash :: d :: l)
      = ((if d = percent then [percent] else [backslash, d])
          ++ (splitText l).1, (splitText l).2) := by
  rw [splitText, if_pos rfl]

/-- In what a shell gets each `%` stands behind an even number of
backslashes, and input is not behind an odd number of them. -/
theorem splitText_even (l : List UInt8) :
    EvenSlashes false (splitText l).1
      ∧ ((splitText l).2 ≠ [] → oddSlashes false (splitText l).1 = false) := by
  fun_induction splitText l with
  | case1 => exact ⟨evenSlashes_nil false, fun _ => rfl⟩
  | case2 => exact ⟨evenSlashes_nil false, fun _ => rfl⟩
  | case3 c hc =>
      exact ⟨evenSlashes_cons.mpr ⟨fun _ => rfl, evenSlashes_nil _⟩,
        fun h => absurd rfl h⟩
  | case4 d l ih =>
      by_cases hd : d = percent
      · rw [if_pos hd]
        exact ⟨evenSlashes_cons.mpr ⟨fun _ => rfl, ih.1⟩, ih.2⟩
      · -- the pair leaves the number even
        have hpair : (if d = backslash then !true else false) = false := by
          split <;> rfl
        rw [if_neg hd]
        refine ⟨evenSlashes_cons.mpr ⟨fun _ => rfl, ?_⟩, fun hne => ?_⟩
        · refine evenSlashes_cons.mpr ⟨fun h => absurd h hd, ?_⟩
          rw [if_pos rfl, Bool.not_false, hpair]
          exact ih.1
        · show oddSlashes _ (d :: (splitText l).1) = false
          rw [if_pos rfl, Bool.not_false, oddSlashes, hpair]
          exact ih.2 hne
  | case5 d l _ => exact ⟨evenSlashes_nil false, fun _ => rfl⟩
  | case6 c d l hslash _ ih =>
      refine ⟨evenSlashes_cons.mpr ⟨fun _ => rfl, ?_⟩, fun hne => ?_⟩
      · rw [if_neg hslash]
        exact ih.1
      · rw [oddSlashes, if_neg hslash]
        exact ih.2 hne

/-- Quoting an input, character by character. -/
theorem quoteText_cons (c : UInt8) (l : List UInt8) :
    quoteText (c :: l)
      = (if c = percent then [backslash, percent]
          else if c = newline then [percent] else [c]) ++ quoteText l := rfl

/-- A quoted command is split into itself and what is behind it. The
induction goes over one character at a time, with a backslash that waits
for the next one if `b`. -/
theorem splitText_quote {s : List UInt8} (hline : newline ∉ s)
    {tail i : List UInt8} {b : Bool} (heven : EvenSlashes b s)
    (htail : tail = [] ∧ i = []
      ∨ tail = percent :: i ∧ oddSlashes b s = false) :
    splitText ((if b then [backslash] else []) ++ (quoteText s ++ tail))
      = ((if b then [backslash] else []) ++ s, i) := by
  induction s generalizing b with
  | nil =>
      rcases htail with ⟨rfl, rfl⟩ | ⟨rfl, hodd⟩
      · cases b with
        | true => rfl
        | false => rfl
      · rw [oddSlashes] at hodd
        rw [hodd]
        exact splitText_percent i
  | cons c s ih =>
      have hc : c ≠ newline := fun h => hline (by rw [h]; simp)
      have hs : newline ∉ s := fun h => hline (List.mem_cons_of_mem c h)
      obtain ⟨hpercent, hnext⟩ := evenSlashes_cons.mp heven
      rw [oddSlashes] at htail
      rw [quoteText_cons, if_neg hc]
      by_cases hslash : c = backslash
      · rw [hslash, if_pos rfl] at hnext htail
        have hrest := ih hs hnext htail
        rw [hslash, if_neg (show backslash ≠ percent by decide)]
        cases b with
        | true =>
            -- two backslashes, and nothing waits
            show splitText (backslash :: backslash :: (quoteText s ++ tail))
              = _
            rw [splitText_pair, if_neg (by decide)]
            rw [show splitText (quoteText s ++ tail) = (s, i) from hrest]
            rfl
        | false => exact hrest
      · rw [if_neg hslash] at hnext htail
        have hrest : splitText (quoteText s ++ tail) = (s, i) :=
          ih hs hnext htail
        by_cases hp : c = percent
        · rw [hpercent hp, hp, if_pos rfl]
          show splitText (backslash :: percent :: (quoteText s ++ tail)) = _
          rw [splitText_pair, hrest]
          rfl
        · rw [if_neg hp]
          cases b with
          | true =>
              show splitText (backslash :: c :: (quoteText s ++ tail)) = _
              rw [splitText_pair, hrest, if_neg hp]
              rfl
          | false =>
              show splitText (c :: (quoteText s ++ tail)) = _
              rw [splitText_plain hslash hp, hrest]
              rfl

/-- In the input a percent sign is a newline. -/
theorem inputText_percent (l : List UInt8) :
    inputText (percent :: l) = newline :: inputText l := by
  cases l with
  | nil => rfl
  | cons d l => rw [inputText, if_neg (by decide), if_pos rfl]

/-- A plain character is itself. -/
theorem inputText_plain {c : UInt8} (hslash : c ≠ backslash)
    (hpercent : c ≠ percent) (l : List UInt8) :
    inputText (c :: l) = c :: inputText l := by
  cases l with
  | nil =>
      show inputText [c] = [c]
      rw [inputText, if_neg hpercent]
  | cons d l => rw [inputText, if_neg hslash, if_neg hpercent]

/-- A percent sign behind a backslash is itself. -/
theorem inputText_kept (l : List UInt8) :
    inputText (backslash :: percent :: l) = percent :: inputText l := by
  rw [inputText, if_pos rfl, if_pos rfl]

/-- And every other backslash is. -/
theorem inputText_slash {l : List UInt8} (hl : l.head? ≠ some percent) :
    inputText (backslash :: l) = backslash :: inputText l := by
  cases l with
  | nil => rfl
  | cons d l =>
      have hd : d ≠ percent := by
        rintro rfl
        exact hl rfl
      rw [inputText, if_pos rfl, if_neg hd]

/-- That no line ends in a backslash, character by character. -/
theorem noSlashedLine_cons {c : UInt8} {l : List UInt8} :
    NoSlashedLine (c :: l)
      ↔ (c = backslash → l.head? ≠ some newline) ∧ NoSlashedLine l := by
  constructor
  · intro h
    refine ⟨fun hc hhead => ?_, fun a b hl => ?_⟩
    · obtain ⟨t, ht⟩ := List.head?_eq_some_iff.mp hhead
      exact h [] t (by rw [hc, ht]; rfl)
    · exact h (c :: a) b (by rw [hl]; rfl)
  · rintro ⟨hc, hl⟩ a b heq
    cases a with
    | nil =>
        injection heq with heq htail
        exact hc heq (by rw [htail]; rfl)
    | cons x a =>
        injection heq with _ heq
        exact hl a b heq

/-- It is so of the empty text. -/
theorem noSlashedLine_nil : NoSlashedLine [] := by
  intro a b h
  cases a with
  | nil => cases h
  | cons x a => cases h

/-- No line of an input ends in a backslash. -/
theorem inputText_lines {l : List UInt8} (hline : newline ∉ l) :
    NoSlashedLine (inputText l) := by
  fun_induction inputText l with
  | case1 => exact noSlashedLine_nil
  | case2 =>
      exact noSlashedLine_cons.mpr ⟨fun h => absurd h (by decide),
        noSlashedLine_nil⟩
  | case3 c _ =>
      exact noSlashedLine_cons.mpr ⟨fun _ => by simp, noSlashedLine_nil⟩
  | case4 l ih =>
      refine noSlashedLine_cons.mpr ⟨fun h => absurd h (by decide), ?_⟩
      exact ih fun h => hline (by simp [h])
  | case5 d l hd ih =>
      have hl : newline ∉ d :: l :=
        fun h => hline (List.mem_cons_of_mem _ h)
      refine noSlashedLine_cons.mpr ⟨fun _ hhead => ?_, ih hl⟩
      -- the next character is no newline, and makes none
      have hdne : d ≠ newline := fun h => hl (by rw [h]; simp)
      by_cases hslash : d = backslash
      · rw [hslash] at hhead
        by_cases hnext : l.head? = some percent
        · obtain ⟨t, ht⟩ := List.head?_eq_some_iff.mp hnext
          rw [ht, inputText_kept] at hhead
          exact absurd hhead (by simp; decide)
        · rw [inputText_slash hnext] at hhead
          exact absurd hhead (by simp; decide)
      · rw [inputText_plain hslash hd] at hhead
        exact hdne (Option.some.inj hhead)
  | case6 c d l hslash ih =>
      refine noSlashedLine_cons.mpr ⟨fun h => ?_,
        ih fun h => hline (List.mem_cons_of_mem _ h)⟩
      split at h
      · exact absurd h (by decide)
      · exact absurd h hslash

/-- A quoted text is an input that reads as this text. -/
theorem inputText_quote {t : List UInt8} (ht : NoSlashedLine t) :
    inputText (quoteText t) = t := by
  induction t with
  | nil => rfl
  | cons c t ih =>
      obtain ⟨hc, htail⟩ := noSlashedLine_cons.mp ht
      have hrest := ih htail
      rw [quoteText_cons]
      by_cases hp : c = percent
      · rw [if_pos hp, hp]
        show inputText (backslash :: percent :: quoteText t) = _
        rw [inputText_kept, hrest]
      · rw [if_neg hp]
        by_cases hn : c = newline
        · rw [if_pos hn, hn]
          show inputText (percent :: quoteText t) = _
          rw [inputText_percent, hrest]
        · rw [if_neg hn]
          show inputText (c :: quoteText t) = _
          by_cases hslash : c = backslash
          · -- what follows is no newline, so it is no %
            have hhead : (quoteText t).head? ≠ some percent := by
              have hne := hc hslash
              cases t with
              | nil => simp [quoteText]
              | cons d t =>
                  have hd : d ≠ newline := fun h => hne (by rw [h]; rfl)
                  rw [quoteText_cons, if_neg hd]
                  split
                  · simp
                    decide
                  · next hd' => simpa using hd'
            rw [hslash, inputText_slash hhead, hrest]
          · rw [inputText_plain hslash hp, hrest]

/-- Only an empty input is read as nothing. -/
theorem inputText_eq_nil {l : List UInt8} : inputText l = [] ↔ l = [] := by
  constructor
  · intro h
    cases l with
    | nil => rfl
    | cons c l =>
        exfalso
        by_cases hp : c = percent
        · rw [hp, inputText_percent] at h
          cases h
        · by_cases hslash : c = backslash
          · rw [hslash] at h
            by_cases hnext : l.head? = some percent
            · obtain ⟨t, ht⟩ := List.head?_eq_some_iff.mp hnext
              rw [ht, inputText_kept] at h
              cases h
            · rw [inputText_slash hnext] at h
              cases h
          · rw [inputText_plain hslash hp] at h
            cases h
  · rintro rfl
    rfl

/-- Reading an input makes no NUL. -/
theorem nul_not_mem_inputText {l : List UInt8} (h : nul ∉ l) :
    nul ∉ inputText l := by
  fun_induction inputText l with
  | case1 => exact h
  | case2 => decide
  | case3 c _ => exact h
  | case4 l ih =>
      rw [List.mem_cons, not_or]
      exact ⟨by decide, ih fun hmem => h (by simp [hmem])⟩
  | case5 d l _ ih =>
      rw [List.mem_cons, not_or]
      exact ⟨by decide, ih fun hmem => h (List.mem_cons_of_mem _ hmem)⟩
  | case6 c d l _ ih =>
      rw [List.mem_cons, not_or]
      refine ⟨?_, ih fun hmem => h (List.mem_cons_of_mem _ hmem)⟩
      split
      · decide
      · rintro rfl
        exact h List.mem_cons_self

/-- Quoting puts in backslashes and percent signs, so it makes no NUL. -/
theorem nul_not_mem_quoteText {l : List UInt8} (h : nul ∉ l) :
    nul ∉ quoteText l := by
  intro hmem
  obtain ⟨c, hc, hin⟩ := List.mem_flatMap.mp hmem
  split at hin
  · exact absurd hin (by decide)
  · split at hin
    · exact absurd hin (by decide)
    · rw [List.mem_singleton.mp hin] at h
      exact h hc

/-- Quoting leaves no newline, so the quoted input is part of one line. -/
theorem newline_not_mem_quoteText (l : List UInt8) :
    newline ∉ quoteText l := by
  intro hmem
  obtain ⟨c, -, hin⟩ := List.mem_flatMap.mp hmem
  split at hin
  · exact absurd hin (by decide)
  · split at hin
    · exact absurd hin (by decide)
    · next hne => exact hne (List.mem_singleton.mp hin).symm

/-- From this command a shell gets `s`, and the job reads `u`. -/
def CommandGives (cmd : CString) (s u : List UInt8) : Prop :=
  ∃ mem inputData, splitCommand cmd = some (mem, inputData)
    ∧ (CString.ofBuf mem).bytes = s
    ∧ feed (CString.ofBuf (mem.drop inputData)).bytes = u

/-- What a command gives the shell and the job, by its two parts. -/
theorem commandGives_iff {cmd : CString} {s u : List UInt8} :
    CommandGives cmd s u
      ↔ (splitText cmd.bytes).1 = s
        ∧ closeLine (inputText (splitText cmd.bytes).2) = u := by
  obtain ⟨mem, inputData, hsplit, hcmd, hinput⟩ := splitCommand_eq cmd
  constructor
  · rintro ⟨mem', inputData', hsplit', hs, hu⟩
    rw [hsplit] at hsplit'
    cases hsplit'
    rw [← hcmd, ← hinput, ← feed_eq]
    exact ⟨hs, hu⟩
  · rintro ⟨hs, hu⟩
    refine ⟨mem, inputData, hsplit, hcmd.trans hs, ?_⟩
    rw [feed_eq, hinput]
    exact hu

/-- **What a crontab can tell a shell.** A command is in the reach of a
crontab if and only if each `%` of it stands behind an even number of
backslashes; and an input is if and only if it is, but for the newline at
its end, a text none of whose lines ends in a backslash. A command that
is given input must not end in an odd number of backslashes. There are
no other limits than those of a line. -/
theorem commands_expressible (s u : List UInt8) :
    (∃ cmd : CString, newline ∉ cmd.bytes ∧ CommandGives cmd s u)
      ↔ (nul ∉ s ∧ newline ∉ s ∧ EvenSlashes false s)
        ∧ ∃ t, nul ∉ t ∧ NoSlashedLine t ∧ u = closeLine t
          ∧ (t ≠ [] → oddSlashes false s = false) := by
  constructor
  · rintro ⟨cmd, hline, hgives⟩
    obtain ⟨hs, hu⟩ := commandGives_iff.mp hgives
    obtain ⟨hcmd, hinput⟩ := splitText_subset cmd.bytes
    obtain ⟨heven, hodd⟩ := splitText_even cmd.bytes
    rw [hs] at hcmd heven hodd
    refine ⟨⟨fun h => cmd.noNul (hcmd nul h), fun h => hline (hcmd _ h),
      heven⟩, _, ?_, ?_, hu.symm, ?_⟩
    · exact nul_not_mem_inputText fun h => cmd.noNul (hinput nul h)
    · exact inputText_lines fun h => hline (hinput _ h)
    · exact fun h => hodd fun hnil => h (inputText_eq_nil.mpr hnil)
  · rintro ⟨⟨hnul, hline, heven⟩, t, htnul, ht, rfl, hodd⟩
    -- the command, and a % and the input, if there is any
    obtain ⟨tail, htail, hmem⟩ : ∃ tail,
        (tail = [] ∧ quoteText t = []
          ∨ tail = percent :: quoteText t ∧ oddSlashes false s = false)
        ∧ nul ∉ tail ∧ newline ∉ tail := by
      by_cases hnil : t = []
      · refine ⟨[], Or.inl ⟨rfl, ?_⟩, by simp, by simp⟩
        rw [hnil]
        rfl
      · refine ⟨_, Or.inr ⟨rfl, hodd hnil⟩, ?_, ?_⟩
        · rw [List.mem_cons, not_or]
          exact ⟨by decide, nul_not_mem_quoteText htnul⟩
        · rw [List.mem_cons, not_or]
          exact ⟨by decide, newline_not_mem_quoteText t⟩
    have hsplit : splitText (quoteText s ++ tail) = (s, quoteText t) :=
      splitText_quote hline (b := false) heven htail
    have hnonul : nul ∉ quoteText s ++ tail := by
      rw [List.mem_append, not_or]
      exact ⟨nul_not_mem_quoteText hnul, hmem.1⟩
    refine ⟨{ bytes := quoteText s ++ tail, noNul := hnonul }, ?_, ?_⟩
    · show newline ∉ quoteText s ++ tail
      rw [List.mem_append, not_or]
      exact ⟨newline_not_mem_quoteText s, hmem.2⟩
    · rw [commandGives_iff]
      dsimp only
      rw [hsplit, inputText_quote ht]
      exact ⟨rfl, rfl⟩

-- ======================================================== the last newline

/-- Whether a line is open behind two texts, by the first and then the
second. -/
theorem lineOpen_append (b : Bool) (t u : List UInt8) :
    lineOpen b (t ++ u) = lineOpen (lineOpen b t) u := by
  induction t generalizing b with
  | nil => rfl
  | cons c t ih => exact ih _

/-- Backslashes do not change it: they are held back. -/
theorem lineOpen_slashes (b : Bool) (k : Nat) :
    lineOpen b (List.replicate k backslash) = b := by
  induction k with
  | zero => rfl
  | succ k ih =>
      rw [List.replicate_succ, lineOpen, if_pos rfl]
      exact ih

/-- The backslashes at the end of a text. -/
theorem slashes_split (t : List UInt8) :
    ∃ a k, t = a ++ List.replicate k backslash
      ∧ ∀ c, a.getLast? = some c → c ≠ backslash := by
  induction t using List.reverseRecOn with
  | nil => exact ⟨[], 0, rfl, by simp⟩
  | append_singleton t c ih =>
      by_cases hc : c = backslash
      · obtain ⟨a, k, rfl, ha⟩ := ih
        refine ⟨a, k + 1, ?_, ha⟩
        rw [hc, List.replicate_succ', List.append_assoc]
      · refine ⟨t ++ [c], 0, (List.append_nil _).symm, ?_⟩
        intro d hd
        rw [List.getLast?_append] at hd
        injection hd with hd
        rw [← hd]
        exact hc

/-- Behind a newline no line is open. -/
theorem lineOpen_of_newline {a : List UInt8}
    (ha : ∀ c, a.getLast? = some c → c = newline) :
    lineOpen false a = false := by
  induction a using List.reverseRecOn with
  | nil => rfl
  | append_singleton a c _ =>
      have hc : c = newline := ha c (by simp)
      rw [lineOpen_append, hc]
      rfl

/-- A text that ends in backslashes has one for its last character. -/
theorem getLast_slashes (a : List UInt8) (k : Nat) :
    (a ++ List.replicate (k + 1) backslash).getLast? = some backslash := by
  rw [List.replicate_succ', ← List.append_assoc, List.getLast?_append]
  rfl

/-- **The last newline.** What is written to the standard input of a job,
if anything is, ends in a newline; but it does not if the last line is
nothing but backslashes. -/
theorem input_ended_iff {input : List UInt8} (hinput : input ≠ []) :
    (feed input).getLast? = some newline
      ↔ ¬ LastLineSlashes (inputText input) := by
  have hne : inputText input ≠ [] := fun h => hinput (inputText_eq_nil.mp h)
  rw [feed_eq, closeLine]
  generalize inputText input = t at hne
  cases hopen : lineOpen false t with
  | true =>
      rw [if_pos rfl, List.getLast?_append]
      refine ⟨fun _ => ?_, fun _ => rfl⟩
      rintro ⟨a, k, -, rfl, ha⟩
      rw [lineOpen_append, lineOpen_of_newline ha, lineOpen_slashes] at hopen
      cases hopen
  | false =>
      rw [if_neg Bool.false_ne_true, List.append_nil]
      obtain ⟨a, k, rfl, ha⟩ := slashes_split t
      rw [lineOpen_append, lineOpen_slashes] at hopen
      have hnewline : ∀ c, a.getLast? = some c → c = newline := by
        intro c hc
        obtain ⟨a', rfl⟩ := List.getLast?_eq_some_iff.mp hc
        rw [lineOpen_append, lineOpen, if_neg (ha c hc)] at hopen
        exact bne_eq_false_iff_eq.mp hopen
      cases k with
      | zero =>
          rw [List.replicate_zero, List.append_nil] at hne ⊢
          obtain ⟨c, hc⟩ :=
            Option.isSome_iff_exists.mp (List.getLast?_isSome.mpr hne)
          rw [hc, hnewline c hc]
          refine ⟨fun _ => ?_, fun _ => rfl⟩
          rintro ⟨a', k, hk, heq, -⟩
          obtain ⟨k, rfl⟩ := Nat.exists_eq_add_one.mpr hk
          rw [heq, getLast_slashes] at hc
          exact ha c (by rw [heq, getLast_slashes, hc])
            (Option.some.inj hc).symm
      | succ k =>
          rw [getLast_slashes]
          refine ⟨fun h => absurd h (by decide), fun h => absurd ?_ h⟩
          exact ⟨a, k + 1, Nat.succ_pos k, rfl, hnewline⟩

/-- The input of the command `a%\`: the backslash that was held back is
written at the end, and no newline behind it. -/
theorem slash_not_ended :
    (feed (bytes "a%\\")).getLast? ≠ some newline := by
  have hslash : LastLineSlashes (inputText (bytes "a%\\")) := by
    refine ⟨bytes "a" ++ [newline], 1, by decide, by decide +kernel, ?_⟩
    intro c hc
    injection hc with hc
    exact hc.symm
  intro h
  exact (input_ended_iff (by decide)).mp h hslash

end Tinjac.Crond
