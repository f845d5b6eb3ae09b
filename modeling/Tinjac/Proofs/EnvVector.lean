/-
What the `env_*` functions do to an environment vector.

`Rep h v addrs l` says that the block at `v` is a `NULL`-terminated
vector whose cells point to blocks of their own (`addrs`) that hold the
strings `l`. Under it each function has one specification lemma: what it
returns on success, and in both cases which blocks it left alone
(`Frame`). The failing exits change no block at all that was there
before.

The search of `env_set` compares with `strcmp_until` and takes the last
match, the one of `env_get` compares lengths and takes the first. They
agree because names are distinct, which `KeyedList.nodup_settle` gives
for what a history of updates settles to.
-/
import Tinjac.Model.Env
import Tinjac.Lib.KeyedList
import Mathlib.Data.List.Find

namespace Tinjac

open BlockHeap BlockHeap.Heap CHeap KeyedList

-- ============================================================= strings

/-- The part of a string before the first `=`; all of it if there is none.
-/
def envName (s : CString) : List UInt8 :=
  s.bytes.takeWhile fun c => c != equals

/-- The text after the first `=`; nothing if there is none. -/
def envValue (s : CString) : List UInt8 :=
  (s.bytes.dropWhile fun c => c != equals).tail

theorem signed_sub_eq_zero {a b : UInt8} :
    a.toInt8.toInt - b.toInt8.toInt = 0 ↔ a = b := by
  constructor
  · intro h
    have hint : a.toInt8.toInt = b.toInt8.toInt := by omega
    have hint8 := Int8.toInt_inj.mp hint
    rw [← UInt8.toUInt8_toInt8 a, hint8, UInt8.toUInt8_toInt8]
  · intro hgiven
    obtain rfl := hgiven
    omega

/-- The end of one string against the first character of another. -/
theorem final_eq_zero_of_end {l r : List UInt8} (c : UInt8)
    (hc : c ≠ nul) (hl : headChar l = nul ∧ headChar r = c
      ∨ headChar l = c ∧ headChar r = nul) :
    strcmpUntil.final equals l r = 0 ↔ c = equals := by
  have hne : equals ≠ nul := by decide
  unfold strcmpUntil.final
  rcases hl with ⟨hleft, hright⟩ | ⟨hleft, hright⟩
  · rw [hleft, hright]
    by_cases he : c = equals
    · simp [he]
    · rw [if_neg (by simp [hc, he]), signed_sub_eq_zero]
      exact iff_of_false (fun h => hc h.symm) he
  · rw [hleft, hright]
    by_cases he : c = equals
    · simp [he]
    · rw [if_neg (by simp [hc, he]), signed_sub_eq_zero]
      exact iff_of_false hc he

/-- `strcmp_until` on two strings tells whether their names are the
same, also where there is no `=`. -/
theorem strcmpUntil_eq_zero {l r : List UInt8}
    (hnl : nul ∉ l) (hnr : nul ∉ r) :
    strcmpUntil l r equals = 0
      ↔ (l.takeWhile fun c => c != equals)
        = r.takeWhile fun c => c != equals := by
  induction l generalizing r with
  | nil =>
      cases r with
      | nil => exact iff_of_true rfl rfl
      | cons b r =>
          have hb0 : b ≠ nul := fun h => hnr (h ▸ List.mem_cons_self)
          rw [strcmpUntil, List.takeWhile_cons,
            final_eq_zero_of_end b hb0 (Or.inl ⟨rfl, rfl⟩)]
          · by_cases hbe : b = equals
            · simp [hbe]
            · simp [hbe]
          · intro _ _ _ _ heq
            cases heq
  | cons a l ih =>
      cases r with
      | nil =>
          have ha0 : a ≠ nul := fun h => hnl (h ▸ List.mem_cons_self)
          rw [strcmpUntil, List.takeWhile_cons,
            final_eq_zero_of_end a ha0 (Or.inr ⟨rfl, rfl⟩)]
          · by_cases hae : a = equals
            · simp [hae]
            · simp [hae]
          · intro _ _ _ _ _ heq
            cases heq
      | cons b r =>
          rw [List.mem_cons, not_or] at hnl hnr
          have ha0 : a ≠ nul := fun h => hnl.1 h.symm
          have hb0 : b ≠ nul := fun h => hnr.1 h.symm
          rw [strcmpUntil, List.takeWhile_cons, List.takeWhile_cons]
          by_cases hgo : a ≠ equals ∧ a = b
          · obtain ⟨hae, rfl⟩ := hgo
            rw [if_pos ⟨hae, rfl⟩, ih hnl.2 hnr.2]
            simp [hae]
          · rw [if_neg hgo]
            unfold strcmpUntil.final
            simp only [headChar, List.headD_cons, ha0, hb0, false_or]
            by_cases hae : a = equals
            · by_cases hbe : b = equals
              · simp [hae, hbe]
              · have hab : a ≠ b := fun h => hbe (h.symm.trans hae)
                rw [if_neg (fun h => hbe h.2), signed_sub_eq_zero]
                simp only [hab, false_iff]
                simp [hae, hbe]
            · have hab : a ≠ b := fun h => hgo ⟨hae, h⟩
              rw [if_neg (fun h => hae h.1), signed_sub_eq_zero]
              by_cases hbe : b = equals
              · simp [hae, hbe]
              · simp [hae, hbe, hab]

-- ============================================================= vectors

/-- The block at `v` is a vector of the blocks `addrs`, which hold the
strings `l`; all of them are different blocks. -/
structure Rep (h : CHeap) (v : Nat) (addrs : List Nat)
    (l : List CString) : Prop where
  vec : h.block v = some (.vec (addrs.map Cell.ptr ++ [Cell.null]))
  strs : addrs.map h.block = l.map fun s => some (Block.str s)
  nodup : (v :: addrs).Nodup

namespace Rep

variable {h h' : CHeap} {v : Nat} {addrs : List Nat} {l : List CString}

theorem length_eq (hrep : Rep h v addrs l) : addrs.length = l.length := by
  have hlen := congrArg List.length hrep.strs
  simpa using hlen

theorem vec_eq (hrep : Rep h v addrs l) :
    CHeap.vec h v = addrs.map Cell.ptr ++ [Cell.null] := by
  unfold CHeap.vec
  rw [hrep.vec]

/-- The block of a string. -/
theorem block_get (hrep : Rep h v addrs l) {i : Nat}
    (hi : i < addrs.length) (hi' : i < l.length) :
    h.block addrs[i] = some (.str l[i]) := by
  have hget := congrArg (fun m => m[i]?) hrep.strs
  simp only [List.getElem?_map, List.getElem?_eq_getElem hi,
    List.getElem?_eq_getElem hi', Option.map_some] at hget
  exact Option.some.inj hget

theorem cell_eq (hrep : Rep h v addrs l) {i : Nat}
    (hi : i < addrs.length) : cell h v i = .ptr addrs[i] := by
  unfold cell
  rw [hrep.vec_eq, List.getD_eq_getElem?_getD, List.getElem?_append_left
    (by simpa using hi)]
  simp [hi]

theorem strAt_cell (hrep : Rep h v addrs l) {i : Nat}
    (hi : i < l.length) : strAt h (cell h v i) = l[i] := by
  have hi' : i < addrs.length := by rw [hrep.length_eq]; exact hi
  rw [hrep.cell_eq hi']
  unfold strAt str
  dsimp only
  rw [hrep.block_get hi' hi]

/-- Every block of a vector is live. -/
theorem lt_next (hrep : Rep h v addrs l) {a : Nat} (ha : a ∈ v :: addrs) :
    a < h.next := by
  rcases List.mem_cons.mp ha with rfl | ha
  · exact lt_next_of_block hrep.vec
  · obtain ⟨i, hi, rfl⟩ := List.getElem_of_mem ha
    exact lt_next_of_block
      (hrep.block_get hi (by rw [← hrep.length_eq]; exact hi))

/-- A vector outlives what does not touch its blocks. -/
theorem frame (hrep : Rep h v addrs l) {S : Nat → Prop}
    (hf : Frame h h' S) (hS : ∀ a ∈ v :: addrs, ¬ S a) :
    Rep h' v addrs l := by
  have hkeep : ∀ a ∈ v :: addrs, h'.block a = h.block a :=
    fun a ha => hf.keep a (hrep.lt_next ha) (hS a ha)
  refine ⟨?_, ?_, hrep.nodup⟩
  · rw [hkeep v List.mem_cons_self]
    exact hrep.vec
  · rw [← hrep.strs]
    exact List.map_congr_left fun a ha =>
      hkeep a (List.mem_cons_of_mem v ha)

theorem countCells_eq (hrep : Rep h v addrs l) :
    countCells h v = l.length := by
  unfold countCells
  rw [hrep.vec_eq, List.findIdx_append, List.findIdx_map, ← hrep.length_eq]
  have hnone : addrs.findIdx ((fun c => decide (c = Cell.null)) ∘ Cell.ptr)
      = addrs.length := by
    rw [List.findIdx_eq_length]
    intro a _
    simp
  rw [hnone, List.length_map, if_neg (Nat.lt_irrefl _)]
  simp

end Rep

-- ============================================================= env_get

/-- The value of the first string with this name, as `env_get` finds it.
-/
def lookup (l : List CString) (name : List UInt8) :
    Option (List UInt8) :=
  (l.find? fun s => decide (envName s = name)).map envValue

/-- Where `strchr(p, '=')` stops: behind the name, if there is an equals
sign at all. -/
theorem idxOf_equals (p : List UInt8) :
    p.idxOf? equals
      = if equals ∈ p then some (p.takeWhile fun c => c != equals).length
        else none := by
  induction p with
  | nil => rfl
  | cons c p ih =>
      rw [List.idxOf?_cons, ih, List.takeWhile_cons]
      by_cases hc : c = equals
      · simp [hc]
      · have hne : equals ≠ c := fun h => hc h.symm
        by_cases hmem : equals ∈ p
        · simp [hc, hmem]
        · simp [hc, hmem, hne]

/-- What `env_get` asks of one string: the position of its first `=` is
the length of the name, and it begins with the name. -/
theorem value_of_idxOf (s : CString) (name : List UInt8) :
    (match s.bytes.idxOf? equals with
      | none => none
      | some q =>
          if q = name.length ∧ s.bytes.take name.length = name then
            some (s.bytes.drop (q + 1))
          else none)
      = if equals ∈ s.bytes ∧ envName s = name then some (envValue s)
        else none := by
  have hsplit := List.takeWhile_append_dropWhile
    (p := fun c => c != equals) (l := s.bytes)
  have htake : s.bytes.take (envName s).length = envName s := by
    conv_lhs => rw [← hsplit]
    exact List.take_left
  have hdrop : s.bytes.drop ((envName s).length + 1) = envValue s := by
    rw [← List.tail_drop]
    conv_lhs => rw [← hsplit]
    unfold envValue
    congr 1
    exact List.drop_left
  by_cases hs : equals ∈ s.bytes
  case neg => rw [idxOf_equals, if_neg hs, if_neg (fun h => hs h.1)]
  rw [idxOf_equals, if_pos hs]
  simp only [hs, true_and]
  show (if (envName s).length = name.length
    ∧ s.bytes.take name.length = name
    then some (s.bytes.drop ((envName s).length + 1)) else none) = _
  by_cases hname : envName s = name
  · rw [if_pos hname, hdrop, if_pos]
    rw [← hname]
    exact ⟨rfl, htake⟩
  · rw [if_neg hname, if_neg]
    intro hgiven
    obtain ⟨hlen, hpre⟩ := hgiven
    rw [← hlen, htake] at hpre
    exact hname hpre

theorem Rep.map_str {h : CHeap} {v : Nat} {addrs : List Nat}
    {l : List CString} (hrep : Rep h v addrs l) :
    addrs.map (str h) = l := by
  refine List.ext_getElem (by simpa using hrep.length_eq) ?_
  intro i hi hi'
  rw [List.length_map] at hi
  rw [List.getElem_map]
  unfold str
  rw [hrep.block_get hi]

theorem findSome_ite_eq {α β : Type} (l : List α) (p : α → Prop)
    [DecidablePred p] (g : α → β) :
    l.findSome? (fun a => if p a then some (g a) else none)
      = (l.find? fun a => decide (p a)).map g := by
  induction l with
  | nil => rfl
  | cons a l ih =>
      rw [List.findSome?_cons, List.find?_cons]
      by_cases ha : p a
      · simp [ha]
      · simp [ha, ih]

/-- `env_get` on a vector returns the value of the first string that has
the name. -/
theorem envGet_find {h : CHeap} {v : Nat} {addrs : List Nat}
    {l : List CString} (hrep : Rep h v addrs l) (name : List UInt8) :
    envGet h name v
      = (l.find? fun s => decide (equals ∈ s.bytes ∧ envName s = name)).map
          envValue := by
  have htake : (vec h v).takeWhile (fun c => decide (c ≠ Cell.null))
      = addrs.map Cell.ptr := by
    rw [hrep.vec_eq, List.takeWhile_append_of_pos]
    · simp
    · intro c hc
      obtain ⟨a, -, rfl⟩ := List.mem_map.mp hc
      simp
  unfold envGet
  rw [htake, List.findSome?_map, ← findSome_ite_eq, ← hrep.map_str,
    List.findSome?_map]
  congr 1
  funext a
  exact value_of_idxOf (str h a) name

/-- `env_get` on a vector of strings with an `=` each. -/
theorem envGet_eq {h : CHeap} {v : Nat} {addrs : List Nat}
    {l : List CString} (hrep : Rep h v addrs l)
    (hl : ∀ s ∈ l, equals ∈ s.bytes) (name : List UInt8) :
    envGet h name v = lookup l name := by
  rw [envGet_find hrep, lookup]
  refine congrArg _ (List.find?_congr ?_)
  intro s hs
  simp [hl s hs]

-- ============================================================ env_init

theorem envInit_spec (h : CHeap) :
    (∃ h', envInit h = (none, h') ∧ Frame h h' (fun _ => False)
      ∧ ∃ n, h.granted n = false)
    ∨ ∃ v h', envInit h = (some v, h') ∧ Rep h' v [] []
      ∧ Frame h h' (fun _ => False) ∧ h.next ≤ v := by
  unfold envInit mallocVec
  cases ha : h.alloc (.vec (List.replicate 1 .uninit)) with
  | mk r h' =>
      have hframe := frame_alloc ha (fun _ => False)
      cases r with
      | none =>
          obtain ⟨-, -, hno⟩ := alloc_none ha
          exact Or.inl ⟨h', rfl, hframe, _, hno⟩
      | some v =>
          obtain ⟨hv, hnext, hblock⟩ := alloc_some ha
          refine Or.inr ⟨v, _, rfl, ?_, ?_, hv.ge⟩
          · refine ⟨?_, rfl, by simp⟩
            unfold setCell
            rw [update_block, if_pos rfl, hblock, if_pos rfl]
            rfl
          · have hupd := frame_update h' (p := v) (S := fun a => a = v) rfl
              (Block.setCell 0 .null)
            refine hframe.trans hupd ?_
            intro a ha' hav
            omega

-- ============================================================= env_set

/-- The search of `env_set`: what it finds has the name, and it finds
something if there is anything to find. -/
theorem envFound_spec {h : CHeap} {v : Nat} {addrs : List Nat}
    {l : List CString} (hrep : Rep h v addrs l) {s : CString} {n : Nat}
    (hn : n ≤ l.length) :
    match envFound h v s n with
    | none => ∀ i (hi : i < l.length), i < n → envName l[i] ≠ envName s
    | some k => ∃ hk : k < l.length, envName l[k] = envName s := by
  induction n with
  | zero =>
      intro i hi hlt
      omega
  | succ n ih =>
      have hlt : n < l.length := by omega
      have hcmp : strcmpUntil (strAt h (cell h v n)).bytes s.bytes equals = 0
          ↔ envName l[n] = envName s := by
        rw [hrep.strAt_cell hlt]
        exact strcmpUntil_eq_zero l[n].noNul s.noNul
      have hstep : envFound h v s (n + 1)
          = if strcmpUntil (strAt h (cell h v n)).bytes s.bytes equals = 0
            then some n else envFound h v s n := by
        unfold envFound
        rw [List.range_succ, List.foldl_append]
        rfl
      rw [hstep]
      by_cases hmatch : envName l[n] = envName s
      · rw [if_pos (hcmp.mpr hmatch)]
        exact ⟨hlt, hmatch⟩
      · rw [if_neg (fun h0 => hmatch (hcmp.mp h0))]
        have hrec := ih (by omega)
        cases hfound : envFound h v s n with
        | some k =>
            rw [hfound] at hrec
            exact hrec
        | none =>
            rw [hfound] at hrec
            intro i hi hin
            by_cases hi' : i = n
            · subst hi'
              exact hmatch
            · exact hrec i hi (by omega)

/-- A call that returned `NULL`: an allocation failed, and nothing that
was there was changed. -/
def Failed (h h' : CHeap) : Prop :=
  Frame h h' (fun _ => False) ∧ ∃ n, h.granted n = false

/-- A vector after one string block was exchanged for a new one. -/
theorem Rep.set {h h' : CHeap} {v : Nat} {addrs : List Nat}
    {l : List CString} (hrep : Rep h v addrs l) (s : CString) {k q : Nat}
    (hk : k < addrs.length) (hq : h.next ≤ q)
    (hblock : ∀ a, h'.block a
      = if a = v then
          some (.vec ((addrs.set k q).map Cell.ptr ++ [Cell.null]))
        else if a = addrs[k] then none
        else if a = q then some (.str s) else h.block a) :
    Rep h' v (addrs.set k q) (l.set k s) := by
  obtain ⟨hvnot, hnodup⟩ := List.nodup_cons.mp hrep.nodup
  have hvlt : v < h.next := hrep.lt_next List.mem_cons_self
  have hqnot : q ∉ addrs := by
    intro hmem
    have := hrep.lt_next (List.mem_cons_of_mem v hmem)
    omega
  refine ⟨?_, ?_, ?_⟩
  · rw [hblock, if_pos rfl]
  · refine List.ext_getElem (by simpa using hrep.length_eq) ?_
    intro i hi hi'
    rw [List.length_map, List.length_set] at hi
    rw [List.getElem_map, List.getElem_map, hblock, List.getElem_set,
      List.getElem_set]
    by_cases hik : k = i
    · subst hik
      rw [if_pos rfl, if_pos rfl, if_neg (by omega),
        if_neg (ne_of_mem_of_not_mem (List.getElem_mem hk) hqnot).symm,
        if_pos rfl]
    · have hmem : addrs[i] ∈ addrs := List.getElem_mem hi
      have hother : addrs[i] ≠ addrs[k] :=
        fun heq => hik (hnodup.getElem_inj_iff.mp heq).symm
      rw [if_neg hik, if_neg hik, if_neg (ne_of_mem_of_not_mem hmem hvnot),
        if_neg hother, if_neg (ne_of_mem_of_not_mem hmem hqnot),
        hrep.block_get hi]
  · refine List.nodup_cons.mpr ⟨?_, hnodup.set hqnot⟩
    intro hmem
    rcases List.mem_or_eq_of_mem_set hmem with hmem | heq
    · exact hvnot hmem
    · omega

/-- A vector moved to a new block with a string appended. -/
theorem Rep.append {h h' : CHeap} {v : Nat} {addrs : List Nat}
    {l : List CString} (hrep : Rep h v addrs l) (s : CString) {p q : Nat}
    (hq : h.next ≤ q) (hp : h.next ≤ p) (hpq : p ≠ q)
    (hblock : ∀ a, h'.block a
      = if a = p then
          some (.vec ((addrs ++ [q]).map Cell.ptr ++ [Cell.null]))
        else if a = v then none
        else if a = q then some (.str s) else h.block a) :
    Rep h' p (addrs ++ [q]) (l ++ [s]) := by
  obtain ⟨hvnot, hnodup⟩ := List.nodup_cons.mp hrep.nodup
  have hvlt : v < h.next := hrep.lt_next List.mem_cons_self
  have hlt : ∀ a ∈ addrs, a < h.next :=
    fun a ha => hrep.lt_next (List.mem_cons_of_mem v ha)
  refine ⟨?_, ?_, ?_⟩
  · rw [hblock, if_pos rfl]
  · rw [List.map_append, List.map_append, ← hrep.strs]
    congr 1
    · refine List.map_congr_left fun a ha => ?_
      have := hlt a ha
      rw [hblock, if_neg (by omega),
        if_neg (ne_of_mem_of_not_mem ha hvnot), if_neg (by omega)]
    · simp only [List.map_cons, List.map_nil]
      rw [hblock, if_neg hpq.symm, if_neg (by omega), if_pos rfl]
  · rw [List.nodup_cons, List.mem_append, List.mem_singleton, not_or,
      List.nodup_append]
    refine ⟨⟨?_, hpq⟩, hnodup, List.nodup_singleton q, ?_⟩
    · intro hmem
      have := hlt p hmem
      omega
    · intro a ha b hb
      have := hlt a ha
      have := List.mem_singleton.mp hb
      omega

/-- The string replaces the one with its name. -/
theorem envSet_replace {h : CHeap} {v : Nat} {addrs : List Nat}
    {l : List CString} (hrep : Rep h v addrs l) {s : CString} {k : Nat}
    (hk : k < l.length) (hfound : envFound h v s l.length = some k) :
    (∃ h', envSet h v s = (none, h') ∧ Failed h h')
    ∨ ∃ v' h' addrs', envSet h v s = (some v', h')
      ∧ Rep h' v' addrs' (l.set k s)
      ∧ Frame h h' (fun a => a ∈ v :: addrs)
      ∧ ∀ a ∈ v' :: addrs', a ∈ v :: addrs ∨ h.next ≤ a := by
  have hk' : k < addrs.length := by rw [hrep.length_eq]; exact hk
  unfold envSet strdup
  dsimp only
  rw [hrep.countCells_eq, hfound]
  dsimp only
  cases ha : h.alloc (.str s) with
  | mk r h1 =>
      have hframe := frame_alloc ha fun _ => False
      cases r with
      | none =>
          obtain ⟨-, -, hno⟩ := alloc_none ha
          exact Or.inl ⟨h1, rfl, hframe, _, hno⟩
      | some q =>
          obtain ⟨hq, hnext, hblock⟩ := alloc_some ha
          have hold : cell h1 v k = .ptr addrs[k] :=
            (hrep.frame hframe fun _ _ hf => hf).cell_eq hk'
          have hvlt : v < h.next := hrep.lt_next List.mem_cons_self
          have hkv : v ≠ addrs[k] := fun heq =>
            (List.nodup_cons.mp hrep.nodup).1
              (heq ▸ List.getElem_mem hk')
          have hfinal : ∀ a,
              (setCell (h1.free addrs[k]) v k (.ptr q)).block a
              = if a = v then
                  some (.vec ((addrs.set k q).map Cell.ptr ++ [Cell.null]))
                else if a = addrs[k] then none
                else if a = q then some (.str s) else h.block a := by
            intro a
            unfold setCell
            rw [update_block, free_block, hblock]
            by_cases hav : a = v
            · subst hav
              rw [if_pos rfl, if_pos rfl, if_neg hkv, if_neg (by omega),
                hrep.vec]
              simp only [Option.map_some, Block.setCell, List.map_set]
              rw [List.set_append_left _ _ (by simpa using hk')]
            · rw [if_neg hav, if_neg hav]
          dsimp only
          rw [hold, freeCell_ptr]
          refine Or.inr ⟨v, _, addrs.set k q, rfl,
            hrep.set s hk' hq.ge hfinal, ⟨?_, hframe.granted, ?_⟩, ?_⟩
          · show h.next ≤ h1.next
            omega
          · intro a halt hnot
            rw [List.mem_cons, not_or] at hnot
            rw [hfinal, if_neg hnot.1,
              if_neg (ne_of_mem_of_not_mem (List.getElem_mem hk') hnot.2).symm,
              if_neg (by omega)]
          · intro a hmem
            rcases List.mem_cons.mp hmem with rfl | hmem
            · exact Or.inl List.mem_cons_self
            · rcases List.mem_or_eq_of_mem_set hmem with hmem | rfl
              · exact Or.inl (List.mem_cons_of_mem v hmem)
              · exact Or.inr hq.ge

/-- What `realloc` to one more cell does to a vector. -/
theorem reallocVec_spec {h : CHeap} {v : Nat} {addrs : List Nat}
    {l : List CString} (hrep : Rep h v addrs l) :
    (∃ h', reallocVec h v (addrs.length + 2) = (none, h') ∧ Failed h h'
      ∧ h'.next = h.next)
    ∨ ∃ h', reallocVec h v (addrs.length + 2) = (some h.next, h')
      ∧ h'.next = h.next + 1 ∧ h'.granted = h.granted
      ∧ ∀ a, h'.block a
        = if a = h.next then
            some (.vec (addrs.map Cell.ptr ++ [Cell.null, Cell.uninit]))
          else if a = v then none else h.block a := by
  have hcells : (vec h v).take (addrs.length + 2)
      ++ List.replicate (addrs.length + 2 - (vec h v).length) Cell.uninit
      = addrs.map Cell.ptr ++ [Cell.null, Cell.uninit] := by
    rw [hrep.vec_eq, List.take_of_length_le (by simp)]
    simp [List.append_assoc]
  have hvlt : v < h.next := hrep.lt_next List.mem_cons_self
  unfold reallocVec
  dsimp only
  rw [hcells]
  cases ha : h.alloc (.vec (addrs.map Cell.ptr
      ++ [Cell.null, Cell.uninit])) with
  | mk r h1 =>
      cases r with
      | none =>
          obtain ⟨hnext, -, hno⟩ := alloc_none ha
          exact Or.inl ⟨h1, rfl, ⟨frame_alloc ha _, _, hno⟩, hnext⟩
      | some p =>
          obtain ⟨rfl, hnext, hblock⟩ := alloc_some ha
          refine Or.inr ⟨h1.free v, rfl, hnext,
            (frame_alloc ha fun _ => False).granted, ?_⟩
          intro a
          rw [free_block, hblock]
          by_cases hap : a = h.next
          · rw [if_pos hap, if_pos hap, if_neg (by omega)]
          · rw [if_neg hap, if_neg hap]

/-- Where no string has the name, `env_set` appends one, or fails and
leaves everything as it was. -/
theorem envSet_append {h : CHeap} {v : Nat} {addrs : List Nat}
    {l : List CString} (hrep : Rep h v addrs l) {s : CString}
    (hfound : envFound h v s l.length = none) :
    (∃ h', envSet h v s = (none, h') ∧ Failed h h')
    ∨ ∃ v' h' addrs', envSet h v s = (some v', h')
      ∧ Rep h' v' addrs' (l ++ [s])
      ∧ Frame h h' (fun a => a ∈ v :: addrs)
      ∧ ∀ a ∈ v' :: addrs', a ∈ v :: addrs ∨ h.next ≤ a := by
  unfold envSet strdup
  dsimp only
  rw [hrep.countCells_eq, hfound]
  dsimp only
  cases ha : h.alloc (.str s) with
  | mk r h1 =>
      have hframe := frame_alloc ha fun _ => False
      cases r with
      | none =>
          obtain ⟨-, -, hno⟩ := alloc_none ha
          exact Or.inl ⟨h1, rfl, hframe, _, hno⟩
      | some q =>
          obtain ⟨hq, hnext, hblock⟩ := alloc_some ha
          have hrep1 : Rep h1 v addrs l := hrep.frame hframe fun _ _ hf => hf
          have hvlt : v < h.next := hrep.lt_next List.mem_cons_self
          dsimp only
          rw [← hrep.length_eq]
          rcases reallocVec_spec hrep1 with
            ⟨h2, hreal, ⟨hframe2, n, hno⟩, -⟩ |
            ⟨h2, hreal, hnext2, hgr, hblock2⟩
          · -- realloc failed: the new string is given back
            rw [show addrs.length + 1 + 1 = addrs.length + 2 from rfl, hreal]
            refine Or.inl ⟨h2.free q, rfl, ?_, n, ?_⟩
            · refine (hframe.trans hframe2 fun _ _ hf => hf).trans
                (frame_free h2 (S := fun a => a = q) rfl) ?_
              intro a halt haq
              omega
            · rw [← hframe.granted]
              exact hno
          · rw [show addrs.length + 1 + 1 = addrs.length + 2 from rfl, hreal]
            dsimp only
            rw [Nat.add_sub_cancel]
            have hnull : cell h2 h1.next addrs.length = .null := by
              unfold cell vec
              rw [hblock2, if_pos rfl, List.getD_eq_getElem?_getD,
                List.getElem?_append_right (by simp)]
              simp
            rw [hnull]
            have hfinal : ∀ a,
                (setCell (setCell h2 h1.next (addrs.length + 1) .null)
                  h1.next addrs.length (.ptr q)).block a
                = if a = h1.next then
                    some (.vec ((addrs ++ [q]).map Cell.ptr ++ [Cell.null]))
                  else if a = v then none
                  else if a = q then some (.str s) else h.block a := by
              intro a
              unfold setCell
              rw [update_block, update_block, hblock2]
              by_cases hap : a = h1.next
              · rw [if_pos hap, if_pos hap, if_pos hap, if_pos hap]
                simp [Block.setCell]
              · rw [if_neg hap, if_neg hap, if_neg hap, if_neg hap, hblock]
            refine Or.inr ⟨h1.next, _, addrs ++ [q], rfl,
              hrep.append s hq.ge (by omega) (by omega) hfinal,
              ⟨?_, hgr.trans hframe.granted, ?_⟩, ?_⟩
            · show h.next ≤ h2.next
              omega
            · intro a halt hnot
              rw [List.mem_cons, not_or] at hnot
              rw [hfinal, if_neg (by omega), if_neg hnot.1,
                if_neg (by omega)]
            · intro a hmem
              rcases List.mem_cons.mp hmem with rfl | hmem
              · exact Or.inr (by omega)
              · rcases List.mem_append.mp hmem with hmem | hmem
                · exact Or.inl (List.mem_cons_of_mem v hmem)
                · exact Or.inr (by
                    rw [List.mem_singleton] at hmem
                    omega)

/-- `env_set`: the update of the map, or nothing. -/
theorem envSet_spec {h : CHeap} {v : Nat} {addrs : List Nat}
    {l : List CString} (hrep : Rep h v addrs l)
    (hnames : (l.map envName).Nodup) (s : CString) :
    (∃ h', envSet h v s = (none, h') ∧ Failed h h')
    ∨ ∃ v' h' addrs', envSet h v s = (some v', h')
      ∧ Rep h' v' addrs' (upsert envName l s)
      ∧ Frame h h' (fun a => a ∈ v :: addrs)
      ∧ ∀ a ∈ v' :: addrs', a ∈ v :: addrs ∨ h.next ≤ a := by
  have hsearch := envFound_spec hrep (s := s) (Nat.le_refl _)
  cases hfound : envFound h v s l.length with
  | some k =>
      rw [hfound] at hsearch
      obtain ⟨hk, hname⟩ := hsearch
      rw [upsert_eq_set hk hname hnames]
      exact envSet_replace hrep hk hfound
  | none =>
      rw [hfound] at hsearch
      rw [upsert_eq_append]
      · exact envSet_append hrep hfound
      · intro hmem
        obtain ⟨t, ht, heq⟩ := List.mem_map.mp hmem
        obtain ⟨i, hi, rfl⟩ := List.getElem_of_mem ht
        exact hsearch i hi hi heq

-- ============================================================ env_copy

/-- Undoing a copy frees blocks of the copy only. -/
theorem envCopyUndo_frame {h0 h : CHeap} {p : Nat} {cells : List Cell}
    (hf : Frame h0 h fun _ => False) (hp : h.block p = some (.vec cells))
    (i : Nat) (hcells : ∀ k < i, ∃ a, cells.getD k .uninit = .ptr a
      ∧ a ≠ p ∧ h0.next ≤ a) :
    Frame h0 (envCopyUndo h p i) fun _ => False := by
  induction i generalizing h with
  | zero => exact hf
  | succ i ih =>
      obtain ⟨a, ha, hap, hle⟩ := hcells i (Nat.lt_succ_self i)
      have hcell : cell h p i = .ptr a := by
        unfold cell vec
        rw [hp]
        exact ha
      rw [envCopyUndo, hcell, freeCell_ptr]
      refine ih ?_ ?_ fun k hk => hcells k (Nat.lt_succ_of_lt hk)
      · refine hf.trans (frame_free h (S := fun b => b = a) rfl) ?_
        intro b hb hba
        omega
      · rw [free_block, if_neg hap.symm]
        exact hp

/-- A copy under way: the block at `p` holds the copied strings and then
`m` cells nobody wrote yet, all of it allocated after `h0`. -/
structure Copying (h0 h : CHeap) (p : Nat) (copied : List Nat)
    (l : List CString) (m : Nat) : Prop where
  frame : Frame h0 h fun _ => False
  vec : h.block p
    = some (.vec (copied.map Cell.ptr ++ List.replicate m Cell.uninit))
  strs : copied.map h.block = l.map fun s => some (Block.str s)
  nodup : (p :: copied).Nodup
  fresh : ∀ a ∈ p :: copied, h0.next ≤ a
  live : ∀ a ∈ p :: copied, a < h.next

/-- The loop of `env_copy` has copied one more string, and so many less
are to be copied. -/
theorem Copying.next {h0 h h1 : CHeap} {p q m : Nat} {copied : List Nat}
    {l : List CString} {s : CString} (hc : Copying h0 h p copied l (m + 1))
    (ha : h.alloc (.str s) = (some q, h1)) :
    Copying h0 (setCell h1 p copied.length (.ptr q)) p (copied ++ [q])
      (l ++ [s]) m := by
  obtain ⟨rfl, hnext, hblock⟩ := alloc_some ha
  have hplt : p < h.next := hc.live p List.mem_cons_self
  have hlt : ∀ a ∈ copied, a < h.next :=
    fun a hmem => hc.live a (List.mem_cons_of_mem p hmem)
  obtain ⟨hpnot, hnodup⟩ := List.nodup_cons.mp hc.nodup
  have hfinal : ∀ a, (setCell h1 p copied.length (.ptr h.next)).block a
      = if a = p then
          some (.vec ((copied ++ [h.next]).map Cell.ptr
            ++ List.replicate m Cell.uninit))
        else if a = h.next then some (.str s) else h.block a := by
    intro a
    unfold setCell
    rw [update_block, hblock]
    by_cases hap : a = p
    · subst hap
      rw [if_pos rfl, if_pos rfl, if_neg (by omega), hc.vec]
      simp [Block.setCell, List.replicate_succ]
    · rw [if_neg hap, if_neg hap]
  have hle := hc.frame.next_le
  refine ⟨?_, ?_, ?_, ?_, ?_, ?_⟩
  · refine (hc.frame.trans (frame_alloc ha fun _ => False)
      fun _ _ hf => hf).trans
      (frame_update h1 (S := fun a => a = p) rfl _) ?_
    intro a halt hap
    have := hc.fresh p List.mem_cons_self
    omega
  · rw [hfinal, if_pos rfl]
  · rw [List.map_append, List.map_append, ← hc.strs]
    congr 1
    · refine List.map_congr_left fun a hmem => ?_
      have := hlt a hmem
      rw [hfinal, if_neg (ne_of_mem_of_not_mem hmem hpnot),
        if_neg (by omega)]
    · simp only [List.map_cons, List.map_nil]
      rw [hfinal, if_neg (by omega), if_pos rfl]
  · rw [List.nodup_cons, List.mem_append, List.mem_singleton, not_or,
      List.nodup_append]
    refine ⟨⟨hpnot, by omega⟩, hnodup, List.nodup_singleton _, ?_⟩
    intro a hmem b hb
    have := hlt a hmem
    have := List.mem_singleton.mp hb
    omega
  · intro a hmem
    rcases List.mem_cons.mp hmem with rfl | hmem
    · exact hc.fresh _ List.mem_cons_self
    · rcases List.mem_append.mp hmem with hmem | hmem
      · exact hc.fresh a (List.mem_cons_of_mem p hmem)
      · rw [List.mem_singleton] at hmem
        omega
  · intro a hmem
    show a < h1.next
    rcases List.mem_cons.mp hmem with rfl | hmem
    · omega
    · rcases List.mem_append.mp hmem with hmem | hmem
      · have := hlt a hmem
        omega
      · rw [List.mem_singleton] at hmem
        omega

/-- The copying loop, with `n` strings still to copy. -/
theorem envCopyLoop_spec {h0 h : CHeap} {v p : Nat}
    {addrs copied : List Nat} {l : List CString}
    (hrep : Rep h0 v addrs l) (n i : Nat) (hn : i + n = l.length)
    (hi : copied.length = i) (hc : Copying h0 h p copied (l.take i) (n + 1)) :
    (∃ h', envCopyLoop h v p n i = (none, h') ∧ Failed h0 h')
    ∨ ∃ h' addrs', envCopyLoop h v p n i = (some p, h')
      ∧ Rep h' p addrs' l ∧ Frame h0 h' (fun _ => False)
      ∧ ∀ a ∈ p :: addrs', h0.next ≤ a := by
  induction n generalizing h i copied with
  | zero =>
      have hil : i = l.length := by omega
      rw [hil, List.take_length] at hc
      have hple := hc.fresh p List.mem_cons_self
      have hplt := hc.live p List.mem_cons_self
      have hpnot := (List.nodup_cons.mp hc.nodup).1
      rw [envCopyLoop]
      refine Or.inr ⟨_, copied, rfl, ⟨?_, ?_, hc.nodup⟩, ?_, hc.fresh⟩
      · unfold setCell
        rw [update_block, if_pos rfl, hc.vec, ← hi]
        simp [Block.setCell]
      · rw [← hc.strs]
        refine List.map_congr_left fun a hmem => ?_
        unfold setCell
        rw [update_block, if_neg (ne_of_mem_of_not_mem hmem hpnot)]
      · refine hc.frame.trans
          (frame_update h (S := fun a => a = p) rfl _) ?_
        intro a halt hap
        omega
  | succ n ih =>
      have hilt : i < l.length := by omega
      have hstr : strAt h (cell h v i) = l[i] :=
        (hrep.frame hc.frame fun _ _ hf => hf).strAt_cell hilt
      rw [envCopyLoop, hstr]
      unfold strdup
      cases ha : h.alloc (.str l[i]) with
      | mk r h1 =>
          cases r with
          | some q =>
              have hnext := hc.next ha
              rw [← List.take_succ_eq_append_getElem hilt, hi] at hnext
              exact ih (i + 1) (by omega) (by simp [hi]) hnext
          | none =>
              -- give the copies made so far back, and the block itself
              obtain ⟨-, hblk, hno⟩ := alloc_none ha
              have hframe1 := hc.frame.trans
                (frame_alloc ha fun _ => False) fun _ _ hf => hf
              have hpnot := (List.nodup_cons.mp hc.nodup).1
              have hundo := envCopyUndo_frame (p := p) hframe1
                (by rw [hblk]; exact hc.vec) i (by
                  intro k hk
                  have hk' : k < copied.length := by omega
                  refine ⟨copied[k], ?_, ?_, ?_⟩
                  · rw [List.getD_eq_getElem?_getD,
                      List.getElem?_append_left (by simpa using hk')]
                    simp [hk']
                  · exact ne_of_mem_of_not_mem (List.getElem_mem hk') hpnot
                  · exact hc.fresh _ (List.mem_cons_of_mem p
                      (List.getElem_mem hk')))
              refine Or.inl ⟨_, rfl, ?_, h.asked, ?_⟩
              · refine hundo.trans
                  (frame_free _ (S := fun a => a = p) rfl) ?_
                intro a halt hap
                have := hc.fresh p List.mem_cons_self
                omega
              · rw [← hc.frame.granted]
                exact hno

/-- `env_copy`: a vector of new blocks with the same strings, or
nothing. -/
theorem envCopy_spec {h : CHeap} {v : Nat} {addrs : List Nat}
    {l : List CString} (hrep : Rep h v addrs l) :
    (∃ h', envCopy h v = (none, h') ∧ Failed h h')
    ∨ ∃ p h' addrs', envCopy h v = (some p, h')
      ∧ Rep h' p addrs' l ∧ Frame h h' (fun _ => False)
      ∧ ∀ a ∈ p :: addrs', h.next ≤ a := by
  unfold envCopy mallocVec
  dsimp only
  rw [hrep.countCells_eq]
  cases ha : h.alloc (.vec (List.replicate (l.length + 1) .uninit)) with
  | mk r h1 =>
      have hframe := frame_alloc ha fun _ => False
      cases r with
      | none =>
          obtain ⟨-, -, hno⟩ := alloc_none ha
          exact Or.inl ⟨h1, rfl, hframe, _, hno⟩
      | some p =>
          obtain ⟨hp, hnext, hblock⟩ := alloc_some ha
          have hc : Copying h h1 p [] (l.take 0) (l.length + 1) := by
            refine ⟨hframe, ?_, rfl, List.nodup_singleton p, ?_, ?_⟩
            · rw [hblock, if_pos rfl]
              rfl
            · intro a hmem
              rw [List.mem_singleton] at hmem
              omega
            · intro a hmem
              rw [List.mem_singleton] at hmem
              omega
          rcases envCopyLoop_spec hrep l.length 0 (by omega) rfl hc with
            hfail | ⟨h', addrs', hcopy⟩
          · exact Or.inl hfail
          · exact Or.inr ⟨p, h', addrs', hcopy⟩

end Tinjac
