/-
The scan of `load_env` computes `readSetting`.

Whatever is in the array behind the line's NUL, with one exception: a
quote that opens at the very end of the line. There the NUL is stored
like any other character, and the scan goes on behind it (`On`,
`scan_on`).

The scan is followed state by state, from the last to the first, each
time over the text that is left.
-/
import Tinjac.Crond.Text.Setting
import Tinjac.Lib.Span
import Tinjac.Proofs.Job

namespace Tinjac.Crond

open Span

-- ============================================================= the scan

namespace EnvScan

/-- The name and the value a scan ends with, if it is a setting's. -/
def setting (s : EnvScan) : Option (List UInt8 × List UInt8) :=
  if s.state ≠ .fini ∧ ¬ (s.state = .value ∧ s.quotechar = nul) then none
  else
    let val := (CString.ofBuf s.val).bytes
    some ((CString.ofBuf s.name).bytes,
      if s.state = .value then val.rdropWhile isSpace else val)

variable {state : EnvScanState} {q : UInt8} {c name val l : List UInt8}

theorem loop_error : loop ⟨.error, q, c, name, val⟩
    = some ⟨.error, q, c, name, val⟩ := by
  rw [loop, if_pos rfl]

theorem loop_nul (hs : state ≠ .error) :
    loop ⟨state, q, nul :: c, name, val⟩
      = some ⟨state, q, nul :: c, name, val⟩ := by
  rw [loop, if_neg hs]
  exact if_pos rfl

theorem loop_step {ch : UInt8} {s' : EnvScan} (hs : state ≠ .error)
    (hch : ch ≠ nul) (h : step ⟨state, q, ch :: c, name, val⟩ = some s') :
    loop ⟨state, q, ch :: c, name, val⟩ = s'.loop := by
  rw [loop, if_neg hs]
  dsimp only
  rw [if_neg hch]
  split
  · next hnone =>
    rw [h] at hnone
    cases hnone
  · next s'' hsome =>
    rw [h] at hsome
    injection hsome with hsame
    rw [hsame]

/-- The characters that are stored in a state of the scan, and leave it
where it is. -/
structure Stored (state : EnvScanState) (q ch : UInt8) : Prop where
  ne_nul : ch ≠ nul
  unquoted : q ≠ nul → ch ≠ q
  bare : q = nul → state = .name → isSpace ch = false
  equals : state = .name → ch ≠ equals

/-- Such a character is stored. -/
theorem part_stored {ch : UInt8} (h : Stored state q ch) :
    part ⟨state, q, ch :: c, name, val⟩
      = some { store ⟨state, q, ch :: c, name, val⟩ ch with c := c } := by
  unfold part
  dsimp only
  have hequals : ¬ (state = .name ∧ ch = Tinjac.equals) :=
    fun ⟨hname, heq⟩ => h.equals hname heq
  by_cases hq : q ≠ nul
  · rw [if_pos hq, if_neg (h.unquoted hq), if_neg hequals]
  · have hspace : ¬ (state = .name ∧ isSpace ch = true) := by
      intro ⟨hname, hspace⟩
      rw [h.bare (not_not.mp hq) hname] at hspace
      cases hspace
    rw [if_neg hq, if_neg hspace, if_neg hequals]

/-- A run of such characters is stored. -/
theorem loop_store_name (hl : ∀ ch ∈ l, Stored .name q ch) :
    loop ⟨.name, q, l ++ c, name, val⟩
      = loop ⟨.name, q, c, name ++ l, val⟩ := by
  induction l generalizing name with
  | nil => rw [List.append_nil, List.nil_append]
  | cons ch l ih =>
      have hch := hl ch List.mem_cons_self
      have hstep : step ⟨.name, q, ch :: (l ++ c), name, val⟩
          = some ⟨.name, q, l ++ c, name ++ [ch], val⟩ := part_stored hch
      rw [List.cons_append, loop_step (by decide) hch.ne_nul hstep,
        ih fun ch' h => hl ch' (List.mem_cons_of_mem ch h),
        List.append_assoc, List.singleton_append]

theorem loop_store_value (hl : ∀ ch ∈ l, Stored .value q ch) :
    loop ⟨.value, q, l ++ c, name, val⟩
      = loop ⟨.value, q, c, name, val ++ l⟩ := by
  induction l generalizing val with
  | nil => rw [List.append_nil, List.nil_append]
  | cons ch l ih =>
      have hch := hl ch List.mem_cons_self
      have hstep : step ⟨.value, q, ch :: (l ++ c), name, val⟩
          = some ⟨.value, q, l ++ c, name, val ++ [ch]⟩ := part_stored hch
      rw [List.cons_append, loop_step (by decide) hch.ne_nul hstep,
        ih fun ch' h => hl ch' (List.mem_cons_of_mem ch h),
        List.append_assoc, List.singleton_append]

theorem ne_nul_of_isSpace {ch : UInt8} (h : isSpace ch = true) :
    ch ≠ nul := by
  intro hnul
  rw [hnul] at h
  exact absurd h (by decide)

/-- White space between the parts is passed over. -/
theorem loop_spaces (hs : state = .eq1 ∨ state = .eq2 ∨ state = .fini)
    (hl : ∀ ch ∈ l, isSpace ch = true) :
    loop ⟨state, q, l ++ c, name, val⟩
      = loop ⟨state, q, c, name, val⟩ := by
  induction l with
  | nil => rw [List.nil_append]
  | cons ch l ih =>
      have hch := hl ch List.mem_cons_self
      have hne : ch ≠ equals := by
        intro heq
        rw [heq] at hch
        exact absurd hch (by decide)
      have hstep : step ⟨state, q, ch :: (l ++ c), name, val⟩
          = some ⟨state, q, l ++ c, name, val⟩ := by
        unfold step
        rcases hs with rfl | rfl | rfl
        · dsimp only
          rw [if_neg hne, if_pos hch]
        · dsimp only
          rw [if_pos hch]
        · dsimp only
          rw [if_pos hch]
      have herror : state ≠ .error := by
        rcases hs with rfl | rfl | rfl
        · decide
        · decide
        · decide
      rw [List.cons_append, loop_step herror (ne_nul_of_isSpace hch) hstep,
        ih fun ch' h => hl ch' (List.mem_cons_of_mem ch h)]

/-- Scans with the same next step end alike. -/
theorem loop_congr {state' : EnvScanState} {q' ch ch' : UInt8}
    {c' : List UInt8} (hs : state ≠ .error) (hs' : state' ≠ .error)
    (hch : ch ≠ nul) (hch' : ch' ≠ nul)
    (h : step ⟨state, q, ch :: c, name, val⟩
      = step ⟨state', q', ch' :: c', name, val⟩) :
    loop ⟨state, q, ch :: c, name, val⟩
      = loop ⟨state', q', ch' :: c', name, val⟩ := by
  rw [loop, loop, if_neg hs, if_neg hs']
  dsimp only
  rw [if_neg hch, if_neg hch']
  split
  · next hnone =>
    rw [h] at hnone
    split
    · rfl
    · next hsome =>
      rw [hnone] at hsome
      cases hsome
  · next s hsome =>
    rw [h] at hsome
    split
    · next hnone =>
      rw [hnone] at hsome
      cases hsome
    · next s' hsome' =>
      rw [hsome] at hsome'
      injection hsome' with hsame
      rw [hsame]

/-- The first character of a part is a quote, or belongs to the part. -/
theorem step_first (hs : state = .namei ∨ state = .valuei) :
    step ⟨state, q, c, name, val⟩
      = part { openQuote ⟨state, q, c, name, val⟩ with
          state := state.next } := by
  rcases hs with rfl | rfl
  · unfold step
    dsimp only
    rw [(openQuote_todo _).1]
  · unfold step
    dsimp only
    rw [(openQuote_todo _).1]

theorem isQuote_iff {ch : UInt8} :
    isQuote ch = true ↔ ch = apostrophe ∨ ch = quoteMark := by
  unfold isQuote
  rw [Bool.or_eq_true, beq_iff_eq, beq_iff_eq]

theorem openQuote_quote {ch : UInt8} (h : isQuote ch = true) :
    openQuote ⟨state, q, ch :: c, name, val⟩
      = ⟨state, ch, c, name, val⟩ := by
  unfold openQuote
  dsimp only
  rw [if_pos (isQuote_iff.mp h)]

theorem openQuote_bare {ch : UInt8} (h : isQuote ch = false) :
    openQuote ⟨state, q, ch :: c, name, val⟩
      = ⟨state, q, ch :: c, name, val⟩ := by
  have hnot : ¬ (ch = apostrophe ∨ ch = quoteMark) := by
    rw [← isQuote_iff, h]
    decide
  unfold openQuote
  dsimp only
  rw [if_neg hnot]

theorem step_next (hs : state = .name ∨ state = .value) :
    step ⟨state, q, c, name, val⟩ = part ⟨state, q, c, name, val⟩ := by
  rcases hs with rfl | rfl
  · rfl
  · rfl

theorem next_cases (hs : state = .namei ∨ state = .valuei) :
    state.next = .name ∨ state.next = .value := by
  rcases hs with rfl | rfl
  · exact Or.inl rfl
  · exact Or.inr rfl

theorem ne_error_of_first (hs : state = .namei ∨ state = .valuei) :
    state ≠ .error ∧ state.next ≠ .error := by
  rcases hs with rfl | rfl
  · exact ⟨by decide, by decide⟩
  · exact ⟨by decide, by decide⟩

/-- A part that does not begin with a quote. -/
theorem loop_bare {ch : UInt8} (hs : state = .namei ∨ state = .valuei)
    (hch : ch ≠ nul) (hquote : isQuote ch = false) :
    loop ⟨state, q, ch :: c, name, val⟩
      = loop ⟨state.next, q, ch :: c, name, val⟩ := by
  obtain ⟨herror, herror'⟩ := ne_error_of_first hs
  apply loop_congr herror herror' hch hch
  rw [step_first hs, step_next (next_cases hs), openQuote_bare hquote]

/-- A part that begins with a quote: the quote is kept in `quotechar` and
the scan goes on behind it, in the state of a part. -/
theorem loop_quote {ch ch' : UInt8}
    (hs : state = .namei ∨ state = .valuei) (hquote : isQuote ch = true)
    (hch : ch ≠ nul) (hch' : ch' ≠ nul) :
    loop ⟨state, q, ch :: ch' :: c, name, val⟩
      = loop ⟨state.next, ch, ch' :: c, name, val⟩ := by
  obtain ⟨herror, herror'⟩ := ne_error_of_first hs
  apply loop_congr herror herror' hch hch'
  rw [step_first hs, step_next (next_cases hs), openQuote_quote hquote]

/-- A quote that opens right before the NUL: it is stored. -/
theorem step_opened {ch : UInt8} (hs : state = .namei ∨ state = .valuei)
    (hquote : isQuote ch = true) (hch : ch ≠ nul) :
    step ⟨state, q, ch :: nul :: c, name, val⟩
      = some { store ⟨state.next, ch, nul :: c, name, val⟩ nul with
          c := c } := by
  rw [step_first hs, openQuote_quote hquote]
  unfold part
  dsimp only
  rw [if_pos hch, if_neg hch.symm, if_neg (by rintro ⟨-, h⟩; cases h)]

-- ============================================================ its stages

/-- The scan ends, with this setting or with none. It says nothing of a
scan that is still inside a quoted value. -/
def Gives (s : EnvScan) (r : Option (List UInt8 × List UInt8)) : Prop :=
  ∃ s', s.loop = some s' ∧ s'.setting = r

/-- What the scan comes to where the line is this, and `t` is in the
array behind its NUL. -/
def On (r : Scanned) (t : List UInt8) (s : EnvScan) : Prop :=
  match r with
  | .setting name value => Gives s (some (name, value))
  | .refused => Gives s none
  | .opened q (some name) => s.loop = loop ⟨.value, q, t, name, [nul]⟩
  | .opened q none => s.loop = loop ⟨.name, q, t, [nul], []⟩

theorem Gives.congr {s s' : EnvScan} {r : Option (List UInt8 × List UInt8)}
    (h : Gives s' r) (hloop : s.loop = s'.loop) : Gives s r := by
  obtain ⟨t, ht, hr⟩ := h
  exact ⟨t, hloop.trans ht, hr⟩

theorem On.congr {s s' : EnvScan} {r : Scanned} {t : List UInt8}
    (h : On r t s') (hloop : s.loop = s'.loop) : On r t s := by
  match r, h with
  | .setting _ _, h => exact Gives.congr h hloop
  | .refused, h => exact Gives.congr h hloop
  | .opened _ (some _), h => exact hloop.trans h
  | .opened _ none, h => exact hloop.trans h

variable {t : List UInt8}

/-- Behind the closing quote of a value. -/
theorem fini_gives (hl : nul ∉ l) :
    Gives ⟨.fini, q, l ++ nul :: t, name, val⟩
      (if l.all isSpace then
        some ((CString.ofBuf name).bytes, (CString.ofBuf val).bytes)
      else none) := by
  by_cases hall : l.all isSpace = true
  · rw [if_pos hall]
    rw [List.all_eq_true] at hall
    refine ⟨_, (loop_spaces (Or.inr (Or.inr rfl)) hall).trans
      (loop_nul (by decide)), rfl⟩
  · rw [if_neg hall]
    rw [List.all_eq_true] at hall
    obtain ⟨ch, r, hsplit, hch⟩ := exists_stop hall
    have hnul : ch ≠ nul := by
      intro heq
      apply hl
      rw [hsplit, heq]
      exact List.mem_append_right _ List.mem_cons_self
    have hspaces : ∀ a ∈ l.takeWhile isSpace, isSpace a = true :=
      fun _ ha => List.mem_takeWhile_imp ha
    have hstep : step ⟨.fini, q, ch :: (r ++ nul :: t), name, val⟩
        = some ⟨.error, q, ch :: (r ++ nul :: t), name, val⟩ := by
      unfold step
      dsimp only
      rw [hch]
      rfl
    refine ⟨⟨.error, q, ch :: (r ++ nul :: t), name, val⟩, ?_, rfl⟩
    rw [hsplit, List.append_assoc, List.cons_append,
      loop_spaces (Or.inr (Or.inr rfl)) hspaces,
      loop_step (by decide) hnul hstep, loop_error]

/-- A value in quotes is what stands before the next quote like the first;
it is refused if there is none, or more than white space behind it. -/
theorem quoted_gives (hq : q ≠ nul) (hl : nul ∉ l) :
    Gives ⟨.value, q, l ++ nul :: t, name, val⟩
      (match l.dropWhile (· != q) with
        | [] => none
        | _ :: r =>
            if r.all isSpace then
              some ((CString.ofBuf name).bytes,
                (CString.ofBuf (val ++ l.takeWhile (· != q))).bytes)
            else none) := by
  have hstored : ∀ ch ∈ l.takeWhile (· != q), Stored .value q ch := by
    intro ch hch
    have hne := List.mem_takeWhile_imp hch
    rw [bne_iff_ne] at hne
    exact
      { ne_nul := by
          rintro rfl
          exact hl ((List.takeWhile_prefix _).subset hch)
        unquoted := fun _ => hne
        bare := fun h => absurd h hq
        equals := fun h => by cases h }
  have hsplit := List.takeWhile_append_dropWhile (p := (· != q)) (l := l)
  have hstop := stops_dropWhile (· != q) l
  cases hd : l.dropWhile (· != q) with
  | nil =>
      rw [hd, List.append_nil] at hsplit
      rw [hsplit] at hstored
      refine ⟨_, (loop_store_value hstored).trans (loop_nul (by decide)), ?_⟩
      unfold setting
      dsimp only
      rw [if_pos ⟨by decide, fun h => hq h.2⟩]
  | cons ch r =>
      rw [hd] at hsplit hstop
      have hch : ch = q := by
        have hpass := stops_cons.mp hstop
        rw [bne_eq_false_iff_eq] at hpass
        exact hpass
      subst hch
      have hr : nul ∉ r := by
        intro hmem
        apply hl
        rw [← hsplit]
        exact List.mem_append_right _ (List.mem_cons_of_mem ch hmem)
      have hstep : step ⟨.value, ch, ch :: (r ++ nul :: t), name,
          val ++ l.takeWhile (· != ch)⟩
          = some ⟨.fini, ch, r ++ nul :: t, name,
            val ++ l.takeWhile (· != ch)⟩ := by
        unfold step part
        dsimp only
        rw [if_pos hq, if_pos rfl]
        rfl
      have hloop : loop ⟨.value, ch, l ++ nul :: t, name, val⟩
          = loop ⟨.fini, ch, r ++ nul :: t, name,
            val ++ l.takeWhile (· != ch)⟩ := by
        rw [← loop_step (by decide) hq hstep, ← loop_store_value hstored,
          ← List.cons_append, ← List.append_assoc, hsplit]
      exact (fini_gives hr).congr hloop

theorem ne_nul_of_isQuote {ch : UInt8} (h : isQuote ch = true) :
    ch ≠ nul := by
  rintro rfl
  exact absurd h (by decide)

/-- White space in front is passed over, as far as it goes. -/
theorem loop_dropSpaces (hs : state = .eq1 ∨ state = .eq2 ∨ state = .fini) :
    loop ⟨state, q, l ++ c, name, val⟩
      = loop ⟨state, q, l.dropWhile isSpace ++ c, name, val⟩ := by
  have hspaces : ∀ ch ∈ l.takeWhile isSpace, isSpace ch = true :=
    fun _ h => List.mem_takeWhile_imp h
  have hloop : loop ⟨state, q, l.takeWhile isSpace
      ++ (l.dropWhile isSpace ++ c), name, val⟩ = _ :=
    loop_spaces hs hspaces
  rw [← List.append_assoc, List.takeWhile_append_dropWhile] at hloop
  exact hloop

/-- The scan from behind the equals sign on does what `readValue` says. -/
theorem value_on (hl : nul ∉ l) (hname : nul ∉ name) :
    On (readValue name l) t ⟨.eq2, nul, l ++ nul :: t, name, []⟩ := by
  have hrest : nul ∉ l.dropWhile isSpace :=
    fun h => hl ((List.dropWhile_suffix _).subset h)
  have hstop := stops_dropWhile isSpace l
  refine On.congr ?_ (loop_dropSpaces (Or.inr (Or.inl rfl)))
  unfold readValue
  cases hd : l.dropWhile isSpace with
  | nil => exact ⟨_, loop_nul (by decide), rfl⟩
  | cons ch r =>
      rw [hd] at hrest hstop
      have hch : ch ≠ nul := fun h => hrest (h ▸ List.mem_cons_self)
      have hr : nul ∉ r := fun h => hrest (List.mem_cons_of_mem ch h)
      have hvaluei : loop ⟨.eq2, nul, ch :: (r ++ nul :: t), name, []⟩
          = loop ⟨.valuei, nul, ch :: (r ++ nul :: t), name, []⟩ := by
        apply loop_step (by decide) hch
        unfold step
        dsimp only
        rw [stops_cons.mp hstop]
        rfl
      refine On.congr ?_ hvaluei
      dsimp only
      by_cases hquote : isQuote ch = true
      · rw [if_pos hquote]
        cases r with
        | nil =>
            rw [if_pos rfl]
            exact loop_step (by decide) hch
              (step_opened (Or.inr rfl) hquote hch)
        | cons ch' r =>
            have hch' : ch' ≠ nul := fun h => hr (h ▸ List.mem_cons_self)
            rw [if_neg (List.cons_ne_nil ch' r)]
            refine On.congr ?_ (loop_quote (Or.inr rfl) hquote hch hch')
            have hgives : Gives ⟨.value, ch, (ch' :: r) ++ nul :: t, name,
                []⟩ _ := quoted_gives hch hr
            rw [CString.ofBuf_bytes hname] at hgives
            show On (readQuoted ch name (ch' :: r)) t
              ⟨.value, ch, (ch' :: r) ++ nul :: t, name, []⟩
            unfold readQuoted
            cases hq : (ch' :: r).dropWhile (· != ch) with
            | nil =>
                rw [hq] at hgives
                exact hgives
            | cons ch'' r'' =>
                rw [hq] at hgives
                dsimp only at hgives ⊢
                split
                · next hall =>
                  rw [if_pos hall, List.nil_append, CString.ofBuf_bytes
                    fun h => hr ((List.takeWhile_prefix _).subset h)]
                    at hgives
                  exact hgives
                · next hall =>
                  rw [if_neg hall] at hgives
                  exact hgives
      · rw [if_neg hquote]
        rw [Bool.not_eq_true] at hquote
        refine On.congr ?_ (loop_bare (Or.inr rfl) hch hquote)
        have hstored : ∀ c ∈ ch :: r, Stored .value nul c := fun c hc =>
          { ne_nul := fun h => hrest (h ▸ hc)
            unquoted := fun h => absurd rfl h
            bare := nofun
            equals := nofun }
        refine ⟨⟨.value, nul, nul :: t, name, ch :: r⟩,
          (loop_store_value hstored).trans (loop_nul (by decide)), ?_⟩
        unfold setting
        dsimp only
        rw [if_neg (by decide), if_pos rfl, CString.ofBuf_bytes hname,
          CString.ofBuf_bytes hrest]

/-- The scan from behind a name on does what `readEquals` says. -/
theorem equals_on (hl : nul ∉ l) (hname : nul ∉ name) :
    On (readEquals name l) t ⟨.eq1, q, l ++ nul :: t, name, []⟩ := by
  have hrest : nul ∉ l.dropWhile isSpace :=
    fun h => hl ((List.dropWhile_suffix _).subset h)
  have hstop := stops_dropWhile isSpace l
  refine On.congr ?_ (loop_dropSpaces (Or.inl rfl))
  unfold readEquals
  cases hd : l.dropWhile isSpace with
  | nil => exact ⟨_, loop_nul (by decide), rfl⟩
  | cons ch r =>
      rw [hd] at hrest hstop
      have hch : ch ≠ nul := fun h => hrest (h ▸ List.mem_cons_self)
      have hr : nul ∉ r := fun h => hrest (List.mem_cons_of_mem ch h)
      dsimp only
      by_cases heq : ch = equals
      · rw [if_pos heq]
        refine On.congr (value_on hr hname) (loop_step (by decide) hch ?_)
        unfold step
        dsimp only
        rw [if_pos heq]
        rfl
      · rw [if_neg heq]
        have hstep : step ⟨.eq1, q, ch :: (r ++ nul :: t), name, []⟩
            = some ⟨.error, q, r ++ nul :: t, name, []⟩ := by
          unfold step
          dsimp only
          rw [if_neg heq, stops_cons.mp hstop]
          rfl
        exact ⟨_, (loop_step (by decide) hch hstep).trans loop_error, rfl⟩

/-- From behind the quote that opens a name. -/
theorem quotedName_on (hq : q ≠ nul) (hl : nul ∉ l) :
    On (readQuotedName q l) t ⟨.name, q, l ++ nul :: t, [], []⟩ := by
  generalize hp : (fun c : UInt8 => c != q && c != equals) = p
  have hpass : ∀ c, p c = true ↔ c ≠ q ∧ c ≠ equals := by
    intro c
    rw [← hp, Bool.and_eq_true, bne_iff_ne, bne_iff_ne]
  have hstored : ∀ ch ∈ l.takeWhile p, Stored .name q ch := by
    intro ch hch
    obtain ⟨hne, heq⟩ := (hpass ch).mp (List.mem_takeWhile_imp hch)
    exact
      { ne_nul := fun h => hl ((List.takeWhile_prefix p).subset (h ▸ hch))
        unquoted := fun _ => hne
        bare := fun h => absurd h hq
        equals := fun _ => heq }
  have hname : nul ∉ l.takeWhile p :=
    fun h => hl ((List.takeWhile_prefix p).subset h)
  have hsplit := List.takeWhile_append_dropWhile (p := p) (l := l)
  have hstop := stops_dropWhile p l
  unfold readQuotedName
  rw [hp]
  have hloop : loop ⟨.name, q, l ++ nul :: t, [], []⟩
      = loop ⟨.name, q, l.dropWhile p ++ nul :: t, l.takeWhile p, []⟩ := by
    have hstore : loop ⟨.name, q, l.takeWhile p
        ++ (l.dropWhile p ++ nul :: t), [], []⟩ = _ :=
      loop_store_name hstored
    rw [← List.append_assoc, hsplit, List.nil_append] at hstore
    exact hstore
  refine On.congr ?_ hloop
  cases hd : l.dropWhile p with
  | nil =>
      refine ⟨_, loop_nul (by decide), ?_⟩
      unfold setting
      dsimp only
      rw [if_pos ⟨by decide, nofun⟩]
  | cons ch r =>
      rw [hd] at hsplit hstop
      have hmem : ∀ c ∈ ch :: r, c ∈ l := fun c hc => by
        rw [← hsplit]
        exact List.mem_append_right _ hc
      have hch : ch ≠ nul := fun h => hl (h ▸ hmem ch List.mem_cons_self)
      have hr : nul ∉ r := fun h => hl (hmem _ (List.mem_cons_of_mem ch h))
      dsimp only
      by_cases hclose : ch = q
      · rw [if_pos hclose]
        have hstep : step ⟨.name, q, ch :: (r ++ nul :: t),
            l.takeWhile p, []⟩
            = some ⟨.eq1, q, r ++ nul :: t, l.takeWhile p, []⟩ := by
          unfold step part
          dsimp only
          rw [if_pos hq, if_pos hclose]
          rfl
        exact On.congr (equals_on hr hname)
          (loop_step (by decide) hch hstep)
      · rw [if_neg hclose]
        have heq : ch = equals := by
          have hno := stops_cons.mp hstop
          rw [← Bool.not_eq_true, hpass] at hno
          exact Classical.not_not.mp fun h => hno ⟨hclose, h⟩
        have hstep : step ⟨.name, q, ch :: (r ++ nul :: t),
            l.takeWhile p, []⟩
            = some ⟨.error, q, ch :: (r ++ nul :: t), l.takeWhile p, []⟩ := by
          unfold step part
          dsimp only
          rw [if_pos hq, if_neg hclose, if_pos ⟨rfl, heq⟩]
        exact ⟨_, (loop_step (by decide) hch hstep).trans loop_error, rfl⟩

/-- From behind a bare name. -/
theorem bareName_on (hl : nul ∉ l) :
    On (readEquals (l.takeWhile isNameChar) (l.dropWhile isNameChar)) t
      ⟨.name, nul, l ++ nul :: t, [], []⟩ := by
  have hstored : ∀ ch ∈ l.takeWhile isNameChar, Stored .name nul ch := by
    intro ch hch
    have hpass := List.mem_takeWhile_imp hch
    unfold isNameChar at hpass
    rw [Bool.and_eq_true, Bool.not_eq_true', bne_iff_ne] at hpass
    exact
      { ne_nul := fun h => hl ((List.takeWhile_prefix _).subset (h ▸ hch))
        unquoted := fun h => absurd rfl h
        bare := fun _ _ => hpass.1
        equals := fun _ => hpass.2 }
  have hname : nul ∉ l.takeWhile isNameChar :=
    fun h => hl ((List.takeWhile_prefix _).subset h)
  have hsplit := List.takeWhile_append_dropWhile (p := isNameChar) (l := l)
  have hstop := stops_dropWhile isNameChar l
  have hloop : loop ⟨.name, nul, l ++ nul :: t, [], []⟩
      = loop ⟨.name, nul, l.dropWhile isNameChar ++ nul :: t,
        l.takeWhile isNameChar, []⟩ := by
    have hstore : loop ⟨.name, nul, l.takeWhile isNameChar
        ++ (l.dropWhile isNameChar ++ nul :: t), [], []⟩ = _ :=
      loop_store_name hstored
    rw [← List.append_assoc, hsplit, List.nil_append] at hstore
    exact hstore
  refine On.congr ?_ hloop
  cases hd : l.dropWhile isNameChar with
  | nil => exact ⟨_, loop_nul (by decide), rfl⟩
  | cons ch r =>
      rw [hd] at hsplit hstop
      have hrest : nul ∉ ch :: r := fun h => hl (by
        rw [← hsplit]
        exact List.mem_append_right _ h)
      have hch : ch ≠ nul := fun h => hrest (h ▸ List.mem_cons_self)
      have hr : nul ∉ r := fun h => hrest (List.mem_cons_of_mem ch h)
      by_cases hspace : isSpace ch = true
      · -- the white space is passed over, as `readEquals` does
        have hread : readEquals (l.takeWhile isNameChar) (ch :: r)
            = readEquals (l.takeWhile isNameChar) r := by
          unfold readEquals
          rw [List.dropWhile_cons_of_pos hspace]
        have hstep : step ⟨.name, nul, ch :: (r ++ nul :: t),
            l.takeWhile isNameChar, []⟩
            = some ⟨.eq1, nul, r ++ nul :: t,
              l.takeWhile isNameChar, []⟩ := by
          unfold step part
          dsimp only
          rw [if_neg (fun h => h rfl), if_pos ⟨rfl, hspace⟩]
          rfl
        rw [hread]
        exact On.congr (equals_on hr hname)
          (loop_step (by decide) hch hstep)
      · have heq : ch = equals := by
          have hno := stops_cons.mp hstop
          unfold isNameChar at hno
          rw [Bool.not_eq_true] at hspace
          rw [hspace, Bool.not_false, Bool.true_and, bne_eq_false_iff_eq]
            at hno
          exact hno
        have hstep : step ⟨.name, nul, ch :: (r ++ nul :: t),
            l.takeWhile isNameChar, []⟩
            = some ⟨.eq1, nul, (ch :: r) ++ nul :: t,
              l.takeWhile isNameChar, []⟩ := by
          unfold step part
          dsimp only
          rw [if_neg (fun h => h rfl), if_neg (fun h => hspace h.2),
            if_pos ⟨rfl, heq⟩]
          rfl
        exact On.congr (equals_on hrest hname)
          (loop_step (by decide) hch hstep)

/-- The scan of a line, whatever is behind it in the array. -/
theorem scan_on (hl : nul ∉ l) :
    On (readSetting l) t (start (l ++ nul :: t)) := by
  unfold readSetting start
  match l, hl with
  | [], _ => exact ⟨_, loop_nul (by decide), rfl⟩
  | ch :: r, hl =>
      have hch : ch ≠ nul := fun h => hl (h ▸ List.mem_cons_self)
      have hr : nul ∉ r := fun h => hl (List.mem_cons_of_mem ch h)
      dsimp only
      by_cases hquote : isQuote ch = true
      · rw [if_pos hquote]
        match r, hr with
        | [], _ =>
            rw [if_pos rfl]
            exact loop_step (by decide) hch
              (step_opened (Or.inl rfl) hquote hch)
        | ch' :: r, hr =>
            have hch' : ch' ≠ nul := fun h => hr (h ▸ List.mem_cons_self)
            rw [if_neg (List.cons_ne_nil ch' r)]
            exact On.congr (quotedName_on hch hr)
              (loop_quote (Or.inl rfl) hquote hch hch')
      · rw [if_neg hquote]
        rw [Bool.not_eq_true] at hquote
        exact On.congr (bareName_on hl) (loop_bare (Or.inl rfl) hch hquote)

end EnvScan

end Tinjac.Crond
