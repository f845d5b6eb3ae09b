/-
What `load_env` takes for an environment setting.

`readSetting` reads exactly the lines of the grammar (`readSetting_iff`),
and a setting is never longer than its line, so that it fits where the
line was. With the scan (`scan_on`) and `get_string` this says what
`load_env` does with the next line of a crontab.
-/
import Tinjac.Crond.Proofs.Setting
import Tinjac.Proofs.JobEnv

namespace Tinjac.Crond

open Span

-- ========================================================= the grammar

/-- What is read behind the `=` of a line with this name. -/
inductive BehindEquals (name : List UInt8) : List UInt8 → Scanned → Prop
  | value {gap v value : List UInt8} (spaces : Spaces gap)
      (hvalue : ValueText v value) :
      BehindEquals name (gap ++ v) (.setting name value)
  | opened {gap : List UInt8} {q : UInt8} (spaces : Spaces gap)
      (quote : isQuote q = true) :
      BehindEquals name (gap ++ [q]) (.opened q (some name))

section

variable {name name' l : List UInt8} {r : Scanned}

/-- A quote is no white space. -/
theorem isSpace_of_isQuote {c : UInt8} (h : isQuote c = true) :
    isSpace c = false := by
  rcases EnvScan.isQuote_iff.mp h with rfl | rfl
  · decide
  · decide

/-- A run of white space ends at any other character. -/
theorem stops_spaces {c : UInt8} {t : List UInt8} (h : isSpace c = false) :
    Stops isSpace (c :: t) := stops_cons.mpr h

/-- White space at the end is cut off. -/
theorem rdropWhile_spaces {v gap : List UInt8} (hgap : Spaces gap)
    (hv : ∀ c, v.getLast? = some c → isSpace c = false) :
    (v ++ gap).rdropWhile isSpace = v := by
  unfold List.rdropWhile
  have hrun : ∀ c ∈ gap.reverse, isSpace c = true :=
    fun c hc => hgap c (List.mem_reverse.mp hc)
  have hstop : Stops isSpace v.reverse := by
    intro c hc
    rw [List.head?_reverse] at hc
    exact hv c hc
  rw [List.reverse_append, dropWhile_run hrun hstop, List.reverse_reverse]

/-- A quoted value is read if nothing but white space is behind its quote.
-/
theorem readQuoted_of {q : UInt8} {value gap : List UInt8}
    (hquote : q ∉ value) (hgap : Spaces gap) :
    readQuoted q name (value ++ q :: gap) = .setting name value := by
  have hrun : ∀ c ∈ value, (c != q) = true := by
    intro c hc
    rw [bne_iff_ne]
    rintro rfl
    exact hquote hc
  have hstop : Stops (· != q) (q :: gap) := stops_cons.mpr (bne_self_eq_false q)
  unfold readQuoted
  rw [dropWhile_run hrun hstop, takeWhile_run hrun hstop]
  dsimp only
  rw [if_pos (List.all_eq_true.mpr hgap)]

/-- What may stand behind the equals sign is read as what it is. -/
theorem readValue_of (h : BehindEquals name l r) : readValue name l = r := by
  unfold readValue
  cases h with
  | opened hgap hquote =>
      rw [dropWhile_run hgap (stops_spaces (isSpace_of_isQuote hquote))]
      dsimp only
      rw [if_pos hquote, if_pos rfl]
  | @value _ _ value hgap hvalue =>
      cases hvalue with
      | @quoted q _ gap' hquote hunquoted hgap' =>
          rw [dropWhile_run hgap (stops_spaces (isSpace_of_isQuote hquote))]
          have hne : value ++ q :: gap' ≠ [] := by simp
          dsimp only
          rw [if_pos hquote, if_neg hne]
          exact readQuoted_of hunquoted hgap'
      | @bare _ gap' hne hfirst hlast hgap' =>
          obtain ⟨c, t, rfl⟩ := List.exists_cons_of_ne_nil hne
          obtain ⟨hspace, hquote⟩ := hfirst c rfl
          rw [List.cons_append, dropWhile_run hgap (stops_spaces hspace)]
          dsimp only
          rw [hquote, if_neg (by decide), ← List.cons_append,
            rdropWhile_spaces hgap' hlast]

/-- And so is what stands behind a name, with white space around the
equals sign. -/
theorem readEquals_of {gap : List UInt8} (hgap : Spaces gap)
    (h : BehindEquals name l r) :
    readEquals name (gap ++ equals :: l) = r := by
  unfold readEquals
  rw [dropWhile_run hgap (stops_spaces (by decide))]
  dsimp only
  rw [if_pos rfl]
  exact readValue_of h

/-- And so is a whole setting. -/
theorem readSetting_of {n : List UInt8} (hname : NameText n name)
    (h : BehindEquals name l r) : readSetting (n ++ equals :: l) = r := by
  cases hname with
  | @quoted q _ gap hquote hunquoted hequals hgap =>
      have hne : name ++ q :: gap ++ equals :: l ≠ [] := by simp
      have hrun : ∀ c ∈ name, (c != q && c != equals) = true := by
        intro c hc
        rw [Bool.and_eq_true, bne_iff_ne, bne_iff_ne]
        exact ⟨fun h => hunquoted (h ▸ hc), fun h => hequals (h ▸ hc)⟩
      have hstop : Stops (fun c => c != q && c != equals)
          (q :: (gap ++ equals :: l)) := by
        rw [stops_cons, bne_self_eq_false, Bool.false_and]
      unfold readSetting
      rw [List.cons_append]
      dsimp only
      rw [if_pos hquote, if_neg hne, List.append_assoc, List.cons_append]
      unfold readQuotedName
      rw [dropWhile_run hrun hstop, takeWhile_run hrun hstop]
      dsimp only
      rw [if_pos rfl]
      exact readEquals_of hgap h
  | @bare _ gap hchars hfirst hgap =>
      have hstop : Stops isNameChar (gap ++ equals :: l) := by
        cases gap with
        | nil => exact stops_cons.mpr (by decide)
        | cons c gap =>
            refine stops_cons.mpr ?_
            unfold isNameChar
            rw [hgap c List.mem_cons_self]
            rfl
      have hrun := dropWhile_run hchars hstop
      have htake := takeWhile_run hchars hstop
      rw [List.append_assoc]
      have hread : readEquals
          ((name ++ (gap ++ equals :: l)).takeWhile isNameChar)
          ((name ++ (gap ++ equals :: l)).dropWhile isNameChar) = r := by
        rw [hrun, htake]
        exact readEquals_of hgap h
      have hnot : ∀ c t, name ++ (gap ++ equals :: l) = c :: t →
          isQuote c = false := by
        intro c t heq
        cases name with
        | cons c' name =>
            injection heq with hc
            exact hfirst c (by rw [← hc]; rfl)
        | nil =>
            cases gap with
            | nil =>
                injection heq with hc
                rw [← hc]
                decide
            | cons c' gap =>
                injection heq with hc
                have hspace := hgap c' List.mem_cons_self
                rw [hc] at hspace
                by_contra hquote
                rw [Bool.not_eq_false] at hquote
                rw [isSpace_of_isQuote hquote] at hspace
                cases hspace
      generalize hl : name ++ (gap ++ equals :: l) = t at *
      cases t with
      | nil => simp at hl
      | cons c t =>
          unfold readSetting
          dsimp only
          rw [hnot c t rfl, if_neg (by decide)]
          exact hread

-- ------------------------------------------------------------ and back

/-- What is read as a quoted value is one. -/
theorem readQuoted_sound {q : UInt8} {r : Scanned}
    (h : readQuoted q name l = r) (hr : r ≠ .refused) :
    ∃ value gap, r = .setting name value ∧ l = value ++ q :: gap
      ∧ q ∉ value ∧ Spaces gap := by
  have hsplit := List.takeWhile_append_dropWhile (p := (· != q)) (l := l)
  have hstop := stops_dropWhile (· != q) l
  unfold readQuoted at h
  split at h
  · exact absurd h.symm hr
  · next c gap hd =>
    rw [hd] at hsplit hstop
    have hc : c = q := by
      have hpass := stops_cons.mp hstop
      rw [bne_eq_false_iff_eq] at hpass
      exact hpass
    split at h
    · next hall =>
      refine ⟨_, gap, h.symm, ?_, ?_, List.all_eq_true.mp hall⟩
      · rw [hc] at hsplit
        exact hsplit.symm
      · intro hmem
        have hpass := List.mem_takeWhile_imp hmem
        rw [bne_self_eq_false] at hpass
        cases hpass
    · exact absurd h.symm hr

/-- What is read behind the equals sign is what may stand there. -/
theorem readValue_sound (h : readValue name l = r) (hr : r ≠ .refused) :
    BehindEquals name l r := by
  have hspaces : Spaces (l.takeWhile isSpace) :=
    fun _ hc => List.mem_takeWhile_imp hc
  have hsplit := List.takeWhile_append_dropWhile (p := isSpace) (l := l)
  have hstop := stops_dropWhile isSpace l
  unfold readValue at h
  split at h
  · exact absurd h.symm hr
  · next c t hd =>
    rw [hd] at hsplit hstop
    rw [← hsplit]
    split at h
    · next hquote =>
      split at h
      · next ht =>
        subst ht
        rw [← h]
        exact .opened hspaces hquote
      · obtain ⟨value, gap, rfl, rfl, hunquoted, hgap⟩ :=
          readQuoted_sound h hr
        exact .value hspaces (.quoted hquote hunquoted hgap)
    · next hquote =>
      rw [← h]
      have hc := stops_cons.mp hstop
      have hvalue : (c :: t).rdropWhile isSpace ≠ [] := by
        intro hnil
        have hall := List.rdropWhile_eq_nil_iff.mp hnil c List.mem_cons_self
        rw [hc] at hall
        cases hall
      have hends : (c :: t).rdropWhile isSpace
          ++ (c :: t).rtakeWhile isSpace = c :: t :=
        List.rdropWhile_append_rtakeWhile
      have hgap : Spaces ((c :: t).rtakeWhile isSpace) := by
        intro d hd
        exact List.mem_rtakeWhile_imp hd
      have htext : ValueText (c :: t) ((c :: t).rdropWhile isSpace) := by
        have hbare := ValueText.bare hvalue (fun d hd => ?_)
          (fun d hd => ?_) hgap
        · rw [hends] at hbare
          exact hbare
        · obtain ⟨e, v, hv⟩ := List.exists_cons_of_ne_nil hvalue
          rw [hv] at hd hends
          injection hd with hd
          injection hends with he
          rw [← hd, he]
          exact ⟨hc, Bool.eq_false_iff.mpr hquote⟩
        · have hlast := List.rdropWhile_last_not isSpace (c :: t) hvalue
          rw [List.getLast?_eq_getLast_of_ne_nil hvalue] at hd
          injection hd with hd
          rw [hd] at hlast
          exact Bool.eq_false_iff.mpr hlast
      exact .value hspaces htext

/-- What is read behind a name has an equals sign. -/
theorem readEquals_sound (h : readEquals name l = r) (hr : r ≠ .refused) :
    ∃ gap l', l = gap ++ equals :: l' ∧ Spaces gap
      ∧ BehindEquals name l' r := by
  have hsplit := List.takeWhile_append_dropWhile (p := isSpace) (l := l)
  unfold readEquals at h
  split at h
  · exact absurd h.symm hr
  · next c t hd =>
    split at h
    · next hc =>
      rw [hd, hc] at hsplit
      exact ⟨_, t, hsplit.symm, fun _ hc => List.mem_takeWhile_imp hc,
        readValue_sound h hr⟩
    · exact absurd h.symm hr

/-- A line that is not refused is a quote, or has a name and what is
behind it. -/
theorem readSetting_sound (h : readSetting l = r) (hr : r ≠ .refused) :
    (∃ q, isQuote q = true ∧ l = [q] ∧ r = .opened q none)
      ∨ ∃ n name l', l = n ++ equals :: l' ∧ NameText n name
        ∧ BehindEquals name l' r := by
  unfold readSetting at h
  split at h
  · exact absurd h.symm hr
  · next c t =>
    split at h
    · next hquote =>
      split at h
      · next ht =>
        exact Or.inl ⟨c, hquote, by rw [ht], h.symm⟩
      · refine Or.inr ?_
        have hsplit := List.takeWhile_append_dropWhile
          (p := fun d => d != c && d != equals) (l := t)
        unfold readQuotedName at h
        split at h
        · exact absurd h.symm hr
        · next d t' hd =>
          split at h
          · next hdc =>
            obtain ⟨gap, l', ht', hgap, hbehind⟩ := readEquals_sound h hr
            rw [hd, hdc, ht'] at hsplit
            have hchars : ∀ e ∈ t.takeWhile
                (fun d => d != c && d != equals), e ≠ c ∧ e ≠ equals := by
              intro e he
              have hpass := List.mem_takeWhile_imp he
              rw [Bool.and_eq_true, bne_iff_ne, bne_iff_ne] at hpass
              exact hpass
            refine ⟨_, _, l', ?_, .quoted hquote
              (fun hmem => (hchars c hmem).1 rfl)
              (fun hmem => (hchars equals hmem).2 rfl) hgap, hbehind⟩
            rw [List.cons_append, List.append_assoc, List.cons_append,
              hsplit]
          · exact absurd h.symm hr
    · next hquote =>
      refine Or.inr ?_
      have hsplit := List.takeWhile_append_dropWhile (p := isNameChar)
        (l := c :: t)
      obtain ⟨gap, l', hd, hgap, hbehind⟩ := readEquals_sound h hr
      rw [hd] at hsplit
      refine ⟨(c :: t).takeWhile isNameChar ++ gap, _, l', ?_,
        .bare (fun _ he => List.mem_takeWhile_imp he) ?_ hgap, hbehind⟩
      · rw [List.append_assoc]
        exact hsplit.symm
      · intro e he
        rw [List.takeWhile_cons] at he
        split at he
        · injection he with he
          rw [← he]
          exact Bool.eq_false_iff.mpr hquote
        · cases he

/-- A setting keeps the name it was begun with, and has a value behind the
equals sign. -/
theorem BehindEquals.setting {value : List UInt8}
    (h : BehindEquals name l (.setting name' value)) :
    name' = name ∧ ∃ gap v, l = gap ++ v ∧ Spaces gap
      ∧ ValueText v value := by
  cases h with
  | value hgap hvalue => exact ⟨rfl, _, _, rfl, hgap, hvalue⟩

/-- The lines that are read as settings. -/
theorem readSetting_iff {value : List UInt8} :
    readSetting l = .setting name value ↔ SettingText l name value := by
  refine ⟨fun h => ?_, fun h => ?_⟩
  · rcases readSetting_sound h nofun with
      ⟨_, _, _, hopened⟩ | ⟨n, name', l', rfl, hname, hbehind⟩
    · cases hopened
    · obtain ⟨rfl, gap, v, rfl, hgap, hvalue⟩ := hbehind.setting
      exact .line hname hgap hvalue
  · obtain ⟨hname, hgap, hvalue⟩ := h
    exact readSetting_of hname (.value hgap hvalue)

/-- The lines that end where the quote of a value opens. -/
theorem readSetting_opened {q : UInt8} :
    readSetting l = .opened q (some name) ↔ OpenText l q name := by
  refine ⟨fun h => ?_, fun h => ?_⟩
  · rcases readSetting_sound h nofun with
      ⟨_, _, _, hopened⟩ | ⟨n, name', l', rfl, hname, hbehind⟩
    · cases hopened
    · cases hbehind with
      | opened hgap hquote => exact .line hname hgap hquote
  · obtain ⟨hname, hgap, hquote⟩ := h
    exact readSetting_of hname (.opened hgap hquote)

/-- The lines that are nothing but a quote. -/
theorem readSetting_quote {q : UInt8} (h : readSetting l = .opened q none) :
    isQuote q = true ∧ l = [q] := by
  rcases readSetting_sound h nofun with
    ⟨_, hquote, hl, hopened⟩ | ⟨n, name', l', rfl, hname, hbehind⟩
  · cases hopened
    exact ⟨hquote, hl⟩
  · cases hbehind

/-- A name is no longer than its text, and of the same characters. -/
theorem NameText.subset {n : List UInt8} (h : NameText n name) :
    name.length ≤ n.length ∧ ∀ c ∈ name, c ∈ n := by
  cases h with
  | bare =>
      exact ⟨by rw [List.length_append]; omega,
        fun c hc => List.mem_append_left _ hc⟩
  | quoted =>
      refine ⟨by simp only [List.length_cons, List.length_append]; omega,
        fun c hc => List.mem_cons_of_mem _ (List.mem_append_left _ hc)⟩

/-- A value is no longer than its text and of the same characters: what is
stripped off are quotes and white space. -/
theorem ValueText.subset {v value : List UInt8} (h : ValueText v value) :
    value.length ≤ v.length ∧ ∀ c ∈ value, c ∈ v := by
  cases h with
  | bare =>
      exact ⟨by rw [List.length_append]; omega,
        fun c hc => List.mem_append_left _ hc⟩
  | quoted =>
      refine ⟨by simp only [List.length_cons, List.length_append]; omega,
        fun c hc => List.mem_cons_of_mem _ (List.mem_append_left _ hc)⟩

/-- A setting is not longer than its line, and made of its characters. -/
theorem SettingText.subset {value : List UInt8}
    (h : SettingText l name value) :
    name.length + value.length + 1 ≤ l.length
      ∧ ∀ c ∈ name ++ equals :: value, c ∈ l := by
  cases h with
  | line hname hgap hvalue =>
      obtain ⟨hlen, hmem⟩ := hname.subset
      obtain ⟨hlen', hmem'⟩ := hvalue.subset
      refine ⟨?_, ?_⟩
      · simp only [List.length_append, List.length_cons]
        omega
      · intro c hc
        simp only [List.mem_append, List.mem_cons] at hc ⊢
        rcases hc with hc | hc | hc
        · exact Or.inl (hmem c hc)
        · exact Or.inr (Or.inl hc)
        · exact Or.inr (Or.inr (Or.inr (hmem' c hc)))

/-- Nor is the name of a setting whose quote opens at the end. -/
theorem OpenText.subset {q : UInt8} (h : OpenText l q name) :
    isQuote q = true ∧ name.length + 1 ≤ l.length ∧ ∀ c ∈ name, c ∈ l := by
  cases h with
  | line hname hgap hquote =>
      obtain ⟨hlen, hmem⟩ := hname.subset
      refine ⟨hquote, ?_, fun c hc => List.mem_append_left _ (hmem c hc)⟩
      rw [List.length_append, List.length_cons]
      omega

end

-- ============================================================= load_env

/-- The line `load_env` looks at: what `get_string` keeps of it. -/
def envLine (t : List UInt8) : List UInt8 :=
  (((usefulText t).takeWhile (isToken lineTerms))).take (maxEnvstr - 1)

/-- What follows the line, its terminator included. -/
def afterLine (t : List UInt8) : List UInt8 :=
  (usefulText t).dropWhile (isToken lineTerms)

/-- The line that is scanned is a string. -/
theorem envLine_noNul (t : List UInt8) : nul ∉ envLine t := by
  have htoken : ∀ c ∈ envLine t, isToken lineTerms c = true := fun c hc =>
    List.mem_takeWhile_imp ((List.take_prefix _ _).subset hc)
  exact nul_not_mem_of_token htoken

/-- And it fits the array. -/
theorem envLine_length (t : List UInt8) :
    (envLine t).length ≤ maxEnvstr - 1 :=
  List.length_take_le _ _

/-- What was stored with a NUL behind it is read back as a string. -/
theorem storeAll_string (array : List UInt8) {w : List UInt8}
    (hw : nul ∉ w) : (CString.ofBuf (storeAll array (w ++ [nul]))).bytes = w := by
  have hrun : ∀ c ∈ w, (c != nul) = true := by
    intro c hc
    rw [bne_iff_ne]
    rintro rfl
    exact hw hc
  show (w ++ [nul] ++ array.drop _).takeWhile (· != nul) = w
  rw [List.append_assoc]
  exact takeWhile_run hrun (stops_cons.mpr (bne_self_eq_false nul))

/-- The array once the line was read into it: the line, its NUL, and
behind it whatever earlier lines have left. -/
def lineArray (envstr t : List UInt8) : List UInt8 :=
  envLine t ++ nul :: envstr.drop ((envLine t).length + 1)

/-- What becomes of a line once it is scanned: a setting is put together,
and taken if it fits; a line that is none is given back to the file. -/
def envOutcome (envstr : List UInt8) (noted f : Stream) (s : EnvScan) :
    EnvStatus × List UInt8 × Stream :=
  match s.setting with
  | none => (.no, envstr, rewind noted f)
  | some (name, val) =>
      if (glueStrings maxEnvstr name val equals).1 then
        (.yes, storeAll envstr (glueStrings maxEnvstr name val equals).2, f)
      else (.no, storeAll envstr (glueStrings maxEnvstr name val equals).2, f)

/-- `load_env`, on the line that is next. -/
theorem loadEnv_eq (envstr : List UInt8) (file : Stream) :
    ∃ f, f.rest = (afterLine file.rest).tail ∧ f.fails = file.fails
      ∧ loadEnv envstr file
        = if afterLine file.rest = [] then
            some (.err, lineArray envstr file.rest, f)
          else
            (EnvScan.start (lineArray envstr file.rest)).loop.map
              (envOutcome (lineArray envstr file.rest) file f) := by
  obtain ⟨hrest, hfails⟩ := skipComments_rest file
  obtain ⟨f, hget, hleft, hfails'⟩ := getStringLoop_eq lineTerms []
    maxEnvstr (skipComments file) (by decide)
  rw [List.nil_append, hrest] at hget
  rw [hrest] at hleft
  have hline : getString maxEnvstr (skipComments file) lineTerms
      = (envLine file.rest, (afterLine file.rest).head?, f) := hget
  have harray : storeAll envstr (envLine file.rest ++ [nul])
      = lineArray envstr file.rest := by
    unfold storeAll lineArray
    rw [List.append_assoc, List.length_append]
    rfl
  refine ⟨f, hleft, hfails'.trans hfails, ?_⟩
  unfold loadEnv
  dsimp only
  rw [show bytes "\n" = lineTerms from rfl, hline]
  dsimp only
  rw [harray]
  by_cases hend : afterLine file.rest = []
  · rw [if_pos hend, if_pos (by rw [hend]; rfl)]
  · rw [if_neg hend, if_neg (by rw [List.head?_eq_none_iff]; exact hend)]
    cases (EnvScan.start (lineArray envstr file.rest)).loop with
    | none => rfl
    | some s =>
        unfold envOutcome EnvScan.setting
        dsimp only [Option.map_some]
        by_cases hno : s.state ≠ .fini
            ∧ ¬ (s.state = .value ∧ s.quotechar = nul)
        · rw [if_pos hno, if_pos hno]
        · rw [if_neg hno, if_neg hno]
          exact (apply_ite some _ _ _).symm

/-- A line that ends where a quote opens, behind an equals sign or as all
there is of the line. -/
def EndsOpen (l : List UInt8) : Prop :=
  (∃ q name, OpenText l q name) ∨ ∃ q, isQuote q = true ∧ l = [q]

/-- Where a quote opens at the end the scan comes to the NUL inside a
value. -/
theorem EndsOpen.opened {l : List UInt8} (h : EndsOpen l) :
    ∃ q name, readSetting l = .opened q name := by
  rcases h with ⟨q, name, hopen⟩ | ⟨q, hquote, rfl⟩
  · exact ⟨q, some name, readSetting_opened.mpr hopen⟩
  · refine ⟨q, none, ?_⟩
    unfold readSetting
    dsimp only
    rw [if_pos hquote, if_pos rfl]

/-- A setting fits where its line was. -/
theorem glue_fits {name value : List UInt8}
    (h : name.length + value.length + 1 ≤ maxEnvstr - 1) :
    glueStrings maxEnvstr name value equals
      = (true, name ++ equals :: value ++ [nul]) := by
  have hglued := glued_equals name value
  have hmax : maxEnvstr = 131072 := rfl
  rcases glueStrings_cases maxEnvstr name value equals with
    ⟨-, hglue⟩ | ⟨hlong, -⟩
  · rw [hglue, hglued]
  · rw [hglued] at hlong
    simp only [List.length_append, List.length_cons, List.length_nil]
      at hlong
    omega

/-- What `load_env` returns for a line the scan gets through. -/
theorem loadEnv_of_gives {envstr : List UInt8} {file : Stream}
    (hmore : afterLine file.rest ≠ [])
    {r : Option (List UInt8 × List UInt8)}
    (h : EnvScan.Gives (EnvScan.start (lineArray envstr file.rest)) r) :
    ∃ f, f.rest = (afterLine file.rest).tail ∧ f.fails = file.fails
      ∧ match r with
        | none => loadEnv envstr file
            = some (.no, lineArray envstr file.rest, rewind file f)
        | some (name, value) =>
            name.length + value.length + 1 ≤ maxEnvstr - 1 →
            loadEnv envstr file
              = some (.yes, storeAll (lineArray envstr file.rest)
                  (name ++ equals :: value ++ [nul]), f) := by
  obtain ⟨f, hrest, hfails, hload⟩ := loadEnv_eq envstr file
  obtain ⟨s, hloop, hsetting⟩ := h
  rw [if_neg hmore, hloop, Option.map_some] at hload
  unfold envOutcome at hload
  rw [hsetting] at hload
  refine ⟨f, hrest, hfails, ?_⟩
  cases r with
  | none => exact hload
  | some r =>
      obtain ⟨name, value⟩ := r
      intro hlen
      dsimp only at hload
      rw [glue_fits hlen] at hload
      exact hload

section

variable (envstr : List UInt8) {file : Stream}

/-- At the end of the file there is no line. -/
theorem loadEnv_end (hend : afterLine file.rest = []) :
    ∃ envstr' f, loadEnv envstr file = some (.err, envstr', f)
      ∧ f.fails = file.fails := by
  obtain ⟨f, -, hfails, hload⟩ := loadEnv_eq envstr file
  rw [if_pos hend] at hload
  exact ⟨_, f, hload, hfails⟩

/-- **The scan** of the array does what the grammar says of the line, and
where a quote is open goes on with what is behind the line's NUL. -/
theorem scan_lineArray (envstr : List UInt8) (file : Stream) :
    EnvScan.On (readSetting (envLine file.rest))
      (envstr.drop ((envLine file.rest).length + 1))
      (EnvScan.start (lineArray envstr file.rest)) :=
  EnvScan.scan_on (envLine_noNul file.rest)

/-- A line that is a setting is taken, and the file stands behind it. -/
theorem loadEnv_setting (hmore : afterLine file.rest ≠ [])
    {name value : List UInt8}
    (htext : SettingText (envLine file.rest) name value) :
    ∃ envstr' f, loadEnv envstr file = some (.yes, envstr', f)
      ∧ f.fails = file.fails ∧ f.rest = (afterLine file.rest).tail
      ∧ (CString.ofBuf envstr').bytes = name ++ equals :: value := by
  have hnul := envLine_noNul file.rest
  have hlen := envLine_length file.rest
  obtain ⟨hfit, hmem⟩ := htext.subset
  have hon := scan_lineArray envstr file
  rw [readSetting_iff.mpr htext] at hon
  obtain ⟨f, hrest, hfails, hload⟩ := loadEnv_of_gives hmore hon
  exact ⟨_, f, hload (by omega), hfails, hrest,
    storeAll_string _ fun h => hnul (hmem nul h)⟩

/-- One that is none is not, and the file stands where it was. -/
theorem loadEnv_refused (hmore : afterLine file.rest ≠ [])
    (hread : readSetting (envLine file.rest) = .refused) :
    ∃ envstr' f, loadEnv envstr file = some (.no, envstr', f)
      ∧ f.fails = file.fails ∧ f.rest = file.rest
      ∧ f.lineNumber = file.lineNumber := by
  have hon := scan_lineArray envstr file
  rw [hread] at hon
  obtain ⟨f, -, hfails, hload⟩ := loadEnv_of_gives hmore hon
  exact ⟨_, _, hload, hfails, rfl, rfl⟩

end

/-- **The settings of a crontab.** Unless a quote opens at its very end,
the next line is a setting for `load_env` if and only if it is one of
the grammar. Then `NAME=value` is left in the array, and the stream
stands behind the line; if it is not, the stream stands where it stood.
Nothing that was in the array before matters. Where no line ends any
more, `ERR` is returned. -/
theorem load_env_line {file : Stream}
    (hclosed : ¬ EndsOpen (envLine file.rest)) (envstr : List UInt8) :
    ∃ status envstr' f, loadEnv envstr file = some (status, envstr', f)
      ∧ f.fails = file.fails
      ∧ (status = .err ↔ afterLine file.rest = [])
      ∧ (status = .yes ↔ afterLine file.rest ≠ []
        ∧ ∃ name value, SettingText (envLine file.rest) name value)
      ∧ (status = .yes → f.rest = (afterLine file.rest).tail
        ∧ ∀ name value, SettingText (envLine file.rest) name value →
          (CString.ofBuf envstr').bytes = name ++ equals :: value)
      ∧ (status = .no → f.rest = file.rest
        ∧ f.lineNumber = file.lineNumber) := by
  by_cases hend : afterLine file.rest = []
  · obtain ⟨_, f, hload, hfails⟩ := loadEnv_end envstr hend
    exact ⟨_, _, f, hload, hfails, ⟨fun _ => hend, fun _ => rfl⟩,
      ⟨nofun, fun h => absurd hend h.1⟩, nofun, nofun⟩
  · cases hread : readSetting (envLine file.rest) with
    | setting name value =>
        have htext := readSetting_iff.mp hread
        obtain ⟨_, f, hload, hfails, hrest, hstring⟩ :=
          loadEnv_setting envstr hend htext
        refine ⟨_, _, f, hload, hfails, ⟨nofun, fun h => absurd h hend⟩,
          ⟨fun _ => ⟨hend, name, value, htext⟩, fun _ => rfl⟩,
          fun _ => ⟨hrest, ?_⟩, nofun⟩
        intro name' value' htext'
        have hsame := readSetting_iff.mpr htext'
        rw [hread] at hsame
        injection hsame with hname hvalue
        rw [← hname, ← hvalue]
        exact hstring
    | refused =>
        obtain ⟨_, f, hload, hfails, hrest, hnumber⟩ :=
          loadEnv_refused envstr hend hread
        refine ⟨_, _, f, hload, hfails, ⟨nofun, fun h => absurd h hend⟩,
          ⟨nofun, ?_⟩, nofun, fun _ => ⟨hrest, hnumber⟩⟩
        rintro ⟨-, name, value, htext⟩
        rw [readSetting_iff.mpr htext] at hread
        cases hread
    | opened q name =>
        refine absurd ?_ hclosed
        cases name with
        | none => exact Or.inr ⟨q, readSetting_quote hread⟩
        | some name => exact Or.inl ⟨q, name, readSetting_opened.mp hread⟩

/-- The line `MAILTO = "root" ` is a setting. -/
theorem mailto_line :
    ∃ envstr' f, loadEnv [] (Stream.ofBytes (bytes "MAILTO = \"root\" \n"))
        = some (.yes, envstr', f)
      ∧ (CString.ofBuf envstr').bytes = bytes "MAILTO=root" := by
  have hread : readSetting (envLine (bytes "MAILTO = \"root\" \n"))
      = .setting (bytes "MAILTO") (bytes "root") := by
    decide +kernel
  have hmore : afterLine (bytes "MAILTO = \"root\" \n") ≠ [] := by
    decide +kernel
  have hclosed : ¬ EndsOpen (envLine
      (Stream.ofBytes (bytes "MAILTO = \"root\" \n")).rest) := by
    intro hopen
    obtain ⟨q, name, hopened⟩ := hopen.opened
    exact nomatch hread.symm.trans hopened
  obtain ⟨status, envstr', f, hload, -, -, hyes, hstring, -⟩ :=
    load_env_line hclosed []
  have hstatus : status = .yes :=
    hyes.mpr ⟨hmore, _, _, readSetting_iff.mp hread⟩
  rw [hstatus] at hload
  exact ⟨envstr', f, hload,
    (hstring hstatus).2 _ _ (readSetting_iff.mp hread)⟩

/-- **A quote that opens at the end.** The value is empty, and the scan
goes on behind the line's NUL: whether the line is a setting is decided
by what earlier lines have left there up to the next NUL. It is one if
this has a quote in it with nothing but white space behind. If neither
quote nor NUL is left, the scan reads beyond the array. -/
theorem load_env_reads_on {file : Stream} {q : UInt8} {name : List UInt8}
    (hopen : OpenText (envLine file.rest) q name)
    (hmore : afterLine file.rest ≠ []) (envstr : List UInt8) :
    (∀ t more, nul ∉ t →
        envstr.drop ((envLine file.rest).length + 1) = t ++ nul :: more →
        ∃ status envstr' f, loadEnv envstr file = some (status, envstr', f)
          ∧ (status = .yes ↔ ∃ v gap, t = v ++ q :: gap ∧ q ∉ v
            ∧ Spaces gap)
          ∧ (status = .yes →
            (CString.ofBuf envstr').bytes = name ++ [equals])
          ∧ (status ≠ .yes → status = .no ∧ f.rest = file.rest))
      ∧ ((∀ c ∈ envstr.drop ((envLine file.rest).length + 1),
          c ≠ nul ∧ c ≠ q) → loadEnv envstr file = none) := by
  have hnul := envLine_noNul file.rest
  have hlen := envLine_length file.rest
  have hread := readSetting_opened.mpr hopen
  obtain ⟨hquote, hfit, hmem⟩ := hopen.subset
  have hq : q ≠ nul := EnvScan.ne_nul_of_isQuote hquote
  have hnameNul : nul ∉ name := fun h => hnul (hmem nul h)
  have hon := scan_lineArray envstr file
  rw [hread] at hon
  have hloop : (EnvScan.start (lineArray envstr file.rest)).loop
      = EnvScan.loop ⟨.value, q,
        envstr.drop ((envLine file.rest).length + 1), name, [nul]⟩ := hon
  refine ⟨?_, ?_⟩
  · intro t more ht hdrop
    rw [hdrop] at hloop
    have hgives := (EnvScan.quoted_gives hq ht).congr hloop
    rw [CString.ofBuf_bytes hnameNul] at hgives
    have hempty : ∀ w, (CString.ofBuf ([nul] ++ w)).bytes = [] :=
      fun w => rfl
    cases hread' : readQuoted q name t with
    | opened q' n =>
        unfold readQuoted at hread'
        split at hread'
        · cases hread'
        · split at hread'
          · cases hread'
          · cases hread'
    | setting name' value =>
        obtain ⟨v, gap, -, rfl, hunquoted, hgap⟩ :=
          readQuoted_sound hread' (by simp)
        have hrun : ∀ c ∈ v, (c != q) = true := by
          intro c hc
          rw [bne_iff_ne]
          rintro rfl
          exact hunquoted hc
        rw [dropWhile_run hrun (stops_cons.mpr (bne_self_eq_false q))]
          at hgives
        dsimp only at hgives
        rw [if_pos (List.all_eq_true.mpr hgap), hempty] at hgives
        obtain ⟨f, hrest, hfails, hload⟩ := loadEnv_of_gives hmore hgives
        refine ⟨_, _, f, hload (by rw [List.length_nil]; omega),
          ⟨fun _ => ⟨v, gap, rfl, hunquoted, hgap⟩, fun _ => rfl⟩,
          fun _ => ?_, fun h => absurd rfl h⟩
        apply storeAll_string
        intro h
        rcases List.mem_append.mp h with h | h
        · exact hnameNul h
        · rw [List.mem_singleton] at h
          exact absurd h (by decide)
    | refused =>
        have hnone : EnvScan.Gives
            (EnvScan.start (lineArray envstr file.rest)) none := by
          unfold readQuoted at hread'
          split at hgives
          · exact hgives
          · next hd =>
            rw [hd] at hread'
            dsimp only at hread'
            split at hread'
            · cases hread'
            · next hall =>
              rw [if_neg hall] at hgives
              exact hgives
        obtain ⟨f, -, hfails, hload⟩ := loadEnv_of_gives hmore hnone
        refine ⟨_, _, _, hload, ⟨by simp, ?_⟩, by simp, fun _ => ⟨rfl, rfl⟩⟩
        rintro ⟨v, gap, rfl, hunquoted, hgap⟩
        rw [readQuoted_of hunquoted hgap] at hread'
        cases hread'
  · intro hnone
    have hstored : ∀ c ∈ envstr.drop ((envLine file.rest).length + 1),
        EnvScan.Stored .value q c := fun c hc =>
      { ne_nul := (hnone c hc).1
        unquoted := fun _ => (hnone c hc).2
        bare := by
          intro h
          exact absurd h hq
        equals := by
          intro h
          cases h }
    have hrun : EnvScan.loop ⟨.value, q,
        envstr.drop ((envLine file.rest).length + 1) ++ [], name, [nul]⟩
        = _ := EnvScan.loop_store_value hstored
    rw [List.append_nil] at hrun
    obtain ⟨f, -, -, hload⟩ := loadEnv_eq envstr file
    rw [hload, if_neg hmore, hloop, hrun, EnvScan.loop]
    rfl

/-- The line `A="` is a setting in an array that `PATH=/bin"` was read
into before, and reads beyond an array that has neither NUL nor quote. -/
theorem open_line_is_setting :
    (∃ envstr, envstr.length = maxEnvstr ∧ ∃ envstr' f,
        loadEnv envstr (Stream.ofBytes (bytes "A=\"\n"))
          = some (.yes, envstr', f))
      ∧ ∃ envstr, envstr.length = maxEnvstr
        ∧ loadEnv envstr (Stream.ofBytes (bytes "A=\"\n")) = none := by
  have hopen : OpenText (envLine (Stream.ofBytes (bytes "A=\"\n")).rest)
      quoteMark (bytes "A") :=
    readSetting_opened.mp (by decide +kernel)
  have hmore : afterLine (Stream.ofBytes (bytes "A=\"\n")).rest ≠ [] := by
    decide +kernel
  have hline : (envLine (Stream.ofBytes (bytes "A=\"\n")).rest).length
      = 3 := by
    decide +kernel
  constructor
  · let unread := List.replicate (maxEnvstr - 11) (65 : UInt8)
    obtain ⟨hleft, -⟩ := load_env_reads_on hopen hmore
      (bytes "PATH=/bin\"" ++ nul :: unread)
    obtain ⟨status, envstr', f, hload, hyes, -⟩ :=
      hleft (bytes "=/bin\"") unread (by decide +kernel)
        (by rw [hline]; rfl)
    have hstatus : status = .yes :=
      hyes.mpr ⟨bytes "=/bin", [], by decide +kernel, by decide +kernel,
        nofun⟩
    rw [hstatus] at hload
    refine ⟨_, ?_, envstr', f, hload⟩
    rw [List.length_append, List.length_cons, List.length_replicate]
    decide
  · obtain ⟨-, hbeyond⟩ := load_env_reads_on hopen hmore
      (List.replicate maxEnvstr 65)
    refine ⟨_, List.length_replicate, hbeyond fun c hc => ?_⟩
    rw [List.eq_of_mem_replicate (List.mem_of_mem_drop hc)]
    decide

end Tinjac.Crond
