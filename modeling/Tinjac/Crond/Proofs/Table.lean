/-
A crontab is loaded as what it says.

Each line of a table is told for what it is: remarks are skipped, by
both `load_env` and `load_entry`; a setting is taken by `load_env`; and a
job is no setting, whatever its command, since its second field does not
begin with an `=` (`refused_of_two_words`). The induction is on the
lines, and goes over remarks without a turn of the loop: what a turn
sees of the file is its useful text.
-/
import Tinjac.Crond.Proofs.LoadUser
import Tinjac.Crond.Proofs.Rule

namespace Tinjac

open Span

-- ============================================= a job line is no setting

/-- The characters of a list. -/
def isListChar (c : UInt8) : Bool :=
  isDigit c || isAlpha c || [star, dash, slash, comma].contains c

theorem isListChar_of_digit {c : UInt8} (h : isDigit c = true) :
    isListChar c = true := by
  unfold isListChar
  rw [h]
  rfl

theorem isListChar_of_alpha {c : UInt8} (h : isAlpha c = true) :
    isListChar c = true := by
  unfold isListChar
  rw [h, Bool.or_true]
  rfl

theorem Num.Scanned.listChar {names : Option (List (List UInt8))} {x : Num}
    (hx : x.Scanned names) : ∀ c ∈ x.text, isListChar c = true := by
  intro c hc
  cases x with
  | digits ds => exact isListChar_of_digit (hx.digits c hc)
  | name ls => exact isListChar_of_alpha (hx.1.letters c hc)

theorem StepTaken.listChar {step : Option (List UInt8)}
    (hstep : StepTaken step) : ∀ c ∈ stepText step, isListChar c = true := by
  intro c hc
  cases step with
  | none => cases hc
  | some n =>
      rcases List.mem_cons.mp hc with rfl | hc
      · decide
      · exact isListChar_of_digit (hstep.1.digits c hc)

theorem Range.Taken.listChar {f : Field} {r : Range} (hr : r.Taken f) :
    ∀ c ∈ r.text, isListChar c = true := by
  intro c hc
  cases r with
  | star step =>
      rcases List.mem_cons.mp hc with rfl | hc
      · decide
      · exact hr.1.listChar c hc
  | single x => exact hr.1.listChar c hc
  | span x y step =>
      obtain ⟨hx, hy, -, hstep, -⟩ := hr
      rcases List.mem_append.mp hc with hc | hc
      · exact hx.listChar c hc
      · rcases List.mem_cons.mp hc with rfl | hc
        · decide
        · rcases List.mem_append.mp hc with hc | hc
          · exact hy.listChar c hc
          · exact hstep.listChar c hc

theorem listText_listChar {rs : List Range}
    (hrs : ∀ r ∈ rs, ∀ c ∈ r.text, isListChar c = true) :
    ∀ c ∈ listText rs, isListChar c = true := by
  fun_induction listText rs with
  | case1 => simp
  | case2 r => exact hrs r List.mem_cons_self
  | case3 r r' rs ih =>
      intro c hc
      rcases List.mem_append.mp hc with hc | hc
      · exact hrs r List.mem_cons_self c hc
      · rcases List.mem_cons.mp hc with rfl | hc
        · decide
        · exact ih (fun q hq => hrs q (List.mem_cons_of_mem r hq)) c hc

theorem FieldList.listChar {f : Field} (hf : f ∈ fields) (l : FieldList f) :
    ∀ c ∈ listText l.ranges, isListChar c = true :=
  listText_listChar fun r hr => ((l.word hf).taken r hr).listChar

namespace Crond

/-- The scan tells a character of a list from what matters to it. -/
theorem isListChar_plain {c : UInt8} (h : isListChar c = true) :
    isNameChar c = true ∧ isQuote c = false ∧ isSpace c = false
      ∧ c ≠ equals := by
  have hbytes : ∀ n : Fin 256, isListChar (UInt8.ofNat n) = true →
      isNameChar (UInt8.ofNat n) = true ∧ isQuote (UInt8.ofNat n) = false
        ∧ isSpace (UInt8.ofNat n) = false ∧ UInt8.ofNat n ≠ equals := by
    decide +kernel
  have hc := hbytes ⟨c.toNat, c.toNat_lt⟩
  rw [UInt8.ofNat_toNat] at hc
  exact hc h

theorem isSpace_of_isBlank {c : UInt8} (h : isBlank c = true) :
    isSpace c = true := by
  unfold isBlank at h
  rw [Bool.or_eq_true, beq_iff_eq, beq_iff_eq] at h
  rcases h with rfl | rfl
  · decide
  · decide

/-- A line of two words of which the second does not begin with an `=`,
or the first part of such a line, is no setting. -/
theorem refused_of_two_words {p s w g r : List UInt8} {c : UInt8}
    (hline : p ++ s = w ++ (g ++ c :: r)) (hw : w ≠ [])
    (hchars : ∀ a ∈ w, isNameChar a = true)
    (hquote : ∀ a ∈ w, isQuote a = false) (hg : g ≠ [])
    (hspaces : Spaces g) (hc : isSpace c = false) (hequals : c ≠ equals) :
    readSetting p = .refused := by
  by_contra hread
  have hfirst : ∀ q t, isQuote q = true → p ++ s ≠ q :: t := by
    intro q t hq heq
    obtain ⟨a, w, rfl⟩ := List.exists_cons_of_ne_nil hw
    rw [hline] at heq
    injection heq with ha
    rw [← ha, hquote a List.mem_cons_self] at hq
    cases hq
  rcases readSetting_sound rfl hread with
    ⟨q, hq, rfl, -⟩ | ⟨n, name, l', rfl, hname, -⟩
  · exact hfirst q s hq rfl
  · cases hname with
    | quoted hq _ _ _ => exact hfirst _ _ hq rfl
    | @bare _ gap hname _ hgap =>
        rw [List.append_assoc, List.append_assoc, List.cons_append] at hline
        have hstop : Stops isNameChar (gap ++ equals :: (l' ++ s)) := by
          cases gap with
          | nil => exact stops_cons.mpr (by decide)
          | cons a gap =>
              refine stops_cons.mpr ?_
              unfold isNameChar
              rw [hgap a List.mem_cons_self]
              rfl
        have hstop' : Stops isNameChar (g ++ c :: r) := by
          obtain ⟨a, g, rfl⟩ := List.exists_cons_of_ne_nil hg
          refine stops_cons.mpr ?_
          unfold isNameChar
          rw [hspaces a List.mem_cons_self]
          rfl
        have hrest := dropWhile_run hname hstop
        rw [hline, dropWhile_run hchars hstop'] at hrest
        have hbehind := dropWhile_run hgap
          (stops_spaces (t := l' ++ s) (c := equals) (by decide))
        rw [← hrest, dropWhile_run hspaces (stops_spaces hc)] at hbehind
        injection hbehind with heq
        exact hequals heq

end Crond

namespace JobLine

/-- The first character of a line. -/
theorem text_first (l : JobLine) (more : List UInt8) :
    ∃ c t, l.text ++ more = c :: t ∧ isNonblank c = true ∧ c ≠ hash := by
  unfold text
  cases l.noLog with
  | true => exact ⟨dash, _, rfl, by decide, by decide⟩
  | false =>
      obtain ⟨c, t, hwords, -, hc⟩ := l.words_cons
      rw [hwords]
      refine ⟨c, _, rfl, ?_, ?_⟩
      · rcases hc with rfl | hc | hc
        · decide
        · exact isNonblank_of_isDigit hc
        · exact isNonblank_of_isAlpha hc
      · rintro rfl
        exact absurd hc (by decide)

theorem usefulText_text (l : JobLine) (more : List UInt8) :
    usefulText (l.text ++ more) = l.text ++ more := by
  obtain ⟨c, t, htext, hc, hhash⟩ := l.text_first more
  rw [htext]
  exact usefulText_cons hc hhash t

theorem newline_mem (l : JobLine) : newline ∈ l.text := by
  unfold text job
  simp

/-- The minute, the blanks behind it, and the hour. -/
theorem text_words (l : JobLine) (more : List UInt8) :
    ∃ c r, isListChar c = true
      ∧ l.text ++ more
        = ((if l.noLog then [dash] else []) ++ listText l.minute.ranges)
          ++ (l.g1 ++ c :: r) := by
  obtain ⟨c, t, hhour, hc⟩ := (l.hour.word (by simp [fields])).head
  refine ⟨c, t ++ (l.g2 ++ (listText l.dom.ranges ++ (l.g3
    ++ (listText l.month.ranges ++ (l.g4 ++ (listText l.dow.ranges
      ++ (l.g5 ++ (l.job ++ more)))))))), ?_, ?_⟩
  · rcases hc with rfl | hc | hc
    · decide
    · exact isListChar_of_digit hc
    · exact isListChar_of_alpha hc
  · unfold text FiveWords.text words
    dsimp only
    rw [hhour]
    simp only [List.append_assoc, List.cons_append]

/-- A job is no setting, and no quote opens at its end. -/
theorem refused (l : JobLine) (more : List UInt8) :
    Crond.readSetting (Crond.envLine (l.text ++ more)) = .refused
      ∧ Crond.afterLine (l.text ++ more) ≠ [] := by
  obtain ⟨c, r, hc, htext⟩ := l.text_words more
  obtain ⟨-, -, hspace, hequals⟩ := Crond.isListChar_plain hc
  refine ⟨?_, ?_⟩
  · obtain ⟨s, hs⟩ : Crond.envLine (l.text ++ more) <+: l.text ++ more := by
      unfold Crond.envLine
      rw [l.usefulText_text]
      exact (List.take_prefix _ _).trans (List.takeWhile_prefix _)
    have hchars : ∀ a ∈ (if l.noLog then [dash] else [])
        ++ listText l.minute.ranges, isListChar a = true := by
      intro a ha
      rcases List.mem_append.mp ha with ha | ha
      · split at ha
        · rw [List.mem_singleton.mp ha]
          decide
        · cases ha
      · exact l.minute.listChar (by simp [fields]) a ha
    have hne : (if l.noLog then [dash] else [])
        ++ listText l.minute.ranges ≠ [] := by
      obtain ⟨a, t, hminute, -⟩ := (l.minute.word (by simp [fields])).head
      rw [hminute]
      simp
    exact Crond.refused_of_two_words (hs.trans htext) hne
      (fun a ha => (Crond.isListChar_plain (hchars a ha)).1)
      (fun a ha => (Crond.isListChar_plain (hchars a ha)).2.1)
      l.gap1.ne_nil
      (fun a ha => Crond.isSpace_of_isBlank (l.gap1.blank a ha)) hspace
      hequals
  · unfold Crond.afterLine
    rw [l.usefulText_text]
    exact dropWhile_ne_nil ⟨newline,
      List.mem_append_left _ l.newline_mem, by decide⟩

end JobLine

namespace Crond

open BlockHeap CHeap

-- ============================================================ the lines

/-- What `load_env` looks at is in the useful text. -/
theorem envLine_congr {t t' : List UInt8}
    (h : usefulText t = usefulText t') :
    envLine t = envLine t' ∧ afterLine t = afterLine t' := by
  unfold envLine afterLine
  rw [h]
  exact ⟨rfl, rfl⟩

/-- What is left behind the last newline is no line. -/
theorem afterLine_tail {tail : List UInt8}
    (htail : ∀ c ∈ tail, isToken lineTerms c = true) :
    afterLine tail = [] := by
  unfold afterLine
  rw [List.dropWhile_eq_nil_iff]
  intro c hc
  apply htail
  have hnl : newline ∉ tail := by
    intro hmem
    exact absurd (htail newline hmem) (by decide)
  have hdrop : dropLine tail = [] := by
    unfold dropLine
    have hall : ∀ b ∈ tail, (b != newline) = true := by
      intro b hb
      rw [bne_iff_ne]
      rintro rfl
      exact hnl hb
    rw [List.dropWhile_eq_nil_iff.mpr hall]
    rfl
  cases hign : ignorable tail with
  | true =>
      rw [usefulText_ignorable hign, hdrop, usefulText_nil] at hc
      cases hc
  | false =>
      rw [usefulText_useful hign] at hc
      exact (List.dropWhile_suffix _).subset hc

/-- `skip_comments` passes over a remark, so what is next is next behind
it. -/
theorem Remark.usefulText (l : Remark) (rest : List UInt8) :
    usefulText ((TableLine.remark l).text ++ rest)
      = Tinjac.usefulText rest := by
  have htext : (TableLine.remark l).text ++ rest
      = l.line ++ newline :: rest := by
    show l.line ++ [newline] ++ rest = _
    rw [List.append_assoc]
    rfl
  have hrun : ∀ b ∈ l.line, (b != newline) = true := by
    intro b hb
    rw [bne_iff_ne]
    rintro rfl
    exact l.plain hb
  have hstop : ∀ r, Stops (fun c => c != newline) (newline :: r) :=
    fun r => stops_cons.mpr (bne_self_eq_false newline)
  have htake : ∀ r, takeLine (l.line ++ newline :: r)
      = l.line ++ [newline] := by
    intro r
    unfold takeLine
    rw [takeWhile_run hrun (hstop r), dropWhile_run hrun (hstop r)]
    rfl
  have hdrop : dropLine (l.line ++ newline :: rest) = rest := by
    unfold dropLine
    rw [dropWhile_run hrun (hstop rest)]
    rfl
  have hign : ignorable (l.line ++ newline :: rest) = true := by
    rw [← ignorable_takeLine, htake]
    exact l.ignored
  rw [htext, usefulText_ignorable hign, hdrop]

/-- The useful text of a setting, from its first character on. -/
theorem SettingLine.usefulText (l : SettingLine) (rest : List UInt8) :
    usefulText ((TableLine.setting l).text ++ rest)
      = l.line ++ newline :: rest := by
  have htext : (TableLine.setting l).text ++ rest
      = l.lead ++ (l.line ++ newline :: rest) := by
    show l.lead ++ (l.line ++ [newline]) ++ rest = _
    rw [List.append_assoc, List.append_assoc]
    rfl
  obtain ⟨c, t, hline⟩ : ∃ c t, l.line = c :: t := by
    apply List.exists_cons_of_ne_nil
    intro hnil
    have hlen := l.text.subset.1
    rw [hnil, List.length_nil] at hlen
    omega
  obtain ⟨hc, hhash⟩ := l.first c (by rw [hline]; rfl)
  have hblank : isBlank c = false := by
    by_contra hb
    rw [Bool.not_eq_false] at hb
    rw [isNonblank_of_isBlank hb] at hc
    cases hc
  have hnl : c ≠ newline := by
    rintro rfl
    exact absurd hc (by decide)
  have hstop : Stops isBlank (l.line ++ newline :: rest) := by
    rw [hline]
    exact stops_cons.mpr hblank
  have hdrop := dropWhile_run l.lead_blank hstop
  have hign : ignorable (l.lead ++ (l.line ++ newline :: rest)) = false := by
    unfold ignorable
    rw [hdrop, hline]
    show (c == newline || c == hash) = false
    rw [Bool.or_eq_false_iff, beq_eq_false_iff_ne, beq_eq_false_iff_ne]
    exact ⟨hnl, hhash⟩
  rw [htext, usefulText_useful hign, hdrop]

/-- The line of a setting, as `load_env` sees it. -/
theorem SettingLine.envLine (l : SettingLine) {t rest : List UInt8}
    (h : Tinjac.usefulText t = l.line ++ newline :: rest) :
    envLine t = l.line ∧ afterLine t = newline :: rest := by
  have hstop : Stops (isToken lineTerms) (newline :: rest) :=
    stops_cons.mpr (by decide)
  have hshort := l.short
  unfold Crond.envLine afterLine
  rw [h, takeWhile_run l.plain hstop, dropWhile_run l.plain hstop]
  exact ⟨List.take_of_length_le (by omega), rfl⟩

theorem NameText.equals_not_mem {n name : List UInt8}
    (h : NameText n name) : equals ∉ name := by
  cases h with
  | quoted _ _ hequals _ => exact hequals
  | bare hchars _ _ =>
      intro hmem
      exact absurd (hchars equals hmem) (by decide)

theorem SettingLine.settable (l : SettingLine) :
    Settable l.name l.value := by
  have hmem := l.text.subset.2
  have hnul : nul ∉ l.line := nul_not_mem_of_token l.plain
  refine ⟨⟨?_, ?_⟩, ?_⟩
  · have htext := l.text
    generalize l.line = line at htext
    cases htext with
    | line hname _ _ => exact hname.equals_not_mem
  · exact fun h => hnul (hmem nul (List.mem_append_left _ h))
  · exact fun h => hnul (hmem nul
      (List.mem_append_right _ (List.mem_cons_of_mem equals h)))

-- ============================================================= the loop

section

variable {getpwnam : CString → Option Passwd} (tab : String)

/-- The users of a table's jobs are known to the password database. -/
def UsersKnown (getpwnam : CString → Option Passwd)
    (ls : List TableLine) : Prop :=
  ∀ l, TableLine.job l ∈ ls →
    ∃ pw, getpwnam (CString.ofBuf l.user) = some pw

/-- An entry as it was made of this job, with the environment it was
given. -/
def MadeOf (getpwnam : CString → Option Passwd) (j : JobLine × EnvFun)
    (p : Entry × EnvFun) : Prop :=
  (∃ pw, getpwnam (CString.ofBuf j.1.user) = some pw ∧ Made j.1 pw p.1)
    ∧ p.2 = jobEnv p.1.pwd j.2

/-- The loop goes through a table and adds its jobs, the last one
first. -/
theorem loadUserLoop_table {ls : List TableLine} {tail : List UInt8}
    (htail : ∀ c ∈ tail, isToken lineTerms c = true)
    (husers : UsersKnown getpwnam ls) {s : UserLoad} {get : EnvFun}
    {jobs : List (Entry × EnvFun)}
    (hloaded : Loaded s.heap s.envp s.crontab get jobs)
    (hgranted : AllGranted s.heap)
    (huse : usefulText s.file.rest = usefulText (tableText ls ++ tail))
    {fuel : Nat} (hfuel : ls.length < fuel) :
    ∃ s' get' new, loadUserLoop getpwnam none tab fuel s = some (true, s')
      ∧ Loaded s'.heap s'.envp s'.crontab get' (new ++ jobs)
      ∧ AllGranted s'.heap
      ∧ List.Forall₂ (MadeOf getpwnam) (tableJobs get ls).reverse new := by
  induction ls generalizing s get jobs fuel with
  | nil =>
      obtain ⟨fuel, rfl⟩ := Nat.exists_eq_add_one.mpr hfuel
      have hend : afterLine s.file.rest = [] :=
        (envLine_congr huse).2.trans (afterLine_tail htail)
      obtain ⟨envstr, file, hload, -⟩ := loadEnv_end s.envstr hend
      refine ⟨{ s with envstr := envstr, file := file }, get, [], ?_,
        hloaded, hgranted, .nil⟩
      unfold loadUserLoop
      rw [hload]
  | cons line ls ih =>
      have hknown : UsersKnown getpwnam ls :=
        fun l hl => husers l (List.mem_cons_of_mem line hl)
      have htext : tableText (line :: ls) ++ tail
          = line.text ++ (tableText ls ++ tail) := by
        unfold tableText
        rw [List.flatMap_cons, List.append_assoc]
      rw [htext] at huse
      rw [List.length_cons] at hfuel
      cases line with
      | remark l =>
          have hless : ls.length < fuel := by omega
          rw [l.usefulText] at huse
          exact ih hknown hloaded hgranted huse hless
      | setting l =>
          obtain ⟨fuel, rfl⟩ := Nat.exists_eq_add_one.mpr
            (Nat.lt_of_le_of_lt (Nat.zero_le _) hfuel)
          rw [l.usefulText] at huse
          obtain ⟨hline, hafter⟩ := l.envLine huse
          have hmore : afterLine s.file.rest ≠ [] := by
            rw [hafter]
            exact List.cons_ne_nil _ _
          obtain ⟨envstr, file, hload, -, hleft, hstring⟩ :=
            loadEnv_setting s.envstr hmore (by
              rw [hline]
              exact l.text)
          have hset := l.settable
          have hstring' : CString.ofBuf envstr = varString l.name l.value :=
            cstring_ext (hstring.trans hset.bytes_eq.symm)
          obtain ⟨p, heap, hstored, hgranted'⟩ :=
            hgranted.envSet s.envp (varString l.name l.value)
          have hnext := hloaded.set hset hstored
          rw [hafter] at hleft
          obtain ⟨s', get', new, hloop, hrest⟩ := ih hknown
            (s := { s with
              heap := heap, envp := p, envstr := envstr, file := file })
            hnext hgranted' (by rw [hleft]; rfl)
            (show ls.length < fuel by omega)
          refine ⟨s', get', new, ?_, hrest⟩
          unfold loadUserLoop
          rw [hload]
          dsimp only
          rw [hstring', hstored]
          exact hloop
      | job l =>
          obtain ⟨fuel, rfl⟩ := Nat.exists_eq_add_one.mpr
            (Nat.lt_of_le_of_lt (Nat.zero_le _) hfuel)
          obtain ⟨pw, hpw⟩ := husers l List.mem_cons_self
          have huse' : usefulText s.file.rest
              = usefulText (l.text ++ (tableText ls ++ tail)) := huse
          obtain ⟨hline, hafter⟩ := envLine_congr huse'
          obtain ⟨hread, hmore⟩ := l.refused (tableText ls ++ tail)
          rw [← hline] at hread
          rw [← hafter] at hmore
          obtain ⟨envstr, file, hload, -, hfile, -⟩ :=
            loadEnv_refused s.envstr hmore hread
          obtain ⟨r, e, hcall, hentry, hmade, hrest⟩ :=
            loadEntry_jobLine l hpw hgranted (by rw [hfile]; exact huse') fuel
              (some (logError tab)) s.envp
          have hnext := hloaded.entry hcall
          obtain ⟨hframe, -⟩ := loadEntry_owns hloaded.built hcall
          have hgranted' : AllGranted r.heap := by
            intro k
            rw [hframe.granted]
            exact hgranted k
          rw [hentry] at hnext
          obtain ⟨s', get', new, hloop, hloaded', hg', hjobs⟩ := ih hknown
            (s := { s with
              heap := r.heap, envstr := envstr, file := r.file
              crontab := (some e).toList ++ s.crontab
              log := s.log ++ r.log })
            hnext hgranted' (by rw [hrest])
            (show ls.length < fuel by omega)
          refine ⟨s', get', new ++ [withEnv get e], ?_, ?_, hg', ?_⟩
          · unfold loadUserLoop
            rw [hload]
            dsimp only
            rw [hcall]
            dsimp only
            rw [hentry]
            exact hloop
          · rw [List.append_assoc]
            exact hloaded'
          · show List.Forall₂ _ ((l, get) :: tableJobs get ls).reverse _
            rw [List.reverse_cons]
            exact List.rel_append hjobs
              (.cons ⟨⟨pw, hpw, hmade⟩, rfl⟩ .nil)

-- ========================================================== load_user

/-- The variables a job has of its own. -/
def jobVariables : List (List UInt8) :=
  [bytes "SHELL", bytes "HOME", bytes "PATH", bytes "LOGNAME", bytes "USER"]

theorem assign_other {name value n : List UInt8} (get : EnvFun)
    (h : n ≠ name) : assign name value get n = get n := by
  unfold assign
  split
  · exact Function.update_of_ne h _ _
  · rfl

theorem assignDefault_other {name value n : List UInt8} (get : EnvFun)
    (h : n ≠ name) : assignDefault name value get n = get n := by
  unfold assignDefault
  split
  · exact assign_other get h
  · rfl

/-- Any other variable is the table's. -/
theorem jobEnv_other (pwd : Passwd) (get : EnvFun) {n : List UInt8}
    (h : n ∉ jobVariables) : jobEnv pwd get n = get n := by
  simp only [jobVariables, List.mem_cons, List.not_mem_nil, or_false,
    not_or] at h
  obtain ⟨hshell, hhome, hpath, hlogname, huser⟩ := h
  unfold jobEnv
  rw [assign_other _ huser, assign_other _ hlogname,
    assignDefault_other _ hpath, assignDefault_other _ hhome,
    assignDefault_other _ hshell]

/-- An entry of the crontab is this job's: it is due when the job is, and
runs its command as its user, in an environment made of the settings
above it. -/
structure IsJob (getpwnam : CString → Option Passwd) (h : CHeap)
    (j : JobLine × EnvFun) (e : Entry) : Prop where
  made : ∃ pw, getpwnam (CString.ofBuf j.1.user) = some pw ∧ Made j.1 pw e
  env : ∀ n, envGet h n e.envp = jobEnv e.pwd j.2 n

theorem isJob_of_made {h : CHeap} {js : List (JobLine × EnvFun)}
    {new : List (Entry × EnvFun)}
    (hmade : List.Forall₂ (MadeOf getpwnam) js new)
    (henvs : ∀ p ∈ new, HasEnv h [] p.1.envp p.2) :
    List.Forall₂ (IsJob getpwnam h) js (new.map Prod.fst) := by
  induction hmade with
  | nil => exact .nil
  | @cons j p js new hmade _ ih =>
      obtain ⟨hmade, henv⟩ := hmade
      have hreads := (henvs p List.mem_cons_self).reads
      rw [henv] at hreads
      exact .cons ⟨hmade, hreads⟩
        (ih fun q hq => henvs q (List.mem_cons_of_mem p hq))

/-- A table is loaded to its end, and the last `env_free` reaches no
job. -/
theorem loadUser_table {ls : List TableLine}
    (husers : UsersKnown getpwnam ls) {h : CHeap} (hgranted : AllGranted h)
    {tail : List UInt8} (htail : ∀ c ∈ tail, isToken lineTerms c = true)
    {file : Stream} (hfile : file.rest = tableText ls ++ tail) {fuel : Nat}
    (hfuel : ls.length < fuel) (fname tabname : CString)
    (envstr : List UInt8) :
    ∃ r u new, loadUser fuel getpwnam file none fname tabname tab envstr h
        = some r
      ∧ r.user = some u ∧ u.crontab = new.map Prod.fst
      ∧ AllGranted r.heap
      ∧ List.Forall₂ (MadeOf getpwnam)
        (tableJobs (fun _ => none) ls).reverse new
      ∧ ∀ p ∈ new, HasEnv r.heap [] p.1.envp p.2 := by
  obtain ⟨s0, hstart, hg1, hreturns⟩ :=
    @loadUser_start getpwnam none tab h hgranted fuel file fname tabname
      envstr
  obtain ⟨s', get', new, hloop, hloaded, hg', hjobs⟩ :=
    loadUserLoop_table tab htail husers hstart.loaded hg1
      (by rw [hstart.file, hfile]) hfuel
  rw [List.append_nil] at hloaded
  have hfreed : AllGranted (envFree s'.heap s'.envp) := by
    obtain ⟨addrs, l, hnames, -⟩ := hloaded.vectors
    intro n
    rw [(envFree_frame hnames.rep).granted]
    exact hg' n
  exact ⟨_, _, new, hreturns s' hloop, rfl, hloaded.crontab, hfreed, hjobs,
    hloaded.done⟩

/-- **A crontab is loaded as what it says.** A system crontab of
well-formed lines, whose users are known, is loaded to its end if there
is memory. The entries are its jobs, the last one first, each due by the
rule of crontab(5), with the user, the command and the settings that the
table has for it. What stands behind the last newline is ignored. -/
theorem table_loaded {ls : List TableLine}
    (husers : UsersKnown getpwnam ls) {h : CHeap} (hgranted : AllGranted h)
    {tail : List UInt8} (htail : ∀ c ∈ tail, isToken lineTerms c = true)
    {file : Stream} (hfile : file.rest = tableText ls ++ tail) {fuel : Nat}
    (hfuel : ls.length < fuel) (fname tabname : CString)
    (envstr : List UInt8) :
    ∃ r u, loadUser fuel getpwnam file none fname tabname tab envstr h
        = some r
      ∧ r.user = some u
      ∧ List.Forall₂ (IsJob getpwnam r.heap)
        (tableJobs (fun _ => none) ls).reverse u.crontab := by
  obtain ⟨r, u, new, hload, hu, hcrontab, -, hmade, henvs⟩ :=
    loadUser_table tab husers hgranted htail hfile hfuel fname tabname envstr
  refine ⟨r, u, hload, hu, ?_⟩
  rw [hcrontab]
  exact isJob_of_made hmade henvs

end

/-- The setting `MAILTO=root`, without a blank. -/
def mailtoLine : SettingLine where
  lead := []
  line := bytes "MAILTO=root"
  name := bytes "MAILTO"
  value := bytes "root"
  lead_blank := nofun
  text := readSetting_iff.mp (by decide +kernel)
  first := by
    intro c hc
    injection hc with hc
    rw [← hc]
    decide
  plain := by decide +kernel
  short := by decide +kernel

/-- A comment, which is a remark. -/
def commentLine : Remark where
  line := bytes " # every quarter"
  plain := by decide +kernel
  ignored := by decide +kernel

/-- A comment, a setting, a job, and a line that is not ended. -/
theorem quarterTable_loaded :
    ∃ r u e, loadUser 4 rootOnly
        (Stream.ofBytes (tableText [.remark commentLine,
          .setting mailtoLine, .job quarterLine] ++ bytes "A=1"))
        none (CString.ofString "*system*") (CString.ofString "/etc/crontab")
        "/etc/crontab" [] freshHeap = some r
      ∧ r.user = some u ∧ u.crontab = [e]
      ∧ envGet r.heap (bytes "MAILTO") e.envp = some (bytes "root") := by
  have husers : UsersKnown rootOnly [.remark commentLine,
      .setting mailtoLine, .job quarterLine] := by
    intro l hl
    simp only [List.mem_cons, reduceCtorEq, TableLine.job.injEq,
      List.not_mem_nil, or_false, false_or] at hl
    rw [hl]
    exact ⟨rootPasswd, by decide⟩
  have hnewline : ∀ c ∈ bytes "A=1", isToken lineTerms c = true := by
    decide +kernel
  have hfile : (Stream.ofBytes (tableText [.remark commentLine,
      .setting mailtoLine, .job quarterLine] ++ bytes "A=1")).rest = _ := rfl
  have hgranted : AllGranted freshHeap := fun _ => rfl
  obtain ⟨r, u, hload, hu, hjobs⟩ :=
    table_loaded "/etc/crontab" husers hgranted hnewline hfile
      (show 3 < 4 by decide) (CString.ofString "*system*")
      (CString.ofString "/etc/crontab") []
  generalize hcrontab : u.crontab = crontab at hjobs
  cases hjobs with
  | @cons _ e _ es hjob hnil =>
      cases hnil with
      | nil =>
          refine ⟨r, u, e, hload, hu, hcrontab, ?_⟩
          rw [hjob.env, jobEnv_other _ _ (by decide)]
          rfl

end Crond

end Tinjac
