/-
What users install, crond runs.

The check of `replace_cmd` and the loop of `load_user` read a table line
by line, the one with an environment that stays empty, the other with
one that grows. With memory to spare both read it as it is read
(`Reads`): the check up to the first error (`Check.loop_reads`), and
crond to the end (`UserTrace.reads`). So a table that is free of errors
for the one is so for the other, and as every table in the spool was
checked, crond loses no line of it.

The line that an error is said to be in follows from the line counter
and the newlines to come, whose sum does not change (`lineSum`).
-/
import Tinjac.Crond.Proofs.Reading
import Tinjac.Crond.Model.Crontab

namespace Tinjac.Crond

open BlockHeap CHeap

-- ============================================================= the copy

theorem copyChars_eq (file : Stream) : copyChars file = file.rest := by
  fun_induction copyChars file with
  | case1 file hnone =>
      rw [getChar_fst, List.head?_eq_none_iff] at hnone
      exact hnone.symm
  | case2 file ch hsome ih =>
      rw [getChar_fst] at hsome
      obtain ⟨l, hl⟩ := List.head?_eq_some_iff.mp hsome
      rw [ih, getChar_rest, hl]
      rfl

-- ============================================================ the check

section

variable {getpwnam : CString → Option Passwd} {pw : Passwd}

/-- The check stands in front of `t`: no read has failed, the line counter
and the newlines to come make up those of the text, memory is granted, and
what has been loaded so far is a crontab. -/
structure Check.At (text : List UInt8) (envp : Nat) (t : List UInt8)
    (s : Check) : Prop where
  rest : s.file.rest = t
  fails : s.file.fails = false
  sum : lineSum s.file = 1 + text.count newline
  granted : AllGranted s.heap
  loaded : ∃ crontab get jobs, Loaded s.heap envp crontab get jobs

variable {text t : List UInt8} {envp fuel : Nat} {s : Check}

/-- At the end of the file. -/
theorem Check.body_last (hat : s.At text envp t) (hend : afterLine t = []) :
    ∃ s', s.body getpwnam pw envp fuel = some s' ∧ s'.eof = true
      ∧ (envLine t = [] → s'.errors = s.errors)
      ∧ (envLine t ≠ [] →
        s'.errors = s.errors ++ [(lineNo text t, "premature EOF")]) := by
  obtain ⟨f, hleft, -, hload⟩ := loadEnv_eq s.envstr s.file
  rw [hat.rest] at hleft hload
  rw [if_pos hend] at hload
  obtain ⟨hsum, -⟩ := loadEnv_counted hload
  have hline : f.lineNumber = 1 + text.count newline := by
    rw [hat.sum] at hsum
    unfold lineSum at hsum
    rw [hleft, hend] at hsum
    simpa using hsum
  have hhead : (lineArray s.envstr t).head? = some nul ↔ envLine t = [] := by
    unfold lineArray
    cases hl : envLine t with
    | nil => simp
    | cons c l =>
        have hne : c ≠ nul := by
          rintro rfl
          exact envLine_noNul t (by rw [hl]; exact List.mem_cons_self)
        simp [hne]
  have hnumber : lineNo text t = 1 + text.count newline := by
    have hnone : newline ∉ usefulText t := by
      intro hmem
      unfold afterLine at hend
      rw [List.dropWhile_eq_nil_iff] at hend
      exact absurd (hend newline hmem) (by decide)
    unfold lineNo
    rw [List.count_eq_zero.mpr hnone]
    simp
  unfold Check.body
  rw [hload]
  dsimp only
  by_cases hempty : envLine t = []
  · rw [if_neg (by rw [not_not]; exact hhead.mpr hempty)]
    exact ⟨_, rfl, rfl, fun _ => rfl, fun h => absurd hempty h⟩
  · rw [if_pos (by rw [Ne, hhead]; exact hempty)]
    refine ⟨_, rfl, rfl, fun h => absurd h hempty, fun _ => ?_⟩
    unfold Check.error Check.countLine
    dsimp only
    rw [hline, hnumber]
    congr 3
    omega

/-- A round in front of a line: the check takes the line, says what there
is to complain of in it, and stands in front of what follows. -/
theorem Check.body_next (hat : s.At text envp t)
    (hclosed : ¬ EndsOpen (envLine t)) {k : LineKind} {next : List UInt8}
    (hnext : NextLine getpwnam pw t k next) (hfuel : t.length + 2 ≤ fuel) :
    ∃ s', s.body getpwnam pw envp fuel = some s'
      ∧ s'.At text envp next ∧ s'.eof = s.eof
      ∧ s'.errors = s.errors
        ++ (k.complaint.map fun msg => (s'.file.lineNumber - 1, msg)).toList
    := by
  obtain ⟨crontab, get, jobs, hloaded⟩ := hat.loaded
  cases hnext with
  | setting more htext =>
      rw [← hat.rest] at more htext
      obtain ⟨envstr', f, hload, hfails, hrest, -⟩ :=
        loadEnv_setting s.envstr more htext
      obtain ⟨hsum, -⟩ := loadEnv_counted hload
      unfold Check.body
      rw [hload]
      refine ⟨_, rfl, ⟨?_, hfails.trans hat.fails, hsum.trans hat.sum,
        hat.granted, crontab, get, jobs, hloaded⟩, rfl, ?_⟩
      · rw [← hat.rest]
        exact hrest
      · exact (List.append_nil _).symm
  | entry more refused kind =>
      rcases @next_line getpwnam pw t hclosed more with
        ⟨name, value, htext⟩ | ⟨hread, -, -⟩
      · exact absurd htext (refused name value)
      · rw [← hat.rest] at more hread
        obtain ⟨envstr', f, hload, hfails, hrest, hnumber⟩ :=
          loadEnv_refused s.envstr more hread
        obtain ⟨hsum, -⟩ := loadEnv_counted hload
        have hf : f.rest = t := hrest.trans hat.rest
        have hffails := hfails.trans hat.fails
        obtain ⟨r, hcall⟩ := @loadEntry_returns getpwnam s.heap envp
          (some pw) f hffails fuel (by rw [hf]; exact hfuel) none
        obtain ⟨hleft, hsum', hfails', hkind⟩ := loadEntry_reads hffails hcall
        have halone : Alike _ (readAlone getpwnam pw t) :=
          readAlone_alike hat.granted envp "" t
        rw [hf] at hleft hkind
        rw [halone.left] at hleft
        rw [halone.kind, kind] at hkind
        have hsay := complaint_eq hkind
        obtain ⟨hframe, -⟩ := loadEntry_owns hloaded.built hcall
        have hgranted : AllGranted r.heap := by
          intro n
          rw [hframe.granted]
          exact hat.granted n
        have hat' : ∀ s' : Check, s'.heap = r.heap → s'.file = r.file →
            s'.At text envp (readAlone getpwnam pw t).left := by
          intro s' hheap hfile
          refine ⟨by rw [hfile]; exact hleft, by rw [hfile]; exact hfails',
            ?_, by rw [hheap]; exact hgranted, ?_⟩
          · rw [hfile]
            exact (hsum'.trans hsum).trans hat.sum
          · rw [hheap]
            exact ⟨_, _, _, hloaded.entry hcall⟩
        unfold Check.body
        rw [hload]
        dsimp only
        rw [hcall]
        dsimp only
        rw [hsay]
        cases k.complaint with
        | none =>
            exact ⟨_, rfl, hat' _ rfl rfl, rfl, (List.append_nil _).symm⟩
        | some msg => exact ⟨_, rfl, hat' _ rfl rfl, rfl, rfl⟩

theorem count_dropLine (t : List UInt8) :
    (dropLine t).count newline = t.count newline - 1 := by
  have hsplit : t.takeWhile (· != newline) ++ lineEnd t = t :=
    List.takeWhile_append_dropWhile
  have hnone : newline ∉ t.takeWhile (· != newline) := fun hmem =>
    absurd (List.mem_takeWhile_imp hmem) (by decide)
  have hcount : t.count newline = (lineEnd t).count newline := by
    conv_lhs => rw [← hsplit]
    rw [List.count_append, List.count_eq_zero.mpr hnone, Nat.zero_add]
  rcases lineEnd_cases t with hnil | hcons
  · rw [hcount, dropLine_eq, hnil]
    rfl
  · rw [hcount, hcons, List.count_cons_self]
    omega

/-- The line that an error is said to be in. -/
theorem FirstError.here {k : LineKind} {next : List UInt8}
    (hnext : NextLine getpwnam pw t k next)
    {s' : Check} (hat' : s'.At text envp next) {msg : String}
    (hsay : k.complaint = some msg) :
    FirstError getpwnam pw text t (s'.file.lineNumber - 1) msg := by
  cases k with
  | setting => cases hsay
  | job => cases hsay
  | bad ecode =>
      cases hsay
      have hsum := hat'.sum
      unfold lineSum at hsum
      rw [hat'.rest] at hsum
      have hleft : (¬ Swallows (some pw) (usefulText t)
          ∧ next = dropLine (usefulText t))
          ∨ (Swallows (some pw) (usefulText t)
            ∧ next = dropLine (dropLine (usefulText t))) := by
        cases hnext with
        | entry _ _ kind => exact bad_left kind
      have hdrop := count_dropLine (usefulText t)
      have hdrop2 := count_dropLine (dropLine (usefulText t))
      refine .bad hnext ?_ ?_ ?_
      · intro hmem hno
        have hpos := List.count_pos_iff.mpr hmem
        unfold lineNo
        rcases hleft with ⟨-, rfl⟩ | ⟨hswallow, rfl⟩
        · omega
        · have hnone : newline ∉ dropLine (usefulText t) :=
            fun h => hno ⟨hswallow, h⟩
          have hzero := List.count_eq_zero.mpr hnone
          omega
      · rintro ⟨hswallow, hmem⟩
        have hpos := List.count_pos_iff.mpr hmem
        unfold lineNo
        rcases hleft with ⟨hno, -⟩ | ⟨-, rfl⟩
        · exact absurd hswallow hno
        · omega
      · intro hnone
        have hzero := List.count_eq_zero.mpr hnone
        unfold lineNo
        rcases hleft with ⟨-, rfl⟩ | ⟨-, rfl⟩
        · omega
        · omega

/-- The check ends at the first error, or at the end. -/
theorem Check.loop_reads (hat : s.At text envp t)
    (hclosed : Closed getpwnam pw t) (herrors : s.errors = [])
    (heof : s.eof = false) (hfuel : t.length + 3 ≤ fuel) :
    ∃ s', loop getpwnam pw envp fuel s = some s'
      ∧ ((Flawless getpwnam pw t ∧ s'.errors = [])
        ∨ ∃ n msg, FirstError getpwnam pw text t n msg
          ∧ s'.errors = [(n, msg)]) := by
  have hstop : ∀ {fuel} {s : Check}, 1 ≤ fuel →
      ¬ (s.errors = [] ∧ s.eof = false) →
      loop getpwnam pw envp fuel s = some s := by
    intro fuel s hfuel hno
    obtain ⟨fuel, rfl⟩ := Nat.exists_eq_add_one.mpr hfuel
    unfold loop
    rw [if_neg hno]
  induction fuel generalizing t s with
  | zero => omega
  | succ fuel ih =>
      unfold loop
      rw [if_pos ⟨herrors, heof⟩]
      by_cases hend : afterLine t = []
      · obtain ⟨s', hbody, heof', hempty, hdata⟩ :=
          @body_last getpwnam pw text t envp fuel s hat hend
        rw [hbody]
        refine ⟨s', hstop (by omega) fun h => ?_, ?_⟩
        · rw [heof'] at h
          exact absurd h.2 (by decide)
        · rw [herrors] at hempty hdata
          by_cases hl : envLine t = []
          · exact Or.inl ⟨.last hend hl, hempty hl⟩
          · exact Or.inr ⟨_, _, .last hend hl, hdata hl⟩
      · have hopen := hclosed [] t .none
        obtain ⟨k, next, hnext⟩ := @exists_nextLine getpwnam pw t hopen hend
        obtain ⟨s', hbody, hat', heof', herr⟩ :=
          body_next hat hopen hnext (show t.length + 2 ≤ fuel by omega)
        rw [hbody]
        rw [herrors, List.nil_append] at herr
        dsimp only
        cases hsay : k.complaint with
        | none =>
            rw [hsay] at herr
            have hless := hnext.length_lt
            obtain ⟨s'', hloop, hout⟩ := ih hat'
              (fun ks u h => hclosed (k :: ks) u (.line hnext h)) herr
              (heof'.trans heof) (by omega)
            refine ⟨s'', hloop, ?_⟩
            rcases hout with ⟨hgood, hnone⟩ | ⟨n, msg, hfirst, herr''⟩
            · exact Or.inl ⟨.line hnext hsay hgood, hnone⟩
            · exact Or.inr ⟨n, msg, .later hnext hsay hfirst, herr''⟩
        | some msg =>
            rw [hsay] at herr
            refine ⟨s', hstop (by omega) fun h => ?_, Or.inr ⟨_, msg,
              FirstError.here hnext hat' hsay, herr⟩⟩
            rw [h.1] at herr
            cases herr

/-- A text that has an error is not flawless. -/
theorem FirstError.not_flawless {n : Int} {msg : String}
    (h : FirstError getpwnam pw text t n msg) :
    ¬ Flawless getpwnam pw t := by
  induction h with
  | bad here _ _ _ =>
      intro hgood
      cases hgood with
      | last last _ => exact here.more last
      | line here' good _ =>
          rw [← (here.unique here').1] at good
          cases good
  | last last data =>
      intro hgood
      cases hgood with
      | last _ empty => exact data empty
      | line here _ _ => exact here.more last
  | later here _ _ ih =>
      intro hgood
      cases hgood with
      | last last _ => exact here.more last
      | line here' _ rest =>
          rw [← (here.unique here').2] at rest
          exact ih rest

/-- **What `crontab` checks.** With memory to spare, and unless a line
ends where a quote opens, `replace_cmd` ends. A text that is flawless is
installed as it is; of any other the first error is printed, with the
number of its line, but for the cases of `FirstError`, and nothing is
installed. -/
theorem crontab_checked (hclosed : Closed getpwnam pw text)
    {newCrontab : Stream} (hnew : newCrontab.rest = text) {h : CHeap}
    (hg : AllGranted h) (hfuel : text.length + 3 ≤ fuel)
    (envstr : List UInt8) (table : Option (List UInt8)) :
    ∃ r, replaceCmd fuel getpwnam pw newCrontab envstr h table = some r
      ∧ ((Flawless getpwnam pw text
          ∧ r = { status := 0, table := some text, errors := [] })
        ∨ (¬ Flawless getpwnam pw text
          ∧ ∃ n msg, FirstError getpwnam pw text text n msg
            ∧ r = { status := -1, table := table
                    errors := [(n, msg)] })) := by
  obtain ⟨envp, h1, hinit, hg1⟩ := envInit_granted hg
  have hcopy : copyChars newCrontab = text :=
    (copyChars_eq newCrontab).trans hnew
  have hat : Check.At text envp text
      { heap := h1, envstr := envstr
        file := { Stream.ofBytes text with lineNumber := 1 - nheaderLines }
        errors := [], eof := false } :=
    ⟨rfl, rfl, rfl, hg1, _, _, _, loaded_init hinit⟩
  obtain ⟨s', hloop, hout⟩ := Check.loop_reads hat hclosed rfl rfl hfuel
  unfold replaceCmd
  rw [hinit]
  dsimp only
  rw [hcopy, hloop]
  dsimp only
  rcases hout with ⟨hgood, hnone⟩ | ⟨n, msg, hfirst, herrors⟩
  · rw [if_neg (by rw [not_not]; exact hnone)]
    exact ⟨_, rfl, Or.inl ⟨hgood, rfl⟩⟩
  · rw [if_pos (by rw [herrors]; exact List.cons_ne_nil _ _), herrors]
    exact ⟨_, rfl, Or.inr ⟨hfirst.not_flawless, n, msg, hfirst, rfl⟩⟩

end

/-- A job, and a nickname that there is not. -/
def flawedTable : List UInt8 := bytes "@daily true\n@x\n"

theorem flawedTable_closed : Closed rootOnly rootPasswd flawedTable := by
  have hread : readSetting (envLine flawedTable) = .refused := by
    decide +kernel
  have hread' : readSetting (envLine (bytes "@x\n")) = .refused := by
    decide +kernel
  have hleft : (readAlone rootOnly rootPasswd flawedTable).left
      = bytes "@x\n" := by
    decide +kernel
  have hleft' : (readAlone rootOnly rootPasswd (bytes "@x\n")).left = [] := by
    decide +kernel
  have hjob : NextLine rootOnly rootPasswd flawedTable .job _ :=
    .of_refused (by decide +kernel) hread (by decide +kernel)
  have hbad : NextLine rootOnly rootPasswd (bytes "@x\n") (.bad .timespec)
      _ :=
    .of_refused (by decide +kernel) hread' (by decide +kernel)
  rw [hleft] at hjob
  rw [hleft'] at hbad
  refine .above hjob (not_endsOpen_of_refused hread)
    (.above hbad (not_endsOpen_of_refused hread')
      (.last (by decide +kernel) (not_endsOpen_of_refused ?_)))
  decide +kernel

/-- A job and a line with an error: the error is said to be in the second
line, and nothing is installed. -/
theorem flawedTable_refused :
    FirstError rootOnly rootPasswd flawedTable flawedTable 2
        "bad time specifier"
      ∧ replaceCmd 19 rootOnly rootPasswd (Stream.ofBytes flawedTable) []
        freshHeap none
        = some { status := -1, table := none
                 errors := [(2, "bad time specifier")] } := by
  have herrors : (replaceCmd 19 rootOnly rootPasswd
      (Stream.ofBytes flawedTable) [] freshHeap none).map (·.errors)
      = some [(2, "bad time specifier")] := by
    decide +kernel
  obtain ⟨r, hrun, ⟨-, hr⟩ | ⟨-, n, msg, hfirst, hr⟩⟩ :=
    @crontab_checked rootOnly rootPasswd flawedTable 19 flawedTable_closed
      (Stream.ofBytes flawedTable) rfl freshHeap (fun _ => rfl) (by decide)
      [] none
  · rw [hrun, hr] at herrors
    cases herrors
  · rw [hrun, hr] at herrors
    cases herrors
    exact ⟨hfirst, by rw [hrun, hr]⟩

-- ================================================================ crond

/-- What crond takes a line for, which is what the check of a new crontab
took it for. -/
inductive ItemIs : TableItem → LineKind → Prop
  | set (name value : List UInt8) : ItemIs (.set name value) .setting
  | job (e : Entry) : ItemIs (.job (some e)) .job
  | bad (ecode : Ecode) : ItemIs (.job none) (.bad ecode)

theorem kind_of_item {items : List TableItem} {ks : List LineKind}
    (h : List.Forall₂ ItemIs items ks) {item : TableItem}
    (hmem : item ∈ items) : ∃ k ∈ ks, ItemIs item k := by
  induction h with
  | nil => cases hmem
  | @cons item' k items ks his _ ih =>
      rcases List.mem_cons.mp hmem with rfl | hmem
      · exact ⟨k, List.mem_cons_self, his⟩
      · obtain ⟨k', hk', his'⟩ := ih hmem
        exact ⟨k', List.mem_cons_of_mem k hk', his'⟩

section

variable {getpwnam : CString → Option Passwd} {pw : Passwd}

theorem Reads.snoc {t next left : List UInt8} {k : LineKind}
    {ks : List LineKind} (h : Reads getpwnam pw t ks next)
    (hk : NextLine getpwnam pw next k left) :
    Reads getpwnam pw t (ks ++ [k]) left := by
  induction h with
  | none => exact .line hk .none
  | line first _ ih => exact .line first (ih hk)

/-- There is no error in what is read of a flawless text. -/
theorem Flawless.reads {t left : List UInt8} {ks : List LineKind}
    (hgood : Flawless getpwnam pw t) (h : Reads getpwnam pw t ks left) :
    (∀ k ∈ ks, k.complaint = none) ∧ Flawless getpwnam pw left := by
  induction h with
  | none => exact ⟨fun k hk => (List.not_mem_nil hk).elim, hgood⟩
  | line first _ ih =>
      cases hgood with
      | last last _ => exact absurd last first.more
      | line here good rest =>
          obtain ⟨rfl, rfl⟩ := first.unique here
          obtain ⟨hks, hleft⟩ := ih rest
          refine ⟨fun k hk => ?_, hleft⟩
          rcases List.mem_cons.mp hk with rfl | hk
          · exact good
          · exact hks k hk

variable {tab : String} {envstr envstr' : List UInt8} {file f : Stream}

/-- What is taken for a setting is one. -/
theorem nextLine_of_yes (hclosed : ¬ EndsOpen (envLine file.rest))
    (h : loadEnv envstr file = some (.yes, envstr', f)) :
    NextLine getpwnam pw file.rest .setting f.rest := by
  by_cases hend : afterLine file.rest = []
  · obtain ⟨_, _, hload, -⟩ := loadEnv_end envstr hend
    rw [hload] at h
    cases h
  · rcases @next_line getpwnam pw file.rest hclosed hend with
      ⟨name, value, htext⟩ | ⟨hread, -, -⟩
    · obtain ⟨_, _, hload, -, hrest, -⟩ :=
        loadEnv_setting envstr hend htext
      rw [hload] at h
      cases h
      rw [hrest]
      exact .setting hend htext
    · obtain ⟨_, _, hload, -⟩ := loadEnv_refused envstr hend hread
      rw [hload] at h
      cases h

/-- What is not, is read again. -/
theorem nextLine_of_no (hclosed : ¬ EndsOpen (envLine file.rest))
    (h : loadEnv envstr file = some (.no, envstr', f)) :
    f.rest = file.rest ∧ ∃ k,
      kindOf (readAlone getpwnam pw file.rest).verdict = some k
        ∧ NextLine getpwnam pw file.rest k
          (readAlone getpwnam pw file.rest).left := by
  by_cases hend : afterLine file.rest = []
  · obtain ⟨_, _, hload, -⟩ := loadEnv_end envstr hend
    rw [hload] at h
    cases h
  · rcases @next_line getpwnam pw file.rest hclosed hend with
      ⟨name, value, htext⟩ | ⟨hread, hno, k, hk⟩
    · obtain ⟨_, _, hload, -⟩ := loadEnv_setting envstr hend htext
      rw [hload] at h
      cases h
    · obtain ⟨_, _, hload, -, hrest, -⟩ :=
        loadEnv_refused envstr hend hread
      rw [hload] at h
      cases h
      exact ⟨hrest, k, hk, .entry hend hno hk⟩

theorem afterLine_of_err (h : loadEnv envstr file = some (.err, envstr', f)) :
    afterLine file.rest = [] ∧ envstr' = lineArray envstr file.rest := by
  obtain ⟨f', -, -, hload⟩ := loadEnv_eq envstr file
  rw [h] at hload
  split at hload
  · next hend =>
    cases hload
    exact ⟨hend, rfl⟩
  · obtain ⟨s, -, hout⟩ := Option.map_eq_some_iff.mp hload.symm
    unfold envOutcome at hout
    split at hout
    · cases hout
    · split at hout
      · cases hout
      · cases hout

/-- Crond takes the lines of a table for what they are. -/
theorem UserTrace.reads {s0 s : UserLoad} {items : List TableItem}
    (htrace : UserTrace getpwnam (some pw) tab s0 items s)
    (hfails : s0.file.fails = false) (hgranted : AllGranted s0.heap)
    (hloaded : Loaded s0.heap s0.envp s0.crontab (fun _ => none) [])
    (hclosed : Closed getpwnam pw s0.file.rest) :
    ∃ ks, Reads getpwnam pw s0.file.rest ks s.file.rest
      ∧ List.Forall₂ ItemIs items ks ∧ s.file.fails = false
      ∧ AllGranted s.heap := by
  induction htrace with
  | start => exact ⟨[], .none, .nil, hfails, hgranted⟩
  | set prior line plain string stored ih =>
      obtain ⟨ks, hreads, hitems, hf, hg⟩ := ih
      obtain ⟨-, hf'⟩ := loadEnv_counted line
      have hnext : NextLine getpwnam pw _ _ _ :=
        nextLine_of_yes (hclosed ks _ hreads) line
      obtain ⟨p, h', hset, hg'⟩ := hg.envSet _ _
      rw [stored] at hset
      cases hset
      exact ⟨ks ++ [.setting], hreads.snoc hnext,
        List.rel_append hitems (.cons (.set _ _) .nil), hf'.trans hf, hg'⟩
  | @job items s envstr file fuel r prior line call ih =>
      obtain ⟨ks, hreads, hitems, hf, hg⟩ := ih
      obtain ⟨-, hf'⟩ := loadEnv_counted line
      obtain ⟨hrest, k, hk, hnext⟩ :=
        @nextLine_of_no getpwnam pw _ _ _ _ (hclosed ks _ hreads) line
      obtain ⟨hleft, -, hfails', hkind⟩ :=
        loadEntry_reads (hf'.trans hf) call
      have hjob := loadEntry_job call
      obtain ⟨hframe, -⟩ := loadEntry_owns (prior.loaded hloaded).built call
      rw [hrest] at hleft hkind
      have halone : Alike _ (readAlone getpwnam pw s.file.rest) :=
        readAlone_alike hg s.envp "" s.file.rest
      rw [halone.left] at hleft
      rw [halone.kind, hk] at hkind
      rw [← hleft] at hnext
      refine ⟨ks ++ [k], hreads.snoc hnext,
        List.rel_append hitems (.cons ?_ .nil), hfails', ?_⟩
      · rw [hkind] at hjob
        cases k with
        | setting => exact absurd hk (kindOf_ne_setting _)
        | job =>
            obtain ⟨e, he⟩ := hjob.mp rfl
            rw [he]
            exact .job e
        | bad ecode =>
            cases he : r.entry with
            | none => exact .bad ecode
            | some e =>
                have := hjob.mpr ⟨e, he⟩
                cases this
      · intro n
        rw [hframe.granted]
        exact hg n

/-- The loop of `load_user` comes to the end of a table. -/
theorem loadUserLoop_ends {s : UserLoad} {get : EnvFun}
    {jobs : List (Entry × EnvFun)} {fuel : Nat}
    (hfails : s.file.fails = false) (hgranted : AllGranted s.heap)
    (hloaded : Loaded s.heap s.envp s.crontab get jobs)
    (hclosed : Closed getpwnam pw s.file.rest)
    (hfuel : s.file.rest.length + 3 ≤ fuel) :
    ∃ s', loadUserLoop getpwnam (some pw) tab fuel s = some (true, s') := by
  induction fuel generalizing s get jobs with
  | zero => omega
  | succ fuel ih =>
      unfold loadUserLoop
      by_cases hend : afterLine s.file.rest = []
      · obtain ⟨envstr, f, hload, -⟩ := loadEnv_end s.envstr hend
        rw [hload]
        exact ⟨_, rfl⟩
      · have hopen := hclosed [] s.file.rest .none
        rcases @next_line getpwnam pw s.file.rest hopen hend with
          ⟨name, value, htext⟩ | ⟨hread, hno, k, hk⟩
        · obtain ⟨envstr', f, hload, hf, hrest, -⟩ :=
            loadEnv_setting s.envstr hend htext
          have hnext : NextLine getpwnam pw _ _ _ :=
            nextLine_of_yes hopen hload
          obtain ⟨name, value, hplain, hstring⟩ := loadEnv_yes hload
          obtain ⟨p, heap, hset, hg'⟩ :=
            hgranted.envSet s.envp (varString name value)
          have hless := hnext.length_lt
          rw [hload]
          dsimp only
          rw [hstring, hset]
          exact ih (s := { s with heap := heap, envp := p, envstr := envstr'
                                  file := f })
            (hf.trans hfails) hg' (hloaded.set hplain hset)
            (fun ks u h => hclosed _ u (.line hnext h))
            (show f.rest.length + 3 ≤ fuel by omega)
        · obtain ⟨envstr', f, hload, hf, hrest, -⟩ :=
            loadEnv_refused s.envstr hend hread
          have hffails := hf.trans hfails
          obtain ⟨r, hcall⟩ := @loadEntry_returns getpwnam s.heap s.envp
            (some pw) f hffails fuel (by rw [hrest]; omega)
            (some (logError tab))
          obtain ⟨hleft, -, hfails', -⟩ := loadEntry_reads hffails hcall
          obtain ⟨hframe, -⟩ := loadEntry_owns hloaded.built hcall
          have halone : Alike _ (readAlone getpwnam pw s.file.rest) :=
            readAlone_alike hgranted s.envp "" s.file.rest
          rw [hrest, halone.left] at hleft
          have hnext : NextLine getpwnam pw s.file.rest k r.file.rest := by
            rw [hleft]
            exact .entry hend hno hk
          have hless := hnext.length_lt
          rw [hload]
          dsimp only
          rw [hcall]
          exact ih (s := { s with
              heap := r.heap, envstr := envstr', file := r.file
              crontab := r.entry.toList ++ s.crontab
              log := s.log ++ r.log })
            hfails' (fun n => by rw [hframe.granted]; exact hgranted n)
            (hloaded.entry hcall)
            (fun ks u h => hclosed _ u (.line hnext h))
            (show r.file.rest.length + 3 ≤ fuel by omega)

end

-- ============================================================ the spool

section

variable {getpwnam : CString → Option Passwd} {pw : Passwd}

/-- A line that passes the check has no error, whatever `malloc` does. -/
theorem readAlone_of_passed {h : CHeap} {envp fuel : Nat} {file : Stream}
    (hfails : file.fails = false) {errorFunc : Option (String → String)}
    {r : LoadResult}
    (hcall : loadEntry fuel getpwnam file errorFunc (some pw) h envp = some r)
    (hsay : complaint (loadBody getpwnam file (some pw) h envp) = none)
    {k : LineKind}
    (hk : kindOf (readAlone getpwnam pw file.rest).verdict = some k) :
    k.complaint = none
      ∧ r.file.rest = (readAlone getpwnam pw file.rest).left := by
  obtain ⟨hleft, -, -, hkind⟩ := loadEntry_reads hfails hcall
  cases hbody : kindOf (loadBody getpwnam file (some pw) h envp).verdict with
  | none =>
      -- then no line is left, with any heap
      have hnull : (readUseful getpwnam (some pw) h envp ""
          (usefulText file.rest)).verdict = .null := by
        rw [hbody] at hkind
        cases hv : (readUseful getpwnam (some pw) h envp ""
            (usefulText file.rest)).verdict with
        | null => rfl
        | entry e =>
            rw [hv] at hkind
            cases hkind
        | eof ecode ev =>
            rw [hv] at hkind
            cases hkind
      have halone : (readAlone getpwnam pw file.rest).verdict = .null :=
        readUseful_null_iff.mpr (readUseful_null_iff.mp hnull)
      rw [halone] at hk
      cases hk
  | some k' =>
      rw [complaint_eq hbody] at hsay
      cases k' with
      | setting => exact absurd hbody (kindOf_ne_setting _)
      | bad ecode => cases hsay
      | job =>
          have halike : Alike _ (readAlone getpwnam pw file.rest) :=
            readUseful_job_alike (fun _ => rfl) (hkind.symm.trans hbody) 0 ""
          rw [← halike.kind, ← hkind, hbody] at hk
          cases hk
          exact ⟨rfl, hleft.trans halike.left⟩

theorem Check.error_ne_nil (s : Check) (msg : String) :
    (s.error msg).errors ≠ [] := by
  unfold Check.error
  exact List.append_ne_nil_of_right_ne_nil _ (List.cons_ne_nil _ _)

/-- What is next, or nothing, has passed. -/
theorem Check.body_passed {envp fuel : Nat} {s s' : Check}
    (hfails : s.file.fails = false)
    (hopen : ¬ EndsOpen (envLine s.file.rest))
    (hbody : s.body getpwnam pw envp fuel = some s')
    (hpass : s'.errors = []) :
    Flawless getpwnam pw s.file.rest
      ∨ ∃ k, k.complaint = none
        ∧ NextLine getpwnam pw s.file.rest k s'.file.rest
        ∧ s'.file.fails = false ∧ s'.eof = s.eof := by
  unfold body at hbody
  split at hbody
  · cases hbody
  · next envstr file hload =>
    obtain ⟨hend, harray⟩ := afterLine_of_err hload
    refine Or.inl (.last hend ?_)
    injection hbody with hbody
    by_cases hdata : envstr.head? ≠ some nul
    · rw [if_pos hdata] at hbody
      rw [← hbody] at hpass
      exact absurd hpass (Check.error_ne_nil _ _)
    · rw [not_not, harray] at hdata
      unfold lineArray at hdata
      cases hl : envLine s.file.rest with
      | nil => rfl
      | cons c l =>
          rw [hl] at hdata
          have hc : c = nul := by simpa using hdata
          have hmem : nul ∈ envLine s.file.rest := by
            rw [hl, hc]
            exact List.mem_cons_self
          exact absurd hmem (envLine_noNul _)
  · next envstr file hload =>
    obtain ⟨-, hf⟩ := loadEnv_counted hload
    obtain ⟨hrest, k, hk, hnext⟩ :=
      @nextLine_of_no getpwnam pw _ _ _ _ hopen hload
    split at hbody
    · cases hbody
    · next r hcall =>
      dsimp only at hbody
      split at hbody
      · next hsay =>
        obtain ⟨hgood, hleft⟩ := readAlone_of_passed (hf.trans hfails) hcall
          hsay (by rw [hrest]; exact hk)
        obtain ⟨-, -, hfails', -⟩ := loadEntry_reads (hf.trans hfails) hcall
        cases hbody
        refine Or.inr ⟨k, hgood, ?_, hfails', rfl⟩
        rw [hrest] at hleft
        rw [hleft]
        exact hnext
      · cases hbody
        exact absurd hpass (Check.error_ne_nil _ _)
  · next envstr file hload =>
    obtain ⟨-, hf⟩ := loadEnv_counted hload
    cases hbody
    exact Or.inr ⟨.setting, rfl, nextLine_of_yes hopen hload,
      hf.trans hfails, rfl⟩

/-- What passes the check is flawless, whatever `malloc` does. -/
theorem Check.loop_passed {envp fuel : Nat} {s s' : Check}
    (hfails : s.file.fails = false)
    (hclosed : Closed getpwnam pw s.file.rest)
    (herrors : s.errors = []) (heof : s.eof = false)
    (hloop : loop getpwnam pw envp fuel s = some s')
    (hpass : s'.errors = []) : Flawless getpwnam pw s.file.rest := by
  induction fuel generalizing s with
  | zero => cases hloop
  | succ fuel ih =>
      unfold loop at hloop
      rw [if_pos ⟨herrors, heof⟩] at hloop
      split at hloop
      · cases hloop
      · next s1 hbody =>
        have hpass1 : s1.errors = [] := by
          by_contra hne
          cases fuel with
          | zero => cases hloop
          | succ fuel =>
              unfold loop at hloop
              rw [if_neg fun h => hne h.1] at hloop
              cases hloop
              exact hne hpass
        rcases Check.body_passed hfails (hclosed [] _ .none) hbody hpass1 with
          hgood | ⟨k, hgood, hnext, hfails', heof'⟩
        · exact hgood
        · exact .line hnext hgood (ih hfails'
            (fun ks u h => hclosed _ u (.line hnext h)) hpass1
            (heof'.trans heof) hloop)

/-- A table that `replace_cmd` has put in the place of another. -/
theorem replaceCmd_installs {fuel : Nat} {newCrontab : Stream}
    {envstr : List UInt8} {h : CHeap} {table : Option (List UInt8)}
    {r : Replaced}
    (hrun : replaceCmd fuel getpwnam pw newCrontab envstr h table = some r) :
    r.table = table ∨ ∃ t, r.table = some t
      ∧ (Closed getpwnam pw t → Flawless getpwnam pw t) := by
  unfold replaceCmd at hrun
  split at hrun
  · cases hrun
    exact Or.inl rfl
  · dsimp only at hrun
    split at hrun
    · cases hrun
    · next s hloop =>
      split at hrun
      · cases hrun
        exact Or.inl rfl
      · next hpass =>
        cases hrun
        rw [not_not] at hpass
        exact Or.inr ⟨_, rfl, fun hclosed =>
          Check.loop_passed rfl hclosed rfl rfl hloop hpass⟩

/-- A spool that was empty, after any commands of any users. -/
inductive SpoolRun (getpwnam : CString → Option Passwd) : Spool → Prop
  | empty : SpoolRun getpwnam fun _ => none
  | step {spool spool' : Spool} (run : SpoolRun getpwnam spool)
      (step : SpoolStep getpwnam spool spool') : SpoolRun getpwnam spool'

/-- Every table in the spool has passed the check. -/
theorem SpoolRun.flawless {spool : Spool} (hrun : SpoolRun getpwnam spool)
    {user : CString} {t : List UInt8} (htable : spool user = some t)
    (hknown : getpwnam user = some pw) (hclosed : Closed getpwnam pw t) :
    Flawless getpwnam pw t := by
  induction hrun generalizing user t pw with
  | empty => cases htable
  | step run step ih =>
      cases step with
      | @replace user' pw' fuel newCrontab envstr h r known cmd =>
          by_cases huser : user = user'
          · rw [huser, Function.update_self] at htable
            rw [huser, known] at hknown
            cases hknown
            rcases replaceCmd_installs cmd with hsame | ⟨t', hnew, hgood⟩
            · rw [hsame] at htable
              exact ih htable known hclosed
            · rw [hnew] at htable
              cases htable
              exact hgood hclosed
          · rw [Function.update_of_ne huser] at htable
            exact ih htable hknown hclosed
      | delete user' =>
          by_cases huser : user = user'
          · rw [huser, Function.update_self] at htable
            cases htable
          · rw [Function.update_of_ne huser] at htable
            exact ih htable hknown hclosed

/-- **What users install, crond runs.** After any commands of any users,
whatever `malloc` did to them: a table in the spool, none of whose lines
ends where a quote opens, is what `crontab -l` shows; and if crond has
memory, `load_user` returns it with an entry of every line that is no
setting, down to the end, where nothing is left but blanks or a comment.
Not one line of it is rejected. -/
theorem installed_loaded {spool : Spool} (hrun : SpoolRun getpwnam spool)
    {user : CString} {t : List UInt8} (htable : spool user = some t)
    (hknown : getpwnam user = some pw) (hclosed : Closed getpwnam pw t)
    {h : CHeap} (hg : AllGranted h) {fuel : Nat}
    (hfuel : t.length + 3 ≤ fuel) (fname tabname : CString) (tab : String)
    (envstr : List UInt8) :
    listCmd (spool user) = some t
      ∧ ∃ r u items s, loadUser fuel getpwnam (Stream.ofBytes t) (some pw)
          fname tabname tab envstr h = some r
        ∧ UserRead getpwnam (some pw) tab h fname tabname envstr
          (Stream.ofBytes t) r u items s
        ∧ TableItem.job none ∉ items
        ∧ u.crontab = (entriesRead items).reverse
        ∧ afterLine s.file.rest = [] ∧ envLine s.file.rest = [] := by
  have hgood := hrun.flawless htable hknown hclosed
  refine ⟨?_, ?_⟩
  · rw [htable]
    unfold listCmd
    rw [Option.map_some, copyChars_eq]
    rfl
  · obtain ⟨s0, hstart, hg0, hreturns⟩ :=
      @loadUser_start getpwnam (some pw) tab h hg fuel (Stream.ofBytes t)
        fname tabname envstr
    have hloaded := hstart.loaded
    have hrest : s0.file.rest = t := by
      rw [hstart.file]
      rfl
    have hfails : s0.file.fails = false := by
      rw [hstart.file]
      rfl
    rw [← hrest] at hclosed hfuel
    obtain ⟨s', hloop⟩ :=
      @loadUserLoop_ends getpwnam pw tab s0 _ _ fuel hfails hg0 hloaded
        hclosed hfuel
    obtain ⟨items, s, hread⟩ := loadUser_trace (hreturns s' hloop) rfl
    obtain ⟨s1, hstart', htrace⟩ := hread.trace
    rw [← hstart.unique hstart'] at htrace
    obtain ⟨ks, hreads, hitems, -, -⟩ :=
      htrace.reads hfails hg0 hloaded hclosed
    rw [hrest] at hreads
    obtain ⟨hks, hlast⟩ := hgood.reads hreads
    obtain ⟨envstr', file', hend⟩ := hread.ended
    obtain ⟨hafter, -⟩ := afterLine_of_err hend
    refine ⟨_, _, items, s, hreturns s' hloop, hread, ?_, ?_, hafter, ?_⟩
    · intro hmem
      obtain ⟨k, hk, his⟩ := kind_of_item hitems hmem
      cases his with
      | bad ecode => cases hks _ hk
    · rw [hread.crontab, (htrace.loaded hloaded).crontab, jobsRead_entries]
    · cases hlast with
      | last _ empty => exact empty
      | line here _ _ => exact absurd hafter here.more

end

/-- A table of one job. -/
def dailyTable : List UInt8 := bytes "@daily true\n"

/-- It is installed by its user, shown, and loaded. -/
theorem dailyTable_runs :
    ∃ spool r u items, SpoolRun rootOnly spool
      ∧ listCmd (spool (CString.ofString "root")) = some dailyTable
      ∧ loadUser 15 rootOnly (Stream.ofBytes dailyTable) (some rootPasswd)
        (CString.ofString "root") (CString.ofString "root") "root" []
        freshHeap = some r
      ∧ r.user = some u
      ∧ u.crontab = (entriesRead items).reverse
      ∧ TableItem.job none ∉ items := by
  have hread : readSetting (envLine dailyTable) = .refused := by
    decide +kernel
  have hleft : (readAlone rootOnly rootPasswd dailyTable).left = [] := by
    decide +kernel
  have hjob : NextLine rootOnly rootPasswd dailyTable .job _ :=
    .of_refused (by decide +kernel) hread (by decide +kernel)
  rw [hleft] at hjob
  have hclosed : Closed rootOnly rootPasswd dailyTable := by
    refine .above hjob (not_endsOpen_of_refused hread)
      (.last (by decide +kernel) (not_endsOpen_of_refused ?_))
    decide +kernel
  have htable : (replaceCmd 15 rootOnly rootPasswd
      (Stream.ofBytes dailyTable) [] freshHeap none).map (·.table)
      = some (some dailyTable) := by
    decide +kernel
  obtain ⟨r0, hrun, hr0⟩ := Option.map_eq_some_iff.mp htable
  have hspool : SpoolRun rootOnly (Function.update (fun _ => none)
      (CString.ofString "root") r0.table) :=
    .step .empty (.replace (by decide) hrun)
  obtain ⟨hlist, r, u, items, s, hload, hread, hgood, hcrontab, -⟩ :=
    @installed_loaded rootOnly rootPasswd _ hspool (CString.ofString "root")
      dailyTable (by rw [Function.update_self, hr0]) (by decide) hclosed
      freshHeap (fun _ => rfl) 15 (by decide) (CString.ofString "root")
      (CString.ofString "root") "root" []
  exact ⟨_, r, u, items, hspool, hlist, hload, hread.user, hcrontab,
    hgood⟩

end Tinjac.Crond
