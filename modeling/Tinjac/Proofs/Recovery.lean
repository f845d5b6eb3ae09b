/-
Where `load_entry` leaves a line.

# Rejected lines

The loop behind the label `eof` reads on to the next newline, so it
leaves the text behind the line exactly if no newline was read before
it. There is one way to have read it: `get_range` refuses a range with
its ends the wrong way round, or with a step of zero, after it took the
character behind it, and puts nothing back. Where such a range ends the
line (`Field.Swallows`), the loop skips the next line instead
(`loadBody_stands`).

# Accepted lines

The command ends at a newline or at a NUL, and behind a NUL the rest of
the line stays to be read (`SplitByNul`).
-/
import Tinjac.Proofs.LineEnds
import Tinjac.Proofs.Written

namespace Tinjac

open Span BlockHeap CHeap

-- ====================================================== refused ranges

/-- A step of zero, which `get_range` rejects behind its number. -/
structure ZeroStep (n : List UInt8) : Prop where
  numeral : Numeral n
  zero : atoi n = 0

/-- A range that `get_range` refuses without putting back the character
behind it. -/
def Range.Refused (f : Field) : Range → Prop
  | .star step => ∃ n, step = some n ∧ ZeroStep n
  | .single _ => False
  | .span x y step =>
      x.Scanned f.names ∧ y.Scanned f.names
        ∧ (y.value f < x.value f ∧ step = none
          ∨ ¬ y.value f < x.value f ∧ ∃ n, step = some n ∧ ZeroStep n)

theorem readStep_eaten {t next : List UInt8} :
    readStep t = .eaten next
      ↔ ∃ n, t = slash :: (n ++ next) ∧ ZeroStep n
        ∧ strchr fieldTerms next.head? = true := by
  constructor
  · intro h
    unfold readStep at h
    split at h
    · next hslash =>
      obtain ⟨l, rfl⟩ := List.head?_eq_some_iff.mp hslash
      rw [List.tail_cons] at h
      split at h
      · cases h
      · cases hnum : readNumber none (bytes ", \t\n") l with
        | fail left =>
            rw [hnum] at h
            cases h
        | eaten next => exact absurd hnum readNumber_ne_eaten
        | done x nx =>
            rw [hnum] at h
            obtain ⟨hl, hx, hterm⟩ :=
              (readNumber_done delimits_field).mp hnum
            cases x with
            | name ls =>
                obtain ⟨-, ns, hns, -⟩ := hx
                cases hns
            | digits ds =>
                simp only [Outcome.bind] at h
                split at h
                · next hzero =>
                  injection h with hnext
                  subst hnext
                  exact ⟨ds, congrArg (slash :: ·) hl, ⟨hx, hzero⟩, hterm⟩
                · cases h
    · cases h
  · intro hgiven
    obtain ⟨n, rfl, hzero, hterm⟩ := hgiven
    have hnum : readNumber none (bytes ", \t\n") (n ++ next)
        = .done (.digits n) next :=
      (readNumber_done delimits_field).mpr ⟨rfl, hzero.numeral, hterm⟩
    have hne : n ++ next ≠ [] :=
      List.append_ne_nil_of_left_ne_nil hzero.numeral.ne_nil next
    unfold readStep
    rw [List.head?_cons, List.tail_cons, if_pos rfl, if_neg hne, hnum]
    show (if atoi n = 0 then Outcome.eaten next else _) = _
    rw [if_pos hzero.zero]

theorem takeRange_ne_eaten {f : Field} {r : Range}
    {next next' : List UInt8} : takeRange f r next ≠ .eaten next' := by
  unfold takeRange
  split
  · intro h
    cases h
  · intro h
    cases h

theorem Outcome.bind_eaten {α β : Type} {o : Outcome α}
    {k : α → List UInt8 → Outcome β} {next : List UInt8} :
    o.bind k = .eaten next
      ↔ o = .eaten next ∨ ∃ a nx, o = .done a nx ∧ k a nx = .eaten next := by
  cases o with
  | done a nx =>
      constructor
      · intro h
        exact Or.inr ⟨a, nx, rfl, h⟩
      · intro hgiven
        rcases hgiven with h | ⟨a', nx', ho, hk⟩
        · cases h
        · injection ho with ha hn
          rw [← ha, ← hn] at hk
          exact hk
  | fail left =>
      constructor
      · intro h
        cases h
      · intro hgiven
        rcases hgiven with h | ⟨_, _, ho, _⟩
        · cases h
        · cases ho
  | eaten nx =>
      constructor
      · intro h
        injection h with h
        rw [h]
        exact Or.inl rfl
      · intro hgiven
        rcases hgiven with h | ⟨_, _, ho, _⟩
        · injection h with h
          rw [h]
          rfl
        · cases ho

/-- A range is refused so at the end of a line iff it is written there. -/
theorem readRange_eaten {f : Field} {t s : List UInt8} :
    readRange f t = .eaten (newline :: s)
      ↔ ∃ r : Range, r.Refused f ∧ t = r.text ++ newline :: s := by
  constructor
  · intro h
    unfold readRange at h
    split at h
    · next hstar =>
      obtain ⟨l, rfl⟩ := List.head?_eq_some_iff.mp hstar
      rw [List.tail_cons] at h
      split at h
      · cases h
      · rcases Outcome.bind_eaten.mp h with h | ⟨step, nx, -, h⟩
        · obtain ⟨n, rfl, hzero, -⟩ := readStep_eaten.mp h
          exact ⟨.star (some n), ⟨n, rfl, hzero⟩, rfl⟩
        · exact absurd h takeRange_ne_eaten
    · rcases Outcome.bind_eaten.mp h with hno | ⟨x, nx, hnum, hrest⟩
      · exact absurd hno readNumber_ne_eaten
      · obtain ⟨rfl, hx, -⟩ := (readNumber_done delimits_single).mp hnum
        split at hrest
        · exact absurd hrest takeRange_ne_eaten
        · next hdash =>
          obtain ⟨l, rfl⟩ := List.head?_eq_some_iff.mp (not_not.mp hdash)
          rw [List.tail_cons] at hrest
          split at hrest
          · cases hrest
          · rcases Outcome.bind_eaten.mp hrest with hno | ⟨y, nx, hnum2, hstep⟩
            · exact absurd hno readNumber_ne_eaten
            · obtain ⟨rfl, hy, -⟩ := (readNumber_done delimits_span).mp hnum2
              split at hstep
              · next hlt =>
                injection hstep with hnx
                refine ⟨.span x y none, ⟨hx, hy, Or.inl ⟨hlt, rfl⟩⟩, ?_⟩
                rw [hnx]
                simp [Range.text, stepText]
              · next hle =>
                rcases Outcome.bind_eaten.mp hstep with hzero | ⟨_, _, -, hno⟩
                · obtain ⟨n, rfl, hzero, -⟩ := readStep_eaten.mp hzero
                  refine ⟨.span x y (some n),
                    ⟨hx, hy, Or.inr ⟨hle, n, rfl, hzero⟩⟩, ?_⟩
                  simp [Range.text, stepText]
                · exact absurd hno takeRange_ne_eaten
  · intro hgiven
    obtain ⟨r, hr, rfl⟩ := hgiven
    have hzeroStep : ∀ {n : List UInt8}, ZeroStep n →
        readStep (slash :: (n ++ newline :: s)) = .eaten (newline :: s) :=
      fun hzero => readStep_eaten.mpr ⟨_, rfl, hzero, rfl⟩
    cases r with
    | star step =>
        obtain ⟨n, rfl, hzero⟩ := hr
        rw [show (Range.star (some n)).text ++ newline :: s
            = star :: (slash :: (n ++ newline :: s)) from rfl,
          readRange_star (List.cons_ne_nil _ _), hzeroStep hzero]
        rfl
    | single x => exact hr.elim
    | span x y step =>
        obtain ⟨hx, hy, hbad⟩ := hr
        obtain ⟨l, htext, hterm, hafter⟩ : ∃ l,
            (Range.span x y step).text ++ newline :: s
              = x.text ++ dash :: (y.text ++ l)
            ∧ strchr (bytes "/, \t\n") l.head? = true
            ∧ (if y.value f < x.value f then Outcome.eaten l
                else (readStep l).bind fun step =>
                  takeRange f (.span x y step)) = .eaten (newline :: s) := by
          rcases hbad with ⟨hlt, rfl⟩ | ⟨hle, n, rfl, hzero⟩
          · refine ⟨newline :: s, ?_, rfl, ?_⟩
            · simp [Range.text, stepText]
            · rw [if_pos hlt]
          · refine ⟨slash :: (n ++ newline :: s), ?_, rfl, ?_⟩
            · simp [Range.text, stepText]
            · rw [if_neg hle, hzeroStep hzero]
              rfl
        have hread : readNumber f.names (bytes ",- \t\n")
            (x.text ++ dash :: (y.text ++ l))
            = .done x (dash :: (y.text ++ l)) :=
          (readNumber_done delimits_single).mpr ⟨rfl, hx, rfl⟩
        have hread2 : readNumber f.names (bytes "/, \t\n") (y.text ++ l)
            = .done y l :=
          (readNumber_done delimits_span).mpr ⟨rfl, hy, hterm⟩
        have hne : y.text ++ l ≠ [] := by
          obtain ⟨c, w, heq, -⟩ := hy.head
          rw [heq]
          exact List.cons_ne_nil _ _
        unfold readRange
        rw [htext, if_neg (hx.head_ne_star _), hread]
        simp only [Outcome.bind]
        rw [List.head?_cons, List.tail_cons, if_neg (not_not.mpr rfl),
          if_neg hne, hread2]
        exact hafter

-- ===================================================== swallowed lines

/-- The list of a field ends its line in a range refused so. -/
def Field.Swallows (f : Field) (t : List UInt8) : Prop :=
  ∃ (rs : List Range) (r : Range) (s : List UInt8),
    (∀ q ∈ rs, q.Taken f) ∧ r.Refused f
      ∧ t = rs.flatMap (fun q => q.text ++ [comma])
          ++ (r.text ++ newline :: s)

theorem readRanges_eaten {f : Field} {t : List UInt8} :
    (∃ s, readRanges f t = .eaten (newline :: s)) ↔ f.Swallows t := by
  constructor
  · intro ⟨s, h⟩
    fun_induction readRanges f t with
    | case1 t q nx hread hcomma ih =>
        obtain ⟨rfl, htaken, -⟩ := readRange_done.mp hread
        obtain ⟨l, rfl⟩ := List.head?_eq_some_iff.mp hcomma
        rcases Outcome.bind_eaten.mp h with h | ⟨rs, nx', -, h⟩
        · obtain ⟨rs, r, s, hrs, hr, hl⟩ := ih h
          rw [List.tail_cons] at hl
          refine ⟨q :: rs, r, s, ?_, hr, ?_⟩
          · intro q' hq'
            rcases List.mem_cons.mp hq' with rfl | hq'
            · exact htaken
            · exact hrs q' hq'
          · rw [hl]
            simp
        · cases h
    | case2 => cases h
    | case3 => cases h
    | case4 t nx hread =>
        injection h with h
        rw [h] at hread
        obtain ⟨r, hr, rfl⟩ := readRange_eaten.mp hread
        exact ⟨[], r, s, by simp, hr, rfl⟩
  · intro hgiven
    obtain ⟨rs, r, s, hrs, hr, rfl⟩ := hgiven
    refine ⟨s, ?_⟩
    induction rs with
    | nil =>
        have hread : readRange f (r.text ++ newline :: s)
            = .eaten (newline :: s) := readRange_eaten.mpr ⟨r, hr, rfl⟩
        show readRanges f (r.text ++ newline :: s) = _
        rw [readRanges_stop (by rw [hread]; exact fun _ _ h => by cases h),
          hread]
        rfl
    | cons q rs ih =>
        have hrec := ih fun q' hq' => hrs q' (List.mem_cons_of_mem q hq')
        have hread : readRange f
            ((q :: rs).flatMap (fun q => q.text ++ [comma])
              ++ (r.text ++ newline :: s))
            = .done q (comma :: (rs.flatMap (fun q => q.text ++ [comma])
              ++ (r.text ++ newline :: s))) :=
          readRange_done.mpr ⟨by simp, hrs q List.mem_cons_self,
            q.ends_comma _⟩
        rw [readRanges_comma hread, hrec]
        rfl

theorem readList_eaten {f : Field} {t : List UInt8} :
    (∃ s, readList f t = .eaten (newline :: s)) ↔ f.Swallows t := by
  rw [← readRanges_eaten]
  unfold readList
  constructor
  · intro ⟨s, h⟩
    rcases Outcome.bind_eaten.mp h with h | ⟨rs, nx, -, h⟩
    · exact ⟨s, h⟩
    · split at h
      · cases h
      · cases h
  · intro ⟨s, h⟩
    rw [h]
    exact ⟨s, rfl⟩

/-- One of the fields of a schedule swallows the end of the line; the
fields before it are taken. -/
def FieldsSwallow : List Field → List UInt8 → Prop
  | [], _ => False
  | f :: fs, t =>
      f.Swallows t ∨ ∃ rs after, t = listText rs ++ after
        ∧ ListTaken f rs after ∧ skipField after ≠ []
        ∧ FieldsSwallow fs (skipField after)

theorem fieldsSwallow_cons {f : Field} {fs : List Field}
    {t : List UInt8} :
    FieldsSwallow (f :: fs) t
      ↔ f.Swallows t
        ∨ ∃ rs next, readList f t = .done rs next
          ∧ FieldsSwallow fs next := by
  refine or_congr Iff.rfl ?_
  constructor
  · intro hgiven
    obtain ⟨rs, after, htext, hlist, hne, hrest⟩ := hgiven
    exact ⟨rs, _, readList_done.mpr ⟨after, htext, hlist, hne, rfl⟩, hrest⟩
  · intro hgiven
    obtain ⟨rs, next, hread, hrest⟩ := hgiven
    obtain ⟨after, htext, hlist, hne, rfl⟩ := readList_done.mp hread
    exact ⟨rs, after, htext, hlist, hne, hrest⟩

-- ================================================== where fields stand

/-- A rejected line is left at `u`: in the line, or behind its newline
if that was swallowed. -/
def LeftAt (swallows : Prop) (t u : List UInt8) : Prop :=
  ¬ swallows ∧ lineEnd u = lineEnd t ∨ swallows ∧ u = dropLine t

theorem LeftAt.congr {P Q : Prop} {t t' u : List UInt8}
    (h : LeftAt P t u) (hPQ : P ↔ Q) (hend : lineEnd t = lineEnd t') :
    LeftAt Q t' u := by
  unfold LeftAt at h ⊢
  rw [dropLine_eq, ← hend, ← hPQ]
  exact h

/-- Where the stream stands behind these fields of a text, taken or
not, whatever fields `gs` are still to come. -/
structure Stands (fs : List Field) (t : List UInt8) (s : Sched) : Prop where
  accepted : s.ecode = .none → ∃ next, At s.ch s.file next
    ∧ lineEnd next = lineEnd t
    ∧ ∀ gs, FieldsSwallow (fs ++ gs) t ↔ FieldsSwallow gs next
  rejected : s.ecode ≠ .none → ∀ gs,
    LeftAt (FieldsSwallow (fs ++ gs) t) t (text s.ch s.file)

theorem loadField_stands (f : Field) (flag : Nat) {ecode : Ecode}
    (he : ecode ≠ .none) {s : Sched} {t : List UInt8}
    (h : At s.ch s.file t) : Stands [f] t (loadField f flag ecode s) := by
  have hshows := (getList_shows f s.bits h).shows
  have hends := readList_ends f t
  have heaten := @readList_eaten f t
  unfold loadField
  generalize getList s.bits f s.ch s.file = r at hshows
  obtain ⟨ch, bits, file⟩ := r
  dsimp only at hshows ⊢
  cases ho : readList f t with
  | done rs next =>
      rw [ho] at hshows hends heaten
      obtain ⟨hne, hch, hrest⟩ := hshows
      have hnot : ¬ f.Swallows t := by
        rw [← heaten]
        intro hgiven
        obtain ⟨s, h⟩ := hgiven
        cases h
      refine ⟨fun _ => ⟨next, ⟨hch, hrest⟩, hends, fun gs => ?_⟩,
        fun hrej => ?_⟩
      · show FieldsSwallow (f :: gs) t ↔ _
        rw [fieldsSwallow_cons, ho]
        constructor
        · intro hgiven
          rcases hgiven with hf | ⟨rs', next', hdone, hgs⟩
          · exact absurd hf hnot
          · injection hdone with _ hnext
            rw [hnext]
            exact hgs
        · exact fun hgs => Or.inr ⟨rs, next, rfl, hgs⟩
      · refine absurd ?_ hrej
        show (if ch = none then ecode else .none) = .none
        rw [if_neg]
        rw [hch]
        exact fun hn => hne (List.head?_eq_none_iff.mp hn)
  | fail left =>
      rw [ho] at hshows hends heaten
      obtain ⟨rfl, hrest⟩ := hshows
      refine ⟨fun hacc => absurd hacc (by rw [if_pos rfl]; exact he),
        fun _ gs => Or.inl ⟨?_, ?_⟩⟩
      · show ¬ FieldsSwallow (f :: gs) t
        rw [fieldsSwallow_cons, ho, ← heaten]
        intro hgiven
        rcases hgiven with ⟨s, h⟩ | ⟨rs, next, h, -⟩
        · cases h
        · cases h
      · show lineEnd file.rest = lineEnd t
        rw [hrest]
        exact hends
  | eaten next =>
      rw [ho] at hshows hends heaten
      obtain ⟨rfl, hrest⟩ := hshows
      have hends : lineEnd next = lineEnd t := hends
      refine ⟨fun hacc => absurd hacc (by rw [if_pos rfl]; exact he),
        fun _ gs => ?_⟩
      show LeftAt (FieldsSwallow (f :: gs) t) t file.rest
      rw [fieldsSwallow_cons, ho, ← heaten, hrest]
      by_cases hhead : next.head? = some newline
      · -- the newline was read and not put back
        obtain ⟨l, rfl⟩ := List.head?_eq_some_iff.mp hhead
        refine Or.inr ⟨Or.inl ⟨l, rfl⟩, ?_⟩
        rw [dropLine_eq, ← hends, lineEnd_newline]
      · refine Or.inl ⟨?_, (lineEnd_tail hhead).trans hends⟩
        intro hgiven
        rcases hgiven with ⟨l, h⟩ | ⟨rs, next, h, -⟩
        · injection h with h
          rw [h] at hhead
          exact hhead rfl
        · cases h

/-- Fields one after the other: the first that is rejected is where the
line is left. -/
theorem Stands.andThen {fs gs : List Field} {t : List UInt8} {s : Sched}
    {k : Sched → Sched} (h : Stands fs t s)
    (hk : ∀ next, At s.ch s.file next → Stands gs next (k s)) :
    Stands (fs ++ gs) t (s.andThen k) := by
  unfold Sched.andThen
  by_cases hacc : s.ecode = .none
  · rw [if_pos hacc]
    obtain ⟨next, hat, hend, hswallow⟩ := h.accepted hacc
    have hnext := hk next hat
    refine ⟨fun hacc' => ?_, fun hrej gs' => ?_⟩
    · obtain ⟨next', hat', hend', hswallow'⟩ := hnext.accepted hacc'
      refine ⟨next', hat', hend'.trans hend, fun gs' => ?_⟩
      rw [List.append_assoc, hswallow, hswallow']
    · rw [List.append_assoc]
      exact (hnext.rejected hrej gs').congr (hswallow _).symm hend
  · rw [if_neg hacc]
    refine ⟨fun hacc' => absurd hacc' hacc, fun _ gs' => ?_⟩
    rw [List.append_assoc]
    exact h.rejected hacc (gs ++ gs')

theorem loadFields_stands {s : Sched} {t : List UInt8}
    (h : At s.ch s.file t) : Stands fields t (loadFields s) := by
  have hminute := loadField_stands minuteField minStar
    (show Ecode.minute ≠ .none by decide) h
  exact (((hminute.andThen fun _ hat =>
    loadField_stands hourField hrStar (by decide) hat).andThen fun _ hat =>
    loadField_stands domField domStar (by decide) hat).andThen fun _ hat =>
    loadField_stands monthField monStar (by decide) hat).andThen fun _ hat =>
    loadField_stands dowField dowStar (by decide) hat

-- =============================================== where schedules stand

/-- The schedule on this text swallows the end of its line. -/
def ScheduleSwallows (t : List UInt8) : Prop :=
  t.head? ≠ some atSign ∧ FieldsSwallow fields t

/-- Where the stream stands behind a schedule: at the text that the
reading left, or behind a character that it swallowed. -/
structure SchedStands (t : List UInt8) (s : Sched) : Prop where
  accepted : s.ecode = .none → ∃ next, At s.ch s.file next
    ∧ lineEnd next = lineEnd t ∧ ¬ ScheduleSwallows t
  rejected : s.ecode ≠ .none →
    LeftAt (ScheduleSwallows t) t (text s.ch s.file)

/-- A nickname is left standing in its line. -/
theorem loadNickname_at (s : Sched) :
    ∃ next, At (loadNickname s).ch (loadNickname s).file next
      ∧ lineEnd next = lineEnd s.file.rest := by
  have htoken : isToken wordTerms newline = false := by decide
  obtain ⟨file', hget, hat, -⟩ := getString_eq wordTerms s.file
  have hend := lineEnd_dropWhile htoken s.file.rest
  unfold loadNickname
  rw [show bytes " \t\n" = wordTerms from rfl, hget]
  dsimp only
  split
  · exact ⟨_, hat, hend⟩
  · exact ⟨_, skipBlanks_at hat,
      (lineEnd_dropWhile (by decide) _).trans hend⟩

theorem checkEol_at {s : Sched} {next : List UInt8}
    (h : At s.ch s.file next) : At (checkEol s).ch (checkEol s).file next := by
  unfold checkEol
  dsimp only
  split
  · exact h
  · exact h

theorem loadSchedule_stands {s : Sched} {t : List UInt8}
    (h : At s.ch s.file t) : SchedStands t (loadSchedule s) := by
  have hstand : SchedStands t
      (if s.ch = some atSign then loadNickname s else loadFields s) := by
    by_cases hnick : s.ch = some atSign
    · rw [if_pos hnick]
      have hhead : t.head? = some atSign := h.head.symm.trans hnick
      have hnot : ¬ ScheduleSwallows t := fun hs => hs.1 hhead
      obtain ⟨next, hat, hend⟩ := loadNickname_at s
      have hend : lineEnd next = lineEnd t := by
        rw [hend, h.tail]
        apply lineEnd_tail
        rw [hhead]
        decide
      refine ⟨fun _ => ⟨next, hat, hend, hnot⟩, fun _ => Or.inl ⟨hnot, ?_⟩⟩
      rw [hat.text]
      exact hend
    · rw [if_neg hnick]
      have hhead : t.head? ≠ some atSign := fun ht => hnick (h.head.trans ht)
      have hswallow : ScheduleSwallows t ↔ FieldsSwallow (fields ++ []) t :=
        and_iff_right hhead
      have hfields := loadFields_stands h
      refine ⟨fun hacc => ?_, fun hrej => ?_⟩
      · obtain ⟨next, hat, hend, hno⟩ := hfields.accepted hacc
        refine ⟨next, hat, hend, ?_⟩
        rw [hswallow, hno]
        exact id
      · exact (hfields.rejected hrej []).congr hswallow.symm rfl
  unfold loadSchedule Sched.andThen
  generalize (if s.ch = some atSign then loadNickname s else loadFields s)
    = s' at hstand
  by_cases hacc : s'.ecode = .none
  · rw [if_pos hacc]
    obtain ⟨next, hat, hend, hnot⟩ := hstand.accepted hacc
    have hat' := checkEol_at hat
    refine ⟨fun _ => ⟨next, hat', hend, hnot⟩, fun _ => Or.inl ⟨hnot, ?_⟩⟩
    rw [hat'.text]
    exact hend
  · rw [if_neg hacc]
    exact ⟨fun hacc' => absurd hacc' hacc, hstand.rejected⟩

-- ==================================================== where jobs stand

/-- An accepted schedule does not stop at a newline. -/
theorem loadSchedule_stops {s : Sched}
    (h : (loadSchedule s).ecode = .none) :
    (loadSchedule s).ch ≠ some newline := by
  unfold loadSchedule Sched.andThen at h ⊢
  generalize (if s.ch = some atSign then loadNickname s else loadFields s)
    = s' at h ⊢
  by_cases hacc : s'.ecode = .none
  · rw [if_pos hacc] at h ⊢
    unfold checkEol at h ⊢
    dsimp only at h ⊢
    split at h
    · cases h
    · next hstop =>
      rw [if_neg hstop]
      exact fun hnl => hstop (Or.inl hnl)
  · rw [if_neg hacc] at h
    exact absurd h hacc

/-- The username is left standing in its line. -/
theorem loadUser_stands (getpwnam : CString → Option Passwd)
    (pw : Option Passwd) {s : Sched} {t : List UInt8}
    (h : At s.ch s.file t) (hnl : t.head? ≠ some newline) :
    ∃ res ch file',
      loadUser getpwnam pw s.ch (ungetChar s.ch s.file) = (res, ch, file')
        ∧ lineEnd (text ch file') = lineEnd t
        ∧ ∀ pw', res = .ok pw' → lineEnd file'.rest = lineEnd t := by
  have hrest : (ungetChar s.ch s.file).rest = t := by
    rw [ungetChar_rest, h.text]
  cases pw with
  | some pw =>
      refine ⟨_, _, _, rfl, ?_, fun _ _ => by rw [hrest]⟩
      unfold text
      rw [hrest, h.head]
      cases t with
      | nil => rfl
      | cons c l => exact lineEnd_cons (fun hc => hnl (congrArg some hc)) _
  | none =>
      obtain ⟨file', hget, hat, -⟩ :=
        getString_eq wordTerms (ungetChar s.ch s.file)
      rw [hrest] at hget hat
      have hend : lineEnd (t.dropWhile (isToken wordTerms)) = lineEnd t :=
        lineEnd_dropWhile (by decide) t
      unfold loadUser
      rw [show bytes " \t\n" = wordTerms from rfl, hget]
      dsimp only
      split
      · refine ⟨_, _, _, rfl, ?_, fun _ h => by cases h⟩
        rw [hat.text]
        exact hend
      · next hstop =>
        rw [not_or, not_or] at hstop
        split
        · refine ⟨_, _, _, rfl, ?_, fun _ h => by cases h⟩
          rw [hat.text]
          exact hend
        · refine ⟨_, _, _, rfl, ?_, fun _ _ => ?_⟩
          · rw [hat.text]
            exact hend
          · rw [hat.tail, lineEnd_tail hstop.2.1]
            exact hend

/-- A job that is not taken is left standing in its line. -/
theorem loadJob_stands (getpwnam : CString → Option Passwd)
    (pw : Option Passwd) (h : CHeap) (envp : Nat) (fname : String)
    {s : Sched} {t : List UInt8} (hat : At s.ch s.file t)
    (hnl : t.head? ≠ some newline) {ecode : Ecode} {ev : Option Nat}
    (hv : (loadJob getpwnam pw h envp fname s).verdict = .eof ecode ev) :
    lineEnd (text (loadJob getpwnam pw h envp fname s).ch
      (loadJob getpwnam pw h envp fname s).file) = lineEnd t := by
  obtain ⟨res, ch, file', huser, hend, hok⟩ :=
    loadUser_stands getpwnam pw hat hnl
  unfold loadJob at hv ⊢
  rw [huser] at hv ⊢
  cases res with
  | error ec => exact hend
  | ok pw' =>
      dsimp only at hv ⊢
      split at hv
      · exact hend
      · split at hv
        · obtain ⟨file2, hget, hat2, -⟩ := getString_eq lineTerms file'
          have hcmd : lineEnd (file'.rest.dropWhile (isToken lineTerms))
              = lineEnd t := by
            rw [lineEnd_dropWhile (by decide)]
            exact hok pw' rfl
          rw [show bytes "\n" = lineTerms from rfl, hget] at hv ⊢
          dsimp only at hv ⊢
          have hstand : lineEnd (text
              (file'.rest.dropWhile (isToken lineTerms)).head? file2)
              = lineEnd t := by
            rw [hat2.text]
            exact hcmd
          split at hv
          · next hnone =>
            rw [if_pos hnone]
            exact hstand
          · next hsome =>
            rw [if_neg hsome]
            split at hv
            · cases hv
            · next hrefused =>
              rw [if_neg hrefused]
              exact hstand
        · exact hend

-- =================================================== where lines stand

theorem loadLine_stands (getpwnam : CString → Option Passwd)
    (pw : Option Passwd) (h : CHeap) (envp : Nat) (fname : String)
    (flags : Nat) {ch : Option UInt8} {file : Stream} {t : List UInt8}
    (hat : At ch file t) {ecode : Ecode} {ev : Option Nat}
    (hv : (loadLine getpwnam pw h envp fname flags ch file).verdict
      = .eof ecode ev) :
    LeftAt (ScheduleSwallows t) t
      (text (loadLine getpwnam pw h envp fname flags ch file).ch
        (loadLine getpwnam pw h envp fname flags ch file).file) := by
  have hs : SchedStands t (loadSchedule ⟨.none, .zero, flags, ch, file⟩) :=
    loadSchedule_stands (s := ⟨.none, .zero, flags, ch, file⟩) hat
  have hstops : (loadSchedule ⟨.none, .zero, flags, ch, file⟩).ecode
      = .none → (loadSchedule ⟨.none, .zero, flags, ch, file⟩).ch
        ≠ some newline := loadSchedule_stops
  unfold loadLine at hv ⊢
  dsimp only at hv ⊢
  generalize loadSchedule ⟨.none, .zero, flags, ch, file⟩ = s
    at hs hstops hv ⊢
  by_cases hacc : s.ecode = .none
  · rw [if_pos hacc] at hv ⊢
    obtain ⟨next, hat', hend, hnot⟩ := hs.accepted hacc
    have hnl : next.head? ≠ some newline := by
      rw [← hat'.head]
      exact hstops hacc
    refine Or.inl ⟨hnot, ?_⟩
    exact (loadJob_stands getpwnam pw h envp fname hat' hnl hv).trans hend
  · rw [if_neg hacc]
    exact hs.rejected hacc

/-- The first useful line of a text swallows its end. -/
def Swallows (pw : Option Passwd) (t : List UInt8) : Prop :=
  (t.head? = some dash → mayDisableLog pw = true)
    ∧ ScheduleSwallows (afterOption t)

/-- **Where a rejected line is left**: in the line, unless a range at its
end swallowed the newline. -/
theorem loadBody_stands (getpwnam : CString → Option Passwd)
    (file : Stream) (pw : Option Passwd) (h : CHeap) (envp : Nat)
    (fname : String) {ecode : Ecode} {ev : Option Nat}
    (hv : (loadBody getpwnam file pw h envp fname).verdict
      = .eof ecode ev) :
    LeftAt (Swallows pw (usefulText file.rest)) (usefulText file.rest)
      (text (loadBody getpwnam file pw h envp fname).ch
        (loadBody getpwnam file pw h envp fname).file) := by
  obtain ⟨hrest, -⟩ := skipComments_rest file
  have hat := at_getChar (skipComments file)
  rw [hrest] at hat
  generalize usefulText file.rest = t at hat
  unfold loadBody at hv ⊢
  dsimp only at hv ⊢
  generalize getChar (skipComments file) = r at hat hv
  obtain ⟨ch, file1⟩ := r
  dsimp only at hat hv ⊢
  by_cases hnone : ch = none
  · rw [if_pos hnone] at hv
    cases hv
  · rw [if_neg hnone] at hv ⊢
    by_cases hdash : ch = some dash
    · obtain ⟨l, rfl⟩ := List.head?_eq_some_iff.mp (hat.head.symm.trans hdash)
      obtain ⟨-, hrest1⟩ := at_cons.mp hat
      have hcons : lineEnd (dash :: l) = lineEnd l :=
        lineEnd_cons (by decide) l
      rw [if_pos hdash] at hv ⊢
      by_cases hmay : mayDisableLog pw = true
      · rw [if_pos hmay] at hv ⊢
        have hat2 := at_getChar file1
        rw [hrest1] at hat2
        generalize getChar file1 = r2 at hat2 hv
        obtain ⟨ch2, file2⟩ := r2
        dsimp only at hat2 hv ⊢
        by_cases hnone2 : ch2 = none
        · rw [if_pos hnone2] at hv
          cases hv
        · rw [if_neg hnone2] at hv ⊢
          refine (loadLine_stands getpwnam pw h envp fname dontLog hat2
            hv).congr ?_ hcons.symm
          exact (and_iff_right fun _ => hmay).symm
      · rw [if_neg hmay] at hv ⊢
        refine Or.inl ⟨fun hs => hmay (hs.1 rfl), ?_⟩
        rw [hat.text]
    · rw [if_neg hdash] at hv ⊢
      have hhead : t.head? ≠ some dash := by
        rw [← hat.head]
        exact hdash
      refine (loadLine_stands getpwnam pw h envp fname 0 hat hv).congr ?_ rfl
      unfold Swallows
      rw [afterOption_none hhead]
      exact (and_iff_right fun hd => absurd hd hhead).symm

end Tinjac
