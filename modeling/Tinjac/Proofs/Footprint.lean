/-
Which bits of the bitmap area `load_entry` writes.

The history `touched` only grows (`Grows`), so one illegal index written
early in a line is there however the line ends. The first thing the five
fields do is clear the minutes with an inclusive stop one past the last
of them, and every nickname but `@reboot` fills a bitmap the same way:
the lines that keep to their fields (`Confined`) are exactly those that
write to none (`fieldless`).
-/
import Tinjac.Proofs.LineText
import Tinjac.Proofs.Bitstring

namespace Tinjac

open Bitmaps BlockHeap

-- ============================================================= growing

/-- Everything written before is still on record: the indices touched so
far are among those touched in the end. -/
def Grows (m m' : Bitmaps) : Prop := m.touched ⊆ m'.touched

/-- Where nothing is written nothing more is touched. -/
theorem Grows.refl (m : Bitmaps) : Grows m m := List.Subset.refl _

/-- What two writes touch is touched by both together. -/
theorem Grows.trans {m m' m'' : Bitmaps} (h : Grows m m')
    (h' : Grows m' m'') : Grows m m'' :=
  List.Subset.trans h h'

/-- `bit_set` touches one index, that of the bit it sets. -/
theorem touched_bitSet (m : Bitmaps) (name i : Nat) :
    (bitSet m name i).touched = m.touched ++ [(name, i)] := rfl

/-- Filling bytes is not counted by itself: the macro around it counts the
indices of its range. -/
theorem touched_fillBetween (m : Bitmaps)
    (name startbyte stopbyte v : Nat) :
    (fillBetween m name startbyte stopbyte v).touched = m.touched := by
  unfold fillBetween
  generalize List.range' (startbyte + 1) (stopbyte - startbyte - 1) = l
  induction l generalizing m with
  | nil => rfl
  | cons k l ih => exact ih (m.store (name + k) v)

/-- `bit_nclear` touches every index of its range, the last one included.
-/
theorem touched_bitNclear (m : Bitmaps) (name start stop : Nat) :
    (bitNclear m name start stop).touched
      = m.touched ++ (bitRange start stop).map fun i => (name, i) := by
  unfold bitNclear
  dsimp only [touch]
  congr 1
  split
  · rfl
  · exact touched_fillBetween ..

/-- And `bit_nset` touches every index of its range, the last one
included. -/
theorem touched_bitNset (m : Bitmaps) (name start stop : Nat) :
    (bitNset m name start stop).touched
      = m.touched ++ (bitRange start stop).map fun i => (name, i) := by
  unfold bitNset
  dsimp only [touch]
  congr 1
  split
  · rfl
  · exact touched_fillBetween ..

/-- What was touched before `bit_set` stays touched. -/
theorem grows_bitSet (m : Bitmaps) (name i : Nat) :
    Grows m (bitSet m name i) := by
  unfold Grows
  rw [touched_bitSet]
  exact List.subset_append_left _ _

/-- And what was before `bit_nclear`. -/
theorem grows_bitNclear (m : Bitmaps) (name start stop : Nat) :
    Grows m (bitNclear m name start stop) := by
  unfold Grows
  rw [touched_bitNclear]
  exact List.subset_append_left _ _

/-- What was touched stays touched when `set_element` sets a bit. -/
theorem grows_setElement {bits bits' : Bitmaps} {f : Field} {i : Int32}
    (h : setElement bits f i = some bits') : Grows bits bits' := by
  rw [(setElement_eq_some h).2]
  exact grows_bitSet _ _ _

/-- It does in the stepping loop, which may break off. -/
theorem grows_stepLoop (f : Field) (num2 num3 : Int32) (hstep : num3 ≠ 0)
    (i : Int32) (bits : Bitmaps) :
    Grows bits (stepLoop f num2 num3 hstep i bits).2 := by
  fun_induction stepLoop f num2 num3 hstep i bits with
  | case1 => exact Grows.refl _
  | case2 i bits hle bits1 hset ih => exact (grows_setElement hset).trans ih
  | case3 => exact Grows.refl _

/-- At the end of `get_range` it does. -/
theorem grows_setRange (bits : Bitmaps) (f : Field)
    (num1 num2 num3 : Int32) (hstep : num3 ≠ 0) (ch : Option UInt8)
    (file : Stream) :
    Grows bits (setRange bits f num1 num2 num3 hstep ch file).2.1 := by
  have hloop := grows_stepLoop f num2 num3 hstep num1 bits
  unfold setRange
  split
  · next heq => rw [heq] at hloop; exact hloop
  · next heq => rw [heq] at hloop; exact hloop

/-- It does where a step is read before. -/
theorem grows_getStep (bits : Bitmaps) (f : Field) (num1 num2 : Int32)
    (ch : Option UInt8) (file : Stream) :
    Grows bits (getStep bits f num1 num2 ch file).2.1 := by
  unfold getStep
  split
  · dsimp only
    split
    · exact Grows.refl _
    · split
      · exact Grows.refl _
      · exact grows_setRange ..
  · exact grows_setRange ..

/-- And so it does in the whole of `get_range`, whichever way this goes.
-/
theorem grows_getRange (bits : Bitmaps) (f : Field) (ch : Option UInt8)
    (file : Stream) : Grows bits (getRange bits f ch file).2.1 := by
  unfold getRange
  split
  · dsimp only
    split
    · exact Grows.refl _
    · exact grows_getStep ..
  · dsimp only
    split
    · exact Grows.refl _
    · split
      · split
        · exact Grows.refl _
        · next hset => exact grows_setElement hset
      · split
        · exact Grows.refl _
        · split
          · exact Grows.refl _
          · exact grows_getStep ..

/-- The ranges of a list. -/
theorem grows_getListLoop (bits : Bitmaps) (f : Field) (ch : Option UInt8)
    (file : Stream) : Grows bits (getListLoop bits f ch file).2.1 := by
  fun_induction getListLoop bits f ch file with
  | case1 bits ch file r => exact grows_getRange bits f ch file
  | case2 bits ch file r hnone hcomma =>
      rename_i ih
      exact (grows_getRange bits f ch file).trans ih
  | case3 bits ch file r => exact grows_getRange bits f ch file

/-- A list keeps the record of its own clearing. -/
theorem grows_getList (bits : Bitmaps) (f : Field) (ch : Option UInt8)
    (file : Stream) :
    Grows (clearField f bits) (getList bits f ch file).2.1 := by
  have hloop := grows_getListLoop (clearField f bits) f ch file
  unfold getList
  dsimp only
  split <;> exact hloop

/-- A field, which is cleared before its list is read. -/
theorem grows_loadField (f : Field) (flag : Nat) (ecode : Ecode)
    (s : Sched) : Grows s.bits (loadField f flag ecode s).bits :=
  (grows_bitNclear ..).trans (grows_getList s.bits f s.ch s.file)

/-- Two parts of a schedule one after the other. -/
theorem grows_andThen {s : Sched} {k : Sched → Sched}
    (hk : Grows s.bits (k s).bits) :
    Grows s.bits (s.andThen k).bits := by
  unfold Sched.andThen
  split
  · exact hk
  · exact Grows.refl _

/-- The end of a schedule, with the second Sunday. -/
theorem grows_checkEol (s : Sched) : Grows s.bits (checkEol s).bits := by
  have hfold : Grows s.bits (foldSundays s.bits) := by
    unfold foldSundays
    split
    · exact (grows_bitSet _ _ _).trans (grows_bitSet _ _ _)
    · exact Grows.refl _
  unfold checkEol
  dsimp only
  split <;> exact hfold

-- ======================================================= the condition

/-- A bit index the macros were given for a field's bitmap is that of a
legal value, and its byte one of the field's own. -/
structure LegalBit (f : Field) (i : Nat) : Prop where
  index : i ≤ bitIndex (f.high - f.low)
  byte : bitByte i < bitstrSize (bitIndex (f.high - f.low) + 1)

/-- The line kept to its fields: every bit index written is a legal
value's, and no entry has another bit set in a bitmap. -/
structure Confined (b : Body) : Prop where
  touched : ∀ p ∈ b.bits.touched, ∃ f ∈ fields, f.name = p.1 ∧ LegalBit f p.2
  entry : ∀ e, b.verdict = .entry e → ∀ f ∈ fields, ∀ i,
    bitByte i < bitstrSize (bitIndex (f.high - f.low) + 1) →
    bitTest e.bits f.name i → i ≤ bitIndex (f.high - f.low)

/-- The nicknames that stand for five fields. -/
def timeNicknames : List (List UInt8) :=
  ["yearly", "annually", "monthly", "weekly", "daily", "midnight",
   "hourly"].map bytes

/-- The word behind the `@` of a nickname, as far as it is kept. -/
def nickname (t : List UInt8) : List UInt8 :=
  kept (t.takeWhile (isToken wordTerms))

/-- A schedule text that names no field: nothing at all, or an `@` with
anything but one of the time nicknames. -/
def namesNoField (t : List UInt8) : Prop :=
  t = [] ∨ (t.head? = some atSign ∧ nickname t.tail ∉ timeNicknames)

/-- An input whose first useful line writes to no field: there is none,
or it begins with a `-` that is refused or ends the file, or its schedule
names no field. -/
def fieldless (pw : Option Passwd) (t : List UInt8) : Prop :=
  if (usefulText t).head? = some dash then
    mayDisableLog pw = false ∨ namesNoField (usefulText t).tail
  else namesNoField (usefulText t)

-- ===================================================== what is written

/-- The stop of the range macros is no legal value of any field at that
address. -/
theorem not_legal_stopBit : ∀ f ∈ fields, ∀ g ∈ fields, g.name = f.name →
    ¬ stopBit f ≤ bitIndex (g.high - g.low) := by
  decide

/-- Clearing a field writes one bit too many. -/
theorem clearField_touched {f : Field} (hf : f ∈ fields)
    (bits : Bitmaps) :
    ∃ p ∈ (clearField f bits).touched,
      ¬ ∃ g ∈ fields, g.name = p.1 ∧ LegalBit g p.2 := by
  refine ⟨(f.name, stopBit f), ?_, ?_⟩
  · unfold clearField
    rw [touched_bitNclear]
    refine List.mem_append_right _ (List.mem_map.mpr ⟨stopBit f, ?_, rfl⟩)
    rw [bitRange, List.mem_range']
    exact ⟨stopBit f, by omega, by omega⟩
  · intro hgiven
    obtain ⟨g, hg, hname, hlegal⟩ := hgiven
    exact not_legal_stopBit f hf g hg hname hlegal.index

/-- So what the clearing of the minutes touches, one past the field, is
touched when all five have been read. -/
theorem grows_loadFields (s : Sched) :
    Grows (clearField minuteField s.bits) (loadFields s).bits := by
  have hmin : Grows (clearField minuteField s.bits)
      (loadField minuteField minStar .minute s).bits :=
    grows_getList s.bits minuteField s.ch s.file
  unfold loadFields
  have h1 := hmin.trans (grows_andThen
    (grows_loadField hourField hrStar .hour _))
  have h2 := h1.trans (grows_andThen
    (grows_loadField domField domStar .dom _))
  have h3 := h2.trans (grows_andThen
    (grows_loadField monthField monStar .month _))
  exact h3.trans (grows_andThen (grows_loadField dowField dowStar .dow _))

/-- Filling a field writes one bit too many. -/
theorem setAll_touched {f : Field} (hf : f ∈ fields) (bits : Bitmaps) :
    ∃ p ∈ (setAll f bits).touched,
      ¬ ∃ g ∈ fields, g.name = p.1 ∧ LegalBit g p.2 := by
  obtain ⟨p, hp, hbad⟩ := clearField_touched hf bits
  refine ⟨p, ?_, hbad⟩
  rw [clearField, touched_bitNclear] at hp
  rw [setAll, touched_bitNset]
  exact hp

/-- What is written early stays illegal. -/
theorem illegal_of_grows {m m' : Bitmaps}
    (hm : ∃ p ∈ m.touched, ¬ ∃ g ∈ fields, g.name = p.1 ∧ LegalBit g p.2)
    (hgrows : Grows m m') :
    ∃ p ∈ m'.touched, ¬ ∃ g ∈ fields, g.name = p.1 ∧ LegalBit g p.2 := by
  obtain ⟨p, hp, hbad⟩ := hm
  exact ⟨p, hgrows hp, hbad⟩

/-- What a nickname writes: a time nickname fills a field, the others
write nothing. -/
theorem setNickname_touched {cmd : List UInt8} {flags flags' : Nat}
    {bits : Bitmaps} (h : setNickname cmd .zero flags = some (bits, flags')) :
    (cmd ∈ timeNicknames ∧ ∃ p ∈ bits.touched,
        ¬ ∃ g ∈ fields, g.name = p.1 ∧ LegalBit g p.2)
      ∨ (cmd ∉ timeNicknames ∧ bits = .zero) := by
  have hdow := fun m => setAll_touched (f := dowField) (by simp [fields]) m
  have hmonth := fun m => setAll_touched (f := monthField) (by simp [fields]) m
  unfold setNickname at h
  dsimp only at h
  split_ifs at h with hreboot hyear hmonthly hweek hday hhour
  all_goals
    injection h with h
    injection h with hbits _
    rw [← hbits]
  · exact Or.inr ⟨by rw [hreboot]; decide, rfl⟩
  · refine Or.inl ⟨?_, hdow _⟩
    rcases hyear with rfl | rfl <;> decide
  · exact Or.inl ⟨by rw [hmonthly]; decide, hdow _⟩
  · exact Or.inl ⟨by rw [hweek]; decide,
      illegal_of_grows (hmonth _) (grows_bitSet _ _ _)⟩
  · refine Or.inl ⟨?_, hdow _⟩
    rcases hday with rfl | rfl <;> decide
  · exact Or.inl ⟨by rw [hhour]; decide, hdow _⟩

/-- An unknown nickname is no time nickname. -/
theorem setNickname_none {cmd : List UInt8} {bits : Bitmaps} {flags : Nat}
    (h : setNickname cmd bits flags = none) : cmd ∉ timeNicknames := by
  unfold setNickname at h
  dsimp only at h
  split_ifs at h with hreboot hyear hmonthly hweek hday hhour
  intro hmem
  simp only [timeNicknames, List.map_cons, List.map_nil, List.mem_cons,
    List.not_mem_nil, or_false] at hmem
  rcases hmem with hc | hc | hc | hc | hc | hc | hc
  · exact hyear (Or.inl hc)
  · exact hyear (Or.inr hc)
  · exact hmonthly hc
  · exact hweek hc
  · exact hday (Or.inl hc)
  · exact hday (Or.inr hc)
  · exact hhour hc

/-- The memory of a new entry is clear. -/
theorem bitTest_zero (name i : Nat) : bitTest .zero name i = false := by
  rw [bitTest_eq, bit_zero]

/-- Where no Sunday is set none is added. -/
theorem foldSundays_zero : foldSundays .zero = .zero := by
  simp [foldSundays, bitTest_zero]

/-- At the end of a schedule the two Sundays are made one, whether or not
the line goes on. -/
theorem checkEol_bits (s : Sched) :
    (checkEol s).bits = foldSundays s.bits := by
  unfold checkEol
  dsimp only
  split <;> rfl

-- ====================================================== the whole line

/-- The bitmaps of a line are those of its schedule, in an entry too. -/
theorem loadJob_bits (getpwnam : CString → Option Passwd)
    (pw : Option Passwd) (h : CHeap) (envp : Nat) (fname : String)
    (s : Sched) :
    (loadJob getpwnam pw h envp fname s).bits = s.bits
      ∧ ∀ e, (loadJob getpwnam pw h envp fname s).verdict = .entry e →
        e.bits = s.bits := by
  unfold loadJob
  split
  · exact ⟨rfl, fun e he => nomatch he⟩
  · split
    · exact ⟨rfl, fun e he => nomatch he⟩
    · split
      · dsimp only
        split
        · exact ⟨rfl, fun e he => nomatch he⟩
        · split
          · refine ⟨rfl, fun e he => ?_⟩
            injection he with he
            rw [← he]
          · exact ⟨rfl, fun e he => nomatch he⟩
      · exact ⟨rfl, fun e he => nomatch he⟩

/-- After the schedule no bit is touched any more, and an entry has the
bits of the schedule. -/
theorem loadLine_bits (getpwnam : CString → Option Passwd)
    (pw : Option Passwd) (h : CHeap) (envp : Nat) (fname : String)
    (flags : Nat) (ch : Option UInt8) (file : Stream) :
    (loadLine getpwnam pw h envp fname flags ch file).bits
        = (loadSchedule ⟨.none, .zero, flags, ch, file⟩).bits
      ∧ ∀ e, (loadLine getpwnam pw h envp fname flags ch file).verdict
          = .entry e →
        e.bits = (loadSchedule ⟨.none, .zero, flags, ch, file⟩).bits := by
  unfold loadLine
  dsimp only
  split
  · exact loadJob_bits ..
  · exact ⟨rfl, fun e he => nomatch he⟩

/-- A body that touches nothing is confined. -/
theorem confined_of_zero {b : Body} (hbits : b.bits = .zero)
    (hentry : ∀ e, b.verdict = .entry e → e.bits = .zero) : Confined b := by
  refine ⟨?_, ?_⟩
  · intro p hp
    rw [hbits] at hp
    cases hp
  · intro e he f _ i _ hset
    rw [hentry e he, bitTest_zero] at hset
    cases hset

/-- One that touches a bit outside all fields is not. -/
theorem not_confined {b : Body}
    (hb : ∃ p ∈ b.bits.touched,
      ¬ ∃ g ∈ fields, g.name = p.1 ∧ LegalBit g p.2) : ¬ Confined b := by
  intro hconf
  obtain ⟨p, hp, hbad⟩ := hb
  exact hbad (hconf.touched p hp)

/-- A nickname writes what `setNickname` writes. -/
theorem loadNickname_bits {s : Sched} {t : List UInt8}
    (hbits : s.bits = .zero) (hat : At s.ch s.file t) :
    (setNickname (nickname t.tail) .zero s.flags = none
        ∧ (loadNickname s).bits = .zero)
      ∨ ∃ flags, setNickname (nickname t.tail) .zero s.flags
        = some ((loadNickname s).bits, flags) := by
  obtain ⟨file', hget, -, -⟩ := getString_eq wordTerms s.file
  rw [hat.tail] at hget
  unfold loadNickname
  rw [show bytes " \t\n" = wordTerms from rfl, hget]
  dsimp only
  rw [ofBuf_kept_token, hbits]
  show (setNickname (nickname t.tail) .zero s.flags = none ∧ _) ∨ _
  split
  · next hnone => exact Or.inl ⟨hnone, rfl⟩
  · next bits flags hset => exact Or.inr ⟨flags, hset⟩

/-- A schedule that names no field writes nothing. -/
theorem loadSchedule_zero {s : Sched} {t : List UInt8}
    (hbits : s.bits = .zero) (hat : At s.ch s.file t)
    (hnone : t.head? = some atSign ∧ nickname t.tail ∉ timeNicknames) :
    (loadSchedule s).bits = .zero := by
  have hnick : (loadNickname s).bits = .zero := by
    rcases loadNickname_bits hbits hat with ⟨-, hzero⟩ | ⟨flags, hset⟩
    · exact hzero
    · rcases setNickname_touched hset with ⟨hmem, -⟩ | ⟨-, hzero⟩
      · exact absurd hmem hnone.2
      · exact hzero
  unfold loadSchedule Sched.andThen
  rw [hat.head, if_pos hnone.1]
  split
  · rw [checkEol_bits, hnick, foldSundays_zero]
  · exact hnick

/-- Any other schedule writes an illegal index. -/
theorem loadSchedule_illegal {s : Sched} {t : List UInt8}
    (hbits : s.bits = .zero) (hat : At s.ch s.file t)
    (hsome : ¬ namesNoField t) :
    ∃ p ∈ (loadSchedule s).bits.touched,
      ¬ ∃ g ∈ fields, g.name = p.1 ∧ LegalBit g p.2 := by
  unfold loadSchedule
  refine illegal_of_grows ?_ (grows_andThen (grows_checkEol _))
  rw [hat.head]
  by_cases hsign : t.head? = some atSign
  · rw [if_pos hsign]
    have hmem : nickname t.tail ∈ timeNicknames := by
      by_contra hc
      exact hsome (Or.inr ⟨hsign, hc⟩)
    rcases loadNickname_bits hbits hat with ⟨hset, -⟩ | ⟨flags, hset⟩
    · exact absurd hmem (setNickname_none hset)
    · rcases setNickname_touched hset with ⟨-, hbad⟩ | ⟨hnot, -⟩
      · exact hbad
      · exact absurd hmem hnot
  · rw [if_neg hsign]
    exact illegal_of_grows (clearField_touched (by simp [fields]) _)
      (grows_loadFields s)

/-- **A line** is confined if and only if its schedule is a nickname: the
first of the five fields is cleared one past its end. -/
theorem loadLine_confined (getpwnam : CString → Option Passwd)
    (pw : Option Passwd) (h : CHeap) (envp : Nat) (fname : String)
    (flags : Nat) {ch : Option UInt8} {file : Stream} {t : List UInt8}
    (hat : At ch file t) (hne : t ≠ []) :
    Confined (loadLine getpwnam pw h envp fname flags ch file)
      ↔ namesNoField t := by
  obtain ⟨hbits, hentry⟩ :=
    loadLine_bits getpwnam pw h envp fname flags ch file
  constructor
  · intro hconf
    by_contra hsome
    have hbad := loadSchedule_illegal
      (s := ⟨.none, .zero, flags, ch, file⟩) rfl hat hsome
    rw [← hbits] at hbad
    exact not_confined hbad hconf
  · intro hnone
    rcases hnone with hnil | hnone
    · exact absurd hnil hne
    have hzero := loadSchedule_zero
      (s := ⟨.none, .zero, flags, ch, file⟩) rfl hat hnone
    rw [hzero] at hbits hentry
    exact confined_of_zero hbits hentry

/-- **Which lines keep to their fields.** Exactly those that write to
none: every other line writes one past the end of a field, however it
ends. -/
theorem loadBody_confined_iff (getpwnam : CString → Option Passwd)
    (file : Stream) (pw : Option Passwd) (h : CHeap) (envp : Nat)
    (fname : String) :
    Confined (loadBody getpwnam file pw h envp fname)
      ↔ fieldless pw file.rest := by
  have hstop : ∀ (verdict : Verdict) ch file log,
      (∀ e, verdict ≠ .entry e) →
      Confined { verdict := verdict, bits := .zero, ch := ch, file := file,
                 heap := h, log := log } := by
    intro verdict ch file log hv
    exact confined_of_zero rfl fun e he => absurd he (hv e)
  obtain ⟨hrest, -⟩ := skipComments_rest file
  have hat := at_getChar (skipComments file)
  rw [hrest] at hat
  unfold loadBody fieldless
  dsimp only
  generalize getChar (skipComments file) = r at hat
  obtain ⟨ch, file1⟩ := r
  dsimp only at hat ⊢
  generalize usefulText file.rest = t at hat
  cases t with
  | nil =>
      obtain ⟨rfl, -⟩ := at_nil.mp hat
      rw [if_pos rfl, if_neg (by simp)]
      exact ⟨fun _ => Or.inl rfl, fun _ => hstop _ _ _ _ (by simp)⟩
  | cons c t' =>
      obtain ⟨rfl, hrest1⟩ := at_cons.mp hat
      rw [if_neg (by simp), List.head?_cons, List.tail_cons]
      by_cases hdash : c = dash
      · subst hdash
        rw [if_pos rfl, if_pos rfl]
        cases hpw : mayDisableLog pw with
        | false =>
            exact ⟨fun _ => Or.inl rfl, fun _ => hstop _ _ _ _ (by simp)⟩
        | true =>
            rw [if_pos rfl]
            have hat2 := at_getChar file1
            rw [hrest1] at hat2
            by_cases hend : t' = []
            · subst hend
              rw [if_pos (at_nil.mp hat2).1]
              exact ⟨fun _ => Or.inr (Or.inl rfl),
                fun _ => hstop _ _ _ _ (by simp)⟩
            · rw [if_neg (by rw [hat2.head]; simpa using hend),
                loadLine_confined getpwnam pw h envp fname dontLog hat2 hend]
              simp
      · rw [if_neg (fun hc => hdash (Option.some.inj hc)),
          if_neg (fun hc => hdash (Option.some.inj hc))]
        exact loadLine_confined getpwnam pw h envp fname 0 hat (by simp)

/-- The clearing of the minutes of an ordinary line writes bit 60. -/
theorem ordinary_line_not_confined :
    ¬ Confined (loadBody (fun _ => none)
      (Stream.ofBytes (bytes "0 0 * * 0 root true\n")) none
      (Heap.empty fun _ => true) 0 "crontab") := by
  refine not_confined ⟨(minuteField.name, 60), ?_, ?_⟩
  · decide +kernel
  · intro hgiven
    obtain ⟨g, hg, hname, hlegal⟩ := hgiven
    exact not_legal_stopBit minuteField (by simp [fields]) g hg hname
      hlegal.index

end Tinjac
