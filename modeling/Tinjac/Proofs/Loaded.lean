/-
What an entry that `load_entry` returned looks like.

Its sets are those of a nickname, or of five lists the parser took. Such
a list need not be of the grammar, but it always sets a bit, and bits of
its own field only (`Within`, `Range.Taken.sets_some`): so minutes and
hours of an entry that is not `@reboot` are never empty
(`startsOver_of_loadEntry`), which is what keeps `printTime` from
carrying for ever.
-/
import Tinjac.Proofs.Meaning
import Tinjac.Proofs.Search

namespace Tinjac

open Span Progression BlockHeap CHeap

-- ========================================================== the fields

/-- A value of the field. -/
def Field.Has (f : Field) (v : Int) : Prop :=
  f.low.toInt ≤ v ∧ v ≤ f.high.toInt

/-- Bits of the field were set, and nothing else happened. -/
def Within (f : Field) (bits bits' : Bitmaps) : Prop :=
  ∀ p, (bits.bit p = true → bits'.bit p = true)
    ∧ (bits'.bit p = true →
      bits.bit p = true ∨ ∃ v, f.Has v ∧ p = f.pos v)

/-- Where nothing is set nothing is set outside the field. -/
theorem Within.refl (f : Field) (bits : Bitmaps) : Within f bits bits :=
  fun _ => ⟨id, Or.inl⟩

/-- Two writes that keep to a field keep to it together. -/
theorem Within.trans {f : Field} {bits bits' bits'' : Bitmaps}
    (h : Within f bits bits') (h' : Within f bits' bits'') :
    Within f bits bits'' := by
  intro p
  refine ⟨fun hp => (h' p).1 ((h p).1 hp), fun hp => ?_⟩
  rcases (h' p).2 hp with hp | hv
  · exact (h p).2 hp
  · exact Or.inr hv

/-- What `set_element` does not reject is a value of the field. -/
theorem not_out_iff {f : Field} {i : Int32} :
    ¬ (i < f.low ∨ f.high < i) ↔ f.Has i.toInt := by
  unfold Field.Has
  rw [Int32.lt_iff_toInt_lt, Int32.lt_iff_toInt_lt]
  omega

/-- An element of the field is set inside it. -/
theorem bitSet_within {f : Field} (hf : f ∈ fields) {i : Int32}
    (hin : f.Has i.toInt) (bits : Bitmaps) :
    Within f bits (bitSet bits f.name (bitIndex (i - f.low))) := by
  have hsets := bitSet_sets hf hin.1 hin.2 bits
  intro p
  rw [hsets p]
  refine ⟨Or.inl, fun hp => ?_⟩
  rcases hp with hp | ⟨v, hv, hpos⟩
  · exact Or.inl hp
  · exact Or.inr ⟨v, by rw [hv]; exact hin, hpos⟩

/-- The stepping loop keeps to the field: `set_element` stops it in time.
-/
theorem stepLoop_within {f : Field} (hf : f ∈ fields)
    (num2 num3 : Int32) (hne : num3 ≠ 0) (i : Int32) (bits : Bitmaps) :
    Within f bits (stepLoop f num2 num3 hne i bits).2 := by
  fun_induction stepLoop f num2 num3 hne i bits with
  | case1 i bits hle hset => exact Within.refl f bits
  | case2 i bits hle bits' hset ih =>
      obtain ⟨hin, rfl⟩ := setElement_eq_some hset
      exact (bitSet_within hf (not_out_iff.mp hin) bits).trans ih
  | case3 i bits hle => exact Within.refl f bits

/-- A stepping loop sets its first element. -/
theorem stepLoop_first {f : Field} (hf : f ∈ fields)
    {num2 num3 : Int32} (hne : num3 ≠ 0) {i : Int32} (hle : i ≤ num2)
    (hin : f.Has i.toInt) (bits : Bitmaps) :
    (stepLoop f num2 num3 hne i bits).2.bit (f.pos i.toInt) = true := by
  rw [stepLoop_in hle (not_out_iff.mpr hin)]
  refine (stepLoop_within hf num2 num3 hne (i + num3) _ _).1 ?_
  exact (bitSet_sets hf hin.1 hin.2 bits _).mpr (Or.inr ⟨_, rfl, rfl⟩)

/-- So does the whole loop. -/
theorem setStepping_within {f : Field} (hf : f ∈ fields)
    (num1 num2 num3 : Int32) (bits : Bitmaps) :
    Within f bits (setStepping f num1 num2 num3 bits).2 := by
  unfold setStepping
  split
  · exact Within.refl f bits
  · next hne => exact stepLoop_within hf num2 num3 hne num1 bits

/-- A range sets no bit outside its field. -/
theorem Range.apply_within {f : Field} (hf : f ∈ fields) (r : Range)
    (bits : Bitmaps) : Within f bits (r.apply f bits).2 := by
  cases r with
  | star step => exact setStepping_within hf _ _ _ bits
  | single x =>
      cases hset : setElement bits f (x.value f) with
      | none =>
          simp only [Range.apply, hset]
          exact Within.refl f bits
      | some bits' =>
          simp only [Range.apply, hset]
          obtain ⟨hin, rfl⟩ := setElement_eq_some hset
          exact bitSet_within hf (not_out_iff.mp hin) bits
  | span x y step => exact setStepping_within hf _ _ _ bits

/-- And so does a list of ranges. -/
theorem applyRanges_within {f : Field} (hf : f ∈ fields)
    (rs : List Range) (bits : Bitmaps) :
    Within f bits (applyRanges f rs bits) := by
  unfold applyRanges
  induction rs generalizing bits with
  | nil => exact Within.refl f bits
  | cons r rs ih => exact (r.apply_within hf bits).trans (ih _)

/-- A range that is taken sets a bit of its field. -/
theorem Range.Taken.sets_some {f : Field} (hf : f ∈ fields) {r : Range}
    (hr : r.Taken f) (bits : Bitmaps) :
    ∃ v, f.Has v ∧ (r.apply f bits).2.bit (f.pos v) = true := by
  have hstepping : ∀ {num1 num2 : Int32} {step : Option (List UInt8)},
      num1 ≤ num2 → f.Has num1.toInt → StepTaken step →
      ∃ v, f.Has v ∧ (setStepping f num1 num2 (stepValue step)
        bits).2.bit (f.pos v) = true := by
    intro num1 num2 step hle hin hstep
    have hne : stepValue step ≠ 0 := by
      cases step with
      | none => decide
      | some n => exact hstep.2
    refine ⟨num1.toInt, hin, ?_⟩
    unfold setStepping
    rw [dif_neg hne]
    exact stepLoop_first hf hne hle hin bits
  cases r with
  | star step =>
      have hle := low_le_high f hf
      exact hstepping (Int32.le_iff_toInt_le.mpr hle)
        ⟨Int.le_refl _, hle⟩ hr.1
  | single x =>
      have hin := single_in_field hr.2
      refine ⟨(x.value f).toInt, not_out_iff.mp hin, ?_⟩
      simp only [Range.apply, setElement_in bits hin]
      obtain ⟨hlow, hhigh⟩ := not_out_iff.mp hin
      exact (bitSet_sets hf hlow hhigh bits _).mpr (Or.inr ⟨_, rfl, rfl⟩)
  | span x y step =>
      obtain ⟨-, -, hle, hstep, hfits⟩ := hr
      have hin := first_in_field hle hfits
      exact hstepping (Int32.not_lt.mp hle) (not_out_iff.mp hin) hstep

/-- A list that is accepted sets a bit of its field. -/
theorem fillField_some {f : Field} (hf : f ∈ fields) {rs : List Range}
    {next : List UInt8} (h : ListTaken f rs next) (bits : Bitmaps) :
    ∃ v, f.Has v ∧ (fillField f rs bits).bit (f.pos v) = true := by
  obtain ⟨r, rs, rfl⟩ := List.exists_cons_of_ne_nil h.ne_nil
  have hr := h.taken r List.mem_cons_self
  obtain ⟨v, hv, hbit⟩ := hr.sets_some hf (clearField f bits)
  exact ⟨v, hv, (applyRanges_within hf rs _ _).1 hbit⟩

/-- Nothing but values of the field is new. -/
theorem fillField_bit {f : Field} (hf : f ∈ fields) {rs : List Range}
    {bits : Bitmaps} {p : Nat} (h : (fillField f rs bits).bit p = true) :
    bits.bit p = true ∨ ∃ v, f.Has v ∧ p = f.pos v := by
  rcases (applyRanges_within hf rs (clearField f bits) p).2 h with hp | hv
  · unfold clearField at hp
    rw [bit_bitNclear bits (Nat.zero_le _), Bool.and_eq_true] at hp
    exact Or.inl hp.1
  · exact Or.inr hv

/-- A later field keeps the values of an earlier one. -/
theorem fillField_keeps {f g : Field} (hf : f ∈ fields)
    (hg : g ∈ fields) (hlt : f.name < g.name) (rs : List Range)
    {bits : Bitmaps} {v : Int} (hv : f.Has v)
    (hbit : bits.bit (f.pos v) = true) :
    (fillField g rs bits).bit (f.pos v) = true := by
  have hpos := Field.pos_lt hf hg hlt hv.2
  refine (applyRanges_within hg rs _ _).1 ?_
  unfold clearField
  rw [bit_bitNclear bits (Nat.zero_le _), hbit]
  have hout : inRange g.name 0 (stopBit g) (f.pos v) = false := by
    unfold inRange
    rw [decide_eq_false_iff_not]
    omega
  rw [hout]
  rfl

/-- Making the two Sundays one clears no bit. -/
theorem foldSundays_keeps {bits : Bitmaps} {p : Nat}
    (h : bits.bit p = true) : (foldSundays bits).bit p = true :=
  (bit_foldSundays bits p).mpr (Or.inl h)

-- ========================================================= the entries

/-- The sets of five lists that were taken one after the other. -/
inductive FieldSets (bits : Bitmaps) : Prop
  | mk (rs1 rs2 rs3 rs4 rs5 : List Range) (n1 n2 n3 n4 n5 : List UInt8)
      (h1 : ListTaken minuteField rs1 n1) (h2 : ListTaken hourField rs2 n2)
      (h3 : ListTaken domField rs3 n3) (h4 : ListTaken monthField rs4 n4)
      (h5 : ListTaken dowField rs5 n5)
      (hbits : bits = fillField dowField rs5 (fillField monthField rs4
        (fillField domField rs3 (fillField hourField rs2
          (fillField minuteField rs1 .zero)))))

/-- Every bit of five lists is a value of some field. -/
theorem FieldSets.bit_in_field {bits : Bitmaps} (h : FieldSets bits)
    {p : Nat} (hp : bits.bit p = true) :
    ∃ f ∈ fields, ∃ v, f.Has v ∧ p = f.pos v := by
  obtain ⟨rs1, rs2, rs3, rs4, rs5, n1, n2, n3, n4, n5, hl1, hl2, hl3,
    hl4, hl5, rfl⟩ := h
  obtain ⟨h1, h2, h3, h4, h5⟩ : minuteField ∈ fields
      ∧ hourField ∈ fields ∧ domField ∈ fields ∧ monthField ∈ fields
      ∧ dowField ∈ fields := by
    simp [fields]
  rcases fillField_bit h5 hp with hp | hv
  · rcases fillField_bit h4 hp with hp | hv
    · rcases fillField_bit h3 hp with hp | hv
      · rcases fillField_bit h2 hp with hp | hv
        · rcases fillField_bit h1 hp with hp | hv
          · rw [Bitmaps.bit_zero] at hp
            cases hp
          · exact ⟨minuteField, h1, hv⟩
        · exact ⟨hourField, h2, hv⟩
      · exact ⟨domField, h3, hv⟩
    · exact ⟨monthField, h4, hv⟩
  · exact ⟨dowField, h5, hv⟩

/-- A position no field has. -/
theorem FieldSets.bit_outside {bits : Bitmaps} (h : FieldSets bits)
    {p : Nat}
    (hout : ∀ f ∈ fields, p < 8 * f.name
      ∨ 8 * f.name + (f.high.toInt - f.low.toInt).toNat < p) :
    (foldSundays bits).bit p = false := by
  have hno : ∀ f ∈ fields, ∀ v, f.Has v → p ≠ f.pos v := by
    intro f hf v hv hpos
    have hpos' : p = 8 * f.name + (v - f.low.toInt).toNat := hpos
    have hlow := hv.1
    have hhigh := hv.2
    rcases hout f hf with hlt | hlt
    · omega
    · omega
  rw [← Bool.not_eq_true, bit_foldSundays]
  intro hp
  rcases hp with hp | ⟨hp | hp, -⟩
  · obtain ⟨f, hf, v, hv, hpos⟩ := h.bit_in_field hp
    exact hno f hf v hv hpos
  · exact hno dowField (by simp [fields]) 0 ⟨by decide, by decide⟩ hp
  · exact hno dowField (by simp [fields]) 7 ⟨by decide, by decide⟩ hp

/-- A field that is accepted has a list, and the bits of it. -/
theorem readField_accepted {f : Field} {flag : Nat} {ecode : Ecode}
    {bits bits' : Bitmaps} {flags flags' : Nat} {t next : List UInt8}
    (h : readField f flag ecode bits flags t
      = .accepted bits' flags' next) :
    ∃ rs after, ListTaken f rs after ∧ bits' = fillField f rs bits := by
  unfold readField at h
  cases hread : readList f t with
  | done rs nx =>
      rw [hread] at h
      injection h with hbits
      obtain ⟨after, -, hlist, -⟩ := readList_done.mp hread
      exact ⟨rs, after, hlist, hbits.symm⟩
  | fail left =>
      rw [hread] at h
      cases h
  | eaten nx =>
      rw [hread] at h
      cases h

/-- Five fields that are accepted have five lists, and the bits of them.
-/
theorem readFields_accepted {flags flags' : Nat} {bits : Bitmaps}
    {t next : List UInt8}
    (h : readFields flags t = .accepted bits flags' next) :
    FieldSets bits := by
  unfold readFields at h
  obtain ⟨b4, f4, n4, h, hdow⟩ := SchedText.bind_accepted h
  obtain ⟨b3, f3, n3, h, hmonth⟩ := SchedText.bind_accepted h
  obtain ⟨b2, f2, n2, h, hdom⟩ := SchedText.bind_accepted h
  obtain ⟨b1, f1, n1, hminute, hhour⟩ := SchedText.bind_accepted h
  obtain ⟨rs1, a1, h1, rfl⟩ := readField_accepted hminute
  obtain ⟨rs2, a2, h2, rfl⟩ := readField_accepted hhour
  obtain ⟨rs3, a3, h3, rfl⟩ := readField_accepted hdom
  obtain ⟨rs4, a4, h4, rfl⟩ := readField_accepted hmonth
  obtain ⟨rs5, a5, h5, rfl⟩ := readField_accepted hdow
  exact ⟨rs1, rs2, rs3, rs4, rs5, a1, a2, a3, a4, a5, h1, h2, h3, h4, h5,
    rfl⟩

/-- A nickname that is accepted is one of those that are known. -/
theorem readNickname_accepted {flags flags' : Nat} {bits : Bitmaps}
    {t next : List UInt8}
    (h : readNickname flags t = .accepted bits flags' next) :
    ∃ w, setNickname w .zero flags = some (bits, flags') := by
  unfold readNickname at h
  dsimp only at h
  split at h
  · cases h
  · next b fl hnick =>
    split at h
    · cases h
    · injection h with hbits hflags
      rw [hbits, hflags] at hnick
      exact ⟨_, hnick⟩

/-- Where the bits of an accepted schedule come from: a nickname or five
lists, and the Sundays made one. -/
theorem readSchedule_accepted {flags flags' : Nat} {bits : Bitmaps}
    {t next : List UInt8}
    (h : readSchedule flags t = .accepted bits flags' next) :
    ∃ b, ((∃ w, setNickname w .zero flags = some (b, flags'))
        ∨ FieldSets b)
      ∧ bits = foldSundays b := by
  unfold readSchedule at h
  obtain ⟨b, fl, nx, hread, heol⟩ := SchedText.bind_accepted h
  unfold readEol at heol
  split at heol
  · cases heol
  · injection heol with hbits hflags
    refine ⟨b, ?_, hbits.symm⟩
    rw [← hflags]
    split at hread
    · exact Or.inl (readNickname_accepted hread)
    · exact Or.inr (readFields_accepted hread)

/-- Username and command add nothing to the bits and flags. -/
theorem readJob_entry {getpwnam : CString → Option Passwd}
    {pw : Option Passwd} {h : CHeap} {envp : Nat} {fname : String}
    {bits : Bitmaps} {flags : Nat} {t : List UInt8} {e : Entry}
    (he : (readJob getpwnam pw h envp fname bits flags t).verdict
      = .entry e) : e.bits = bits ∧ e.flags = flags := by
  obtain ⟨pw', t', stand, huser, hcmd, envp', h', log, hprep, hg⟩ :=
    readJob_entry_iff.mp ⟨e, he⟩
  rw [readJob_granted huser hcmd hprep hg] at he
  injection he with he
  rw [← he]
  exact ⟨rfl, rfl⟩

/-- So an entry has the bits and flags of its schedule. -/
theorem readLine_entry {getpwnam : CString → Option Passwd}
    {pw : Option Passwd} {h : CHeap} {envp : Nat} {fname : String}
    {flags : Nat} {t : List UInt8} {e : Entry}
    (he : (readLine getpwnam pw h envp fname flags t).verdict
      = .entry e) :
    ∃ next, readSchedule flags t = .accepted e.bits e.flags next := by
  unfold readLine at he
  cases hsched : readSchedule flags t with
  | accepted bits fl next =>
      rw [hsched] at he
      obtain ⟨hbits, hflags⟩ := readJob_entry he
      rw [hbits, hflags]
      exact ⟨next, rfl⟩
  | rejected ecode left =>
      rw [hsched] at he
      cases he

/-- The schedule of every entry that `load_entry` returns. -/
theorem loadEntry_schedule {fuel : Nat}
    {getpwnam : CString → Option Passwd} {file : Stream}
    {errorFunc : Bool} {pw : Option Passwd} {h : CHeap} {envp : Nat}
    {fname : String} {r : LoadResult} {e : Entry}
    (hload : loadEntry fuel getpwnam file errorFunc pw h envp fname
      = some r) (he : r.entry = some e) :
    ∃ flags t next, (flags = 0 ∨ flags = dontLog)
      ∧ readSchedule flags t = .accepted e.bits e.flags next := by
  have hentry := entry_of_loadEntry hload he
  revert hentry
  apply readUseful_cases (P := fun b => b.verdict = .entry e →
    ∃ flags t next, (flags = 0 ∨ flags = dontLog)
      ∧ readSchedule flags t = .accepted e.bits e.flags next)
  · exact fun hentry => by cases hentry
  · exact fun left _ hentry => by cases hentry
  · intro flags t hflags hentry
    obtain ⟨next, hsched⟩ := readLine_entry hentry
    exact ⟨flags, t, next, hflags, hsched⟩

/-- The origin of every entry that `load_entry` returns: a nickname and
the flags of the `-` option, or five lists. -/
theorem loadEntry_origin {fuel : Nat}
    {getpwnam : CString → Option Passwd} {file : Stream}
    {errorFunc : Bool} {pw : Option Passwd} {h : CHeap} {envp : Nat}
    {fname : String} {r : LoadResult} {e : Entry}
    (hload : loadEntry fuel getpwnam file errorFunc pw h envp fname
      = some r) (he : r.entry = some e) :
    ∃ b, ((∃ w flags, (flags = 0 ∨ flags = dontLog)
          ∧ setNickname w .zero flags = some (b, e.flags))
        ∨ FieldSets b)
      ∧ e.bits = foldSundays b := by
  obtain ⟨flags, t, next, hflags, hsched⟩ := loadEntry_schedule hload he
  obtain ⟨b, hfrom, hbits⟩ := readSchedule_accepted hsched
  refine ⟨b, hfrom.imp_left fun ⟨w, hnick⟩ => ⟨w, flags, hflags, hnick⟩,
    hbits⟩

-- =================================================== minutes and hours

/-- A flag that was set is there. -/
theorem hasFlag_or (flags flag : Nat) :
    hasFlag (flags ||| flag) flag = (flag != 0) := by
  unfold hasFlag
  congr 1
  apply Nat.eq_of_testBit_eq
  intro i
  rw [Nat.testBit_and, Nat.testBit_or]
  cases flag.testBit i with
  | true => simp
  | false => simp

/-- The flags of a line are carried along by a nickname. -/
theorem setNickname_flags (w : List UInt8) (bits : Bitmaps)
    (flags : Nat) :
    setNickname w bits flags
      = (setNickname w bits 0).map fun r => (r.1, flags ||| r.2) := by
  unfold setNickname
  simp only [Nat.zero_or]
  repeat' split
  all_goals simp

/-- A nickname other than `@reboot` sets the first minute, and an
hour. -/
theorem nickname_sets : ∀ w ∈ nicknames, w ≠ bytes "reboot" →
    (setNickname w .zero 0).all (fun r =>
      bitTest (foldSundays r.1) minuteField.name 0
        && bitTest (foldSundays r.1) hourField.name 0) = true := by
  decide +kernel

/-- A search that starts over at midnight finds a minute and an hour if
each field has a bit in its range. -/
theorem startsOver_of_bits {e : Entry} {i j : Nat}
    (hi : bitTest e.bits hourField.name i = true) (hi23 : i ≤ 23)
    (hj : bitTest e.bits minuteField.name j = true) (hj59 : j ≤ 59) :
    e.StartsOver := by
  refine ⟨?_, ?_⟩
  · unfold Entry.hourAt
    split
    · simp
    · intro hnone
      rw [scan_eq_none.mp hnone i (Nat.zero_le _) hi23] at hi
      cases hi
  · unfold Entry.minuteAt
    split
    · simp
    · intro hnone
      rw [scan_eq_none.mp hnone j (Nat.zero_le _) hj59] at hj
      cases hj

/-- Every nickname but `@reboot` has them. -/
theorem nickname_startsOver {w : List UInt8} {flags flags' : Nat}
    {b : Bitmaps} (hnick : setNickname w .zero flags = some (b, flags'))
    (hne : w ≠ bytes "reboot") {e : Entry} (hbits : e.bits = foldSundays b) :
    e.StartsOver := by
  have hknown : w ∈ nicknames :=
    setNickname_isSome.mp (Option.isSome_iff_exists.mpr ⟨_, hnick⟩)
  rw [setNickname_flags] at hnick
  obtain ⟨⟨b0, fl0⟩, hzero, heq⟩ := Option.map_eq_some_iff.mp hnick
  injection heq with hb _
  have hsets := nickname_sets w hknown hne
  rw [hzero, Option.all_some, Bool.and_eq_true, hb, ← hbits] at hsets
  exact startsOver_of_bits hsets.2 (by decide) hsets.1 (by decide)

/-- And so have five fields: a list that is accepted is not empty. -/
theorem FieldSets.startsOver {b : Bitmaps} (hfields : FieldSets b)
    {e : Entry} (hbits : e.bits = foldSundays b) : e.StartsOver := by
  obtain ⟨rs1, rs2, rs3, rs4, rs5, n1, n2, n3, n4, n5, hl1, hl2, hl3,
    hl4, hl5, rfl⟩ := hfields
  obtain ⟨h1, h2, h3, h4, h5⟩ : minuteField ∈ fields
      ∧ hourField ∈ fields ∧ domField ∈ fields ∧ monthField ∈ fields
      ∧ dowField ∈ fields := by
    simp [fields]
  obtain ⟨v, hv, hminute⟩ := fillField_some h1 hl1 .zero
  obtain ⟨u, hu, hhour⟩ :=
    fillField_some h2 hl2 (fillField minuteField rs1 .zero)
  have hminute' := foldSundays_keeps
    (fillField_keeps h1 h5 (by decide) rs5 hv
      (fillField_keeps h1 h4 (by decide) rs4 hv
        (fillField_keeps h1 h3 (by decide) rs3 hv
          (fillField_keeps h1 h2 (by decide) rs2 hv hminute))))
  have hhour' := foldSundays_keeps
    (fillField_keeps h2 h5 (by decide) rs5 hu
      (fillField_keeps h2 h4 (by decide) rs4 hu
        (fillField_keeps h2 h3 (by decide) rs3 hu hhour)))
  rw [← hbits] at hminute' hhour'
  have hv59 : v ≤ 59 := hv.2
  have hu23 : u ≤ 23 := hu.2
  have hv0 : minuteField.low.toInt = 0 := rfl
  have hu0 : hourField.low.toInt = 0 := rfl
  unfold Field.pos at hminute' hhour'
  rw [← bitTest_eq] at hminute' hhour'
  rw [hv0] at hminute'
  rw [hu0] at hhour'
  exact startsOver_of_bits hhour' (by omega) hminute' (by omega)

/-- **Hours and minutes are never empty** but for `@reboot`. -/
theorem startsOver_of_loadEntry {fuel : Nat}
    {getpwnam : CString → Option Passwd} {file : Stream}
    {errorFunc : Bool} {pw : Option Passwd} {h : CHeap} {envp : Nat}
    {fname : String} {r : LoadResult} {e : Entry}
    (hload : loadEntry fuel getpwnam file errorFunc pw h envp fname
      = some r) (he : r.entry = some e)
    (hreboot : hasFlag e.flags whenReboot = false) : e.StartsOver := by
  obtain ⟨b, horigin, hbits⟩ := loadEntry_origin hload he
  rcases horigin with ⟨w, flags, -, hnick⟩ | hfields
  · have hne : w ≠ bytes "reboot" := by
      intro hw
      rw [hw] at hnick
      injection hnick with hnick
      injection hnick with _ hflags
      rw [← hflags, hasFlag_or] at hreboot
      exact absurd hreboot (by decide)
    exact nickname_startsOver hnick hne hbits
  · exact hfields.startsOver hbits

end Tinjac
