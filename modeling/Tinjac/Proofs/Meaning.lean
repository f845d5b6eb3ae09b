/-
The meaning of a well-formed line.

`JobLine` is a line of a system crontab as the manual has it: an
optional `-`, five lists of the grammar, a user and a command. Its text
is read by `load_entry` as an entry that means what the manual says
(`JobLine.Means`): each set holds the values its list denotes, with
Sunday under both its numbers; the star flags are those of the lists
that start with a star; the record is the user's without its password,
and the command is what follows the blank behind the user.

The five fields write one memory, one after the other, and each of them
clears one bit more than it owns. `filled_holds` says that none of this
shows: a field's values lie below everything a later field touches.
-/
import Tinjac.Proofs.Denote
import Tinjac.Proofs.Granted

namespace Tinjac

open Span BlockHeap CHeap

-- ================================================= a field of the line

namespace FieldList

variable {f : Field}

theorem fieldWord (hf : f ∈ fields) (l : FieldList f) :
    FieldWord (listText l.ranges) := by
  have hlist := l.word hf
  refine ⟨?_, ?_⟩
  · obtain ⟨c, t, htext, -⟩ := hlist.head
    rw [htext]
    exact List.cons_ne_nil c t
  · exact listText_nonblank fun r hr => (hlist.taken r hr).nonblank

theorem fieldWord_eq (hf : f ∈ fields) (l : FieldList f) (flag : Nat)
    (bits : Bitmaps) (flags : Nat) :
    Tinjac.fieldWord f flag (listText l.ranges) bits flags
      = some (fillField f l.ranges bits,
          starFlag flag (listText l.ranges) flags) := by
  have hword : wordList f (listText l.ranges) = some l.ranges := by
    unfold wordList
    rw [readRanges_done.mpr ⟨rfl, l.word hf⟩]
  unfold Tinjac.fieldWord fillField
  rw [hword]
  rfl

/-- The first character of the list is a star. -/
def Starred (l : FieldList f) : Prop :=
  (listText l.ranges).head? = some star

instance (l : FieldList f) : Decidable l.Starred :=
  inferInstanceAs (Decidable (_ = _))

end FieldList

-- ============================================================ the line

/-- A well-formed line of a system crontab: five lists of the grammar,
blanks between them, a username and a command, and perhaps the dash in
front. -/
structure JobLine where
  noLog : Bool
  minute : FieldList minuteField
  hour : FieldList hourField
  dom : FieldList domField
  month : FieldList monthField
  dow : FieldList dowField
  g1 : List UInt8
  g2 : List UInt8
  g3 : List UInt8
  g4 : List UInt8
  g5 : List UInt8
  gap1 : Gap g1
  gap2 : Gap g2
  gap3 : Gap g3
  gap4 : Gap g4
  gap5 : Gap g5
  user : List UInt8
  user_token : UserToken user
  user_short : user.length < maxCommand
  sep : UInt8
  sep_blank : isBlank sep = true
  cmd : List UInt8
  cmd_token : ∀ b ∈ cmd, isToken lineTerms b = true
  cmd_short : cmd.length < maxCommand

namespace JobLine

/-- The five lists, written out. -/
def words (l : JobLine) : FiveWords where
  w1 := listText l.minute.ranges
  w2 := listText l.hour.ranges
  w3 := listText l.dom.ranges
  w4 := listText l.month.ranges
  w5 := listText l.dow.ranges
  g1 := l.g1
  g2 := l.g2
  g3 := l.g3
  g4 := l.g4
  word1 := l.minute.fieldWord (by simp [fields])
  word2 := l.hour.fieldWord (by simp [fields])
  word3 := l.dom.fieldWord (by simp [fields])
  word4 := l.month.fieldWord (by simp [fields])
  word5 := l.dow.fieldWord (by simp [fields])
  gap1 := l.gap1
  gap2 := l.gap2
  gap3 := l.gap3
  gap4 := l.gap4

/-- What follows the schedule. -/
def job (l : JobLine) : List UInt8 :=
  l.user ++ (l.sep :: (l.cmd ++ [newline]))

/-- The line. -/
def text (l : JobLine) : List UInt8 :=
  (if l.noLog then [dash] else [])
    ++ (l.words.text ++ (l.g5 ++ l.job))

/-- The sets of the five lists. -/
def filled (l : JobLine) : Bitmaps :=
  fillField dowField l.dow.ranges
    (fillField monthField l.month.ranges
      (fillField domField l.dom.ranges
        (fillField hourField l.hour.ranges
          (fillField minuteField l.minute.ranges .zero))))

/-- The flags of the line. -/
def flags (l : JobLine) : Nat :=
  starFlag dowStar (listText l.dow.ranges)
    (starFlag monStar (listText l.month.ranges)
      (starFlag domStar (listText l.dom.ranges)
        (starFlag hrStar (listText l.hour.ranges)
          (starFlag minStar (listText l.minute.ranges)
            (if l.noLog then dontLog else 0)))))

theorem words_read (l : JobLine) :
    l.words.read (if l.noLog then dontLog else 0)
      = some (l.filled, l.flags) := by
  unfold FiveWords.read words filled flags
  dsimp only
  rw [l.minute.fieldWord_eq (by simp [fields]), Option.bind_some,
    l.hour.fieldWord_eq (by simp [fields]), Option.bind_some,
    l.dom.fieldWord_eq (by simp [fields]), Option.bind_some,
    l.month.fieldWord_eq (by simp [fields]), Option.bind_some,
    l.dow.fieldWord_eq (by simp [fields])]

end JobLine

-- ============================================================ the sets

/-- The fields lie behind each other. -/
theorem fields_apart : ∀ f ∈ fields, ∀ g ∈ fields, f.name < g.name →
    8 * f.name + (f.high.toInt - f.low.toInt).toNat < 8 * g.name := by
  decide

theorem Field.pos_lt {f g : Field} (hf : f ∈ fields) (hg : g ∈ fields)
    (hlt : f.name < g.name) {v : Int} (hhigh : v ≤ f.high.toInt) :
    f.pos v < 8 * g.name := by
  have hapart := fields_apart f hf g hg hlt
  unfold Field.pos
  omega

/-- A later field leaves the values of an earlier one alone. -/
theorem fillField_later {f g : Field} (hf : f ∈ fields)
    (hg : g ∈ fields) (hlt : f.name < g.name) (l : FieldList g)
    (bits : Bitmaps) {v : Int} (hhigh : v ≤ f.high.toInt) :
    (fillField g l.ranges bits).bit (f.pos v) = bits.bit (f.pos v) :=
  fillField_other hg l bits (Or.inl (Field.pos_lt hf hg hlt hhigh))

/-- The bitmaps hold this set of values of a field. -/
def Bitmaps.Holds (m : Bitmaps) (f : Field) (S : Int → Prop) : Prop :=
  ∀ v, f.low.toInt ≤ v → v ≤ f.high.toInt →
    (bitTest m f.name (v - f.low.toInt).toNat = true ↔ S v)

theorem Bitmaps.holds_iff {m : Bitmaps} {f : Field} {S : Int → Prop} :
    m.Holds f S ↔ ∀ v, f.low.toInt ≤ v → v ≤ f.high.toInt →
      (m.bit (f.pos v) = true ↔ S v) := by
  unfold Bitmaps.Holds Field.pos
  simp only [bitTest_eq]

/-- Sunday is 0 and 7: a set of weekdays has both or neither. -/
def SundayClosed (S : Int → Prop) (v : Int) : Prop :=
  S v ∨ ((v = 0 ∨ v = 7) ∧ (S 0 ∨ S 7))

theorem bit_foldSundays (bits : Bitmaps) (p : Nat) :
    (foldSundays bits).bit p = true
      ↔ bits.bit p = true
        ∨ ((p = dowField.pos 0 ∨ p = dowField.pos 7)
          ∧ (bits.bit (dowField.pos 0) = true
            ∨ bits.bit (dowField.pos 7) = true)) := by
  have h0 : dowField.pos 0 = 8 * dowField.name + 0 := rfl
  have h7 : dowField.pos 7 = 8 * dowField.name + 7 := rfl
  unfold foldSundays
  rw [bitTest_eq, bitTest_eq, ← h0, ← h7]
  split
  · next hsunday =>
    rw [bit_bitSet, bit_bitSet, ← h0, ← h7, Bool.or_eq_true,
      Bool.or_eq_true, decide_eq_true_eq, decide_eq_true_eq]
    constructor
    · intro h
      rcases h with h | h | h
      · exact Or.inr ⟨Or.inr h, hsunday⟩
      · exact Or.inr ⟨Or.inl h, hsunday⟩
      · exact Or.inl h
    · intro h
      rcases h with h | ⟨h | h, -⟩
      · exact Or.inr (Or.inr h)
      · exact Or.inr (Or.inl h)
      · exact Or.inl h
  · next hsunday =>
    constructor
    · exact Or.inl
    · intro h
      rcases h with h | ⟨-, h⟩
      · exact h
      · exact absurd h hsunday

theorem holds_foldSundays_dow {bits : Bitmaps} {S : Int → Prop}
    (h : bits.Holds dowField S) :
    (foldSundays bits).Holds dowField (SundayClosed S) := by
  rw [Bitmaps.holds_iff] at h ⊢
  intro v hlow hhigh
  have hv0 : dowField.low.toInt = 0 := rfl
  have hv7 : dowField.high.toInt = 7 := rfl
  rw [hv0] at hlow
  rw [hv7] at hhigh
  have hpos : ∀ u : Int, 0 ≤ u →
      (dowField.pos v = dowField.pos u ↔ v = u) := by
    intro u hu
    unfold Field.pos
    rw [hv0]
    omega
  rw [bit_foldSundays, h v (by omega) (by omega), h 0 (by decide) (by decide),
    h 7 (by decide) (by decide), hpos 0 (by decide), hpos 7 (by decide)]
  exact Iff.rfl

theorem holds_foldSundays {bits : Bitmaps} {f : Field} {S : Int → Prop}
    (hf : f ∈ fields) (hlt : f.name < dowField.name)
    (h : bits.Holds f S) : (foldSundays bits).Holds f S := by
  rw [Bitmaps.holds_iff] at h ⊢
  intro v hlow hhigh
  have hpos := Field.pos_lt hf (by simp [fields]) hlt hhigh
  rw [bit_foldSundays, ← h v hlow hhigh]
  constructor
  · intro hor
    rcases hor with hbit | ⟨h0 | h7, -⟩
    · exact hbit
    · rw [h0] at hpos
      exact absurd hpos (by decide)
    · rw [h7] at hpos
      exact absurd hpos (by decide)
  · exact Or.inl

namespace JobLine

/-- What a field was filled with is there after the later ones. -/
theorem filled_holds (l : JobLine) :
    l.filled.Holds minuteField l.minute.Denotes
      ∧ l.filled.Holds hourField l.hour.Denotes
      ∧ l.filled.Holds domField l.dom.Denotes
      ∧ l.filled.Holds monthField l.month.Denotes
      ∧ l.filled.Holds dowField l.dow.Denotes := by
  obtain ⟨h1, h2, h3, h4, h5⟩ : minuteField ∈ fields ∧ hourField ∈ fields
      ∧ domField ∈ fields ∧ monthField ∈ fields ∧ dowField ∈ fields := by
    simp [fields]
  simp only [Bitmaps.holds_iff]
  unfold filled
  refine ⟨?_, ?_, ?_, ?_, ?_⟩
  · intro v hlow hhigh
    rw [fillField_later h1 h5 (by decide) _ _ hhigh,
      fillField_later h1 h4 (by decide) _ _ hhigh,
      fillField_later h1 h3 (by decide) _ _ hhigh,
      fillField_later h1 h2 (by decide) _ _ hhigh]
    exact fillField_own h1 l.minute _ hlow hhigh
  · intro v hlow hhigh
    rw [fillField_later h2 h5 (by decide) _ _ hhigh,
      fillField_later h2 h4 (by decide) _ _ hhigh,
      fillField_later h2 h3 (by decide) _ _ hhigh]
    exact fillField_own h2 l.hour _ hlow hhigh
  · intro v hlow hhigh
    rw [fillField_later h3 h5 (by decide) _ _ hhigh,
      fillField_later h3 h4 (by decide) _ _ hhigh]
    exact fillField_own h3 l.dom _ hlow hhigh
  · intro v hlow hhigh
    rw [fillField_later h4 h5 (by decide) _ _ hhigh]
    exact fillField_own h4 l.month _ hlow hhigh
  · intro v hlow hhigh
    exact fillField_own h5 l.dow _ hlow hhigh

-- =========================================================== the flags

/-- Six flags, set one after the other, each show on their own. -/
theorem flags_apart : ∀ b0 b1 b2 b3 b4 b5 : Bool,
    let flag (b : Bool) (flag flags : Nat) : Nat :=
      if b then flags ||| flag else flags
    let fl := flag b5 dowStar (flag b4 monStar (flag b3 domStar
      (flag b2 hrStar (flag b1 minStar (if b0 then dontLog else 0)))))
    hasFlag fl dontLog = b0 ∧ hasFlag fl minStar = b1
      ∧ hasFlag fl hrStar = b2 ∧ hasFlag fl domStar = b3
      ∧ hasFlag fl monStar = b4 ∧ hasFlag fl dowStar = b5
      ∧ hasFlag fl whenReboot = false := by
  decide

theorem starFlag_eq (flag : Nat) (t : List UInt8) (flags : Nat) :
    starFlag flag t flags
      = if decide (t.head? = some star) = true then flags ||| flag
        else flags := by
  unfold starFlag
  simp

theorem flags_spec (l : JobLine) :
    hasFlag l.flags dontLog = l.noLog
      ∧ hasFlag l.flags minStar = decide l.minute.Starred
      ∧ hasFlag l.flags hrStar = decide l.hour.Starred
      ∧ hasFlag l.flags domStar = decide l.dom.Starred
      ∧ hasFlag l.flags monStar = decide l.month.Starred
      ∧ hasFlag l.flags dowStar = decide l.dow.Starred
      ∧ hasFlag l.flags whenReboot = false := by
  unfold flags FieldList.Starred
  simp only [starFlag_eq]
  exact flags_apart _ _ _ _ _ _

-- ============================================================ the line

/-- What the line means, when its user has this record. -/
structure Means (l : JobLine) (pw : Passwd) (e : Entry) : Prop where
  minute : e.bits.Holds minuteField l.minute.Denotes
  hour : e.bits.Holds hourField l.hour.Denotes
  dom : e.bits.Holds domField l.dom.Denotes
  month : e.bits.Holds monthField l.month.Denotes
  dow : e.bits.Holds dowField (SundayClosed l.dow.Denotes)
  minStar : hasFlag e.flags minStar = decide l.minute.Starred
  hrStar : hasFlag e.flags hrStar = decide l.hour.Starred
  domStar : hasFlag e.flags domStar = decide l.dom.Starred
  monStar : hasFlag e.flags monStar = decide l.month.Starred
  dowStar : hasFlag e.flags dowStar = decide l.dow.Starred
  dontLog : hasFlag e.flags dontLog = l.noLog
  whenReboot : hasFlag e.flags whenReboot = false
  pwd : e.pwd = { pw with pwPasswd := CString.ofBuf [] }
  cmd : e.cmd.bytes = l.cmd

/-- The first character of a line behind its `-`. -/
theorem words_cons (l : JobLine) :
    ∃ c t, l.words.text = c :: t ∧ l.words.w1.head? = some c
      ∧ (c = star ∨ isDigit c = true ∨ isAlpha c = true) := by
  obtain ⟨c, t, htext, hc⟩ := (l.minute.word (by simp [fields])).head
  have hw1 : l.words.w1 = c :: t := htext
  have hwords : l.words.text = c :: l.words.text.tail := by
    unfold FiveWords.text
    rw [hw1]
    rfl
  exact ⟨c, l.words.text.tail, hwords, by rw [hw1]; rfl, hc⟩

/-- The five lists as a schedule. -/
def schedule (l : JobLine) : Schedule :=
  .five l.words
    (by
      obtain ⟨c, t, -, hhead, hc⟩ := l.words_cons
      rw [hhead]
      intro h
      injection h with h
      rw [h] at hc
      exact absurd hc (by decide))
    (by
      obtain ⟨c, t, -, hhead, hc⟩ := l.words_cons
      rw [hhead]
      intro h
      injection h with h
      rw [h] at hc
      exact absurd hc (by decide))

/-- The schedule of the line is read as its lists, up to the user. -/
theorem readSchedule_words (l : JobLine) (more : List UInt8) :
    readSchedule (if l.noLog then dontLog else 0)
        (l.words.text ++ (l.g5 ++ (l.job ++ more)))
      = .accepted (foldSundays l.filled) l.flags (l.job ++ more) := by
  have hjob : l.job ++ more
      = l.user ++ (l.sep :: (l.cmd ++ newline :: more)) := by
    simp [job]
  rw [hjob]
  have hreads := l.schedule.readSchedule_reads
    (if l.noLog then dontLog else 0) l.gap5
    (l.user_token.stops_blank (l.sep :: (l.cmd ++ newline :: more)))
  have hread : l.schedule.read (if l.noLog then dontLog else 0)
      = some (l.filled, l.flags) := l.words_read
  rw [if_neg (l.user_token.not_endsEarly _), hread] at hreads
  exact hreads

/-- The whole line is read, its `-` first. -/
theorem readUseful_text (l : JobLine)
    (getpwnam : CString → Option Passwd) (h : CHeap) (envp : Nat)
    (fname : String) (more : List UInt8) :
    readUseful getpwnam none h envp fname (usefulText (l.text ++ more))
      = readJob getpwnam none h envp fname (foldSundays l.filled) l.flags
          (l.job ++ more) := by
  have hsched := l.readSchedule_words more
  obtain ⟨c, t, hwords, -, hc⟩ := l.words_cons
  have hnonblank : isNonblank c = true := by
    rcases hc with rfl | hc | hc
    · decide
    · exact isNonblank_of_isDigit hc
    · exact isNonblank_of_isAlpha hc
  have hhash : c ≠ hash := by
    intro heq
    rw [heq] at hc
    exact absurd hc (by decide)
  have hdash : c ≠ dash := by
    intro heq
    rw [heq] at hc
    exact absurd hc (by decide)
  have hline : ∀ flags,
      readSchedule flags (l.words.text ++ (l.g5 ++ (l.job ++ more)))
        = .accepted (foldSundays l.filled) l.flags (l.job ++ more) →
      readLine getpwnam none h envp fname flags
          (l.words.text ++ (l.g5 ++ (l.job ++ more)))
        = readJob getpwnam none h envp fname (foldSundays l.filled)
            l.flags (l.job ++ more) := by
    intro flags hflags
    unfold readLine
    rw [hflags]
  unfold text
  rw [List.append_assoc, List.append_assoc, List.append_assoc]
  cases hlog : l.noLog with
  | true =>
      rw [hlog] at hsched
      show readUseful getpwnam none h envp fname
        (usefulText (dash :: (l.words.text ++ (l.g5 ++ (l.job ++ more)))))
        = _
      rw [usefulText_cons (by decide) (by decide)]
      unfold readUseful
      dsimp only
      have hmay : mayDisableLog none = true := rfl
      rw [if_pos rfl, if_pos hmay, if_neg (by rw [hwords]; simp)]
      exact hline dontLog hsched
  | false =>
      rw [hlog] at hsched
      show readUseful getpwnam none h envp fname
        (usefulText (l.words.text ++ (l.g5 ++ (l.job ++ more)))) = _
      rw [hwords, List.cons_append, usefulText_cons hnonblank hhash]
      unfold readUseful
      dsimp only
      rw [if_neg hdash, ← List.cons_append, ← hwords]
      exact hline 0 hsched

end JobLine

/-- **The meaning of a well-formed line.** If its user is known and there
is memory, the line becomes an entry with the sets, the flags, the user
and the command that the line says, and whatever stands behind it is left
for the next call. -/
theorem loadEntry_wellFormed (l : JobLine)
    {getpwnam : CString → Option Passwd} {pw : Passwd}
    (hknown : getpwnam (CString.ofBuf l.user) = some pw) {h : CHeap}
    (hgranted : AllGranted h) {file : Stream} {more : List UInt8}
    (hrest : file.rest = l.text ++ more) (fuel : Nat) (errorFunc : Bool)
    (envp : Nat) (fname : String) :
    ∃ r e, loadEntry fuel getpwnam file errorFunc none h envp fname = some r
      ∧ r.entry = some e ∧ l.Means pw e ∧ r.file.rest = more := by
  obtain ⟨envp', h', log, hprep, hg'⟩ :=
    hgranted.prepareJob envp pw fname
  have huser : readUser getpwnam none (l.job ++ more)
      = .ok (pw, l.cmd ++ newline :: more,
          l.sep :: (l.cmd ++ newline :: more)) := by
    have hjob : l.job ++ more
        = l.user ++ (l.sep :: (l.cmd ++ newline :: more)) := by
      simp [JobLine.job]
    rw [hjob]
    exact readUser_system l.user_token hknown l.user_short l.sep_blank _
  have hstop : Stops (isToken lineTerms) (newline :: more) :=
    stops_cons.mpr (by decide)
  have hdrop := dropWhile_run l.cmd_token hstop
  have htake := takeWhile_run l.cmd_token hstop
  have hkept : kept l.cmd = l.cmd := by
    have hshort := l.cmd_short
    exact List.take_of_length_le (by unfold maxCommand at hshort ⊢; omega)
  have hread := l.readUseful_text getpwnam h envp fname more
  rw [readJob_granted huser (by rw [hdrop]; exact List.cons_ne_nil _ _)
    hprep (hg' _), hdrop, htake, hkept, ← hrest] at hread
  obtain ⟨file', hload, hleft⟩ := loadEntry_entry hread rfl fuel errorFunc
  refine ⟨_, _, hload, rfl, ?_, hleft⟩
  obtain ⟨h1, h2, h3, h4, h5⟩ := l.filled_holds
  obtain ⟨f0, f1, f2, f3, f4, f5, f6⟩ := l.flags_spec
  exact
    { minute := holds_foldSundays (by simp [fields]) (by decide) h1
      hour := holds_foldSundays (by simp [fields]) (by decide) h2
      dom := holds_foldSundays (by simp [fields]) (by decide) h3
      month := holds_foldSundays (by simp [fields]) (by decide) h4
      dow := holds_foldSundays_dow h5
      minStar := f1
      hrStar := f2
      domStar := f3
      monStar := f4
      dowStar := f5
      dontLog := f0
      whenReboot := f6
      pwd := rfl
      cmd := CString.ofBuf_bytes (nul_not_mem_of_token l.cmd_token) }

/-- A list of one range. -/
def FieldList.one {f : Field} (r : Range) (hstrict : r.Strict f)
    (hshort : r.Short) : FieldList f :=
  { ranges := [r]
    ne_nil := List.cons_ne_nil r []
    strict := fun q hq => by
      rw [List.mem_singleton.mp hq]
      exact hstrict
    short := fun q hq => by
      rw [List.mem_singleton.mp hq]
      exact hshort }

/-- The line `-*/15 * * jan * root true`. -/
def quarterLine : JobLine where
  noLog := true
  minute := .one (.star (some (bytes "15")))
    ⟨⟨by decide, by decide +kernel⟩, by decide⟩
    (by
      show (bytes "15").length ≤ 9
      decide)
  hour := .one (.star none) trivial trivial
  dom := .one (.star none) trivial trivial
  month := .one (.single (.name (bytes "jan")))
    ⟨⟨⟨by decide, by decide +kernel⟩, monthNames, rfl, by decide⟩,
      by decide, by decide⟩ trivial
  dow := .one (.star none) trivial trivial
  g1 := [space]
  g2 := [space]
  g3 := [tab]
  g4 := [space, tab]
  g5 := [space]
  gap1 := ⟨by decide, by decide +kernel⟩
  gap2 := ⟨by decide, by decide +kernel⟩
  gap3 := ⟨by decide, by decide +kernel⟩
  gap4 := ⟨by decide, by decide +kernel⟩
  gap5 := ⟨by decide, by decide +kernel⟩
  user := bytes "root"
  user_token := ⟨by decide, by decide +kernel, by decide⟩
  user_short := by decide
  sep := space
  sep_blank := by decide
  cmd := bytes "true"
  cmd_token := by decide +kernel
  cmd_short := by decide

/-- A line for every quarter of an hour in January: it is loaded as what
it says, and nothing is left behind it. -/
theorem quarterLine_loaded :
    ∃ r e, loadEntry 1 rootOnly (Stream.ofBytes quarterLine.text) false none
        freshHeap 0 "crontab" = some r
      ∧ r.entry = some e ∧ quarterLine.Means rootPasswd e
      ∧ r.file.rest = [] :=
  loadEntry_wellFormed quarterLine (by decide) (fun _ => rfl)
    (List.append_nil _).symm 1 false 0 "crontab"

end Tinjac
