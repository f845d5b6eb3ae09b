/-
A schedule is read off its own text.

The schedule of a line is five words with gaps between them, or an `@`
and a nickname. Whether it is taken, and which sets and flags it means
(`Schedule.read`), depends on that text alone; what comes behind only
decides whether the line ends too early (`Schedule.readSchedule_reads`).
So a line is a schedule and a job, and results about the two halves put
together are results about the line.
-/
import Tinjac.Proofs.Locality

namespace Tinjac

open Span BlockHeap CHeap

-- ========================================================== five words

/-- Five words with gaps between them. -/
structure FiveWords where
  w1 : List UInt8
  w2 : List UInt8
  w3 : List UInt8
  w4 : List UInt8
  w5 : List UInt8
  g1 : List UInt8
  g2 : List UInt8
  g3 : List UInt8
  g4 : List UInt8
  word1 : FieldWord w1
  word2 : FieldWord w2
  word3 : FieldWord w3
  word4 : FieldWord w4
  word5 : FieldWord w5
  gap1 : Gap g1
  gap2 : Gap g2
  gap3 : Gap g3
  gap4 : Gap g4

namespace FiveWords

/-- The text of the five words. -/
def text (s : FiveWords) : List UInt8 :=
  s.w1 ++ (s.g1 ++ (s.w2 ++ (s.g2 ++ (s.w3 ++ (s.g3 ++ (s.w4 ++ (s.g4
    ++ s.w5)))))))

/-- What the five fields make of the five words. -/
def read (s : FiveWords) (flags : Nat) : Option (Bitmaps × Nat) :=
  ((((fieldWord minuteField minStar s.w1 .zero flags).bind
    fun r => fieldWord hourField hrStar s.w2 r.1 r.2).bind
    fun r => fieldWord domField domStar s.w3 r.1 r.2).bind
    fun r => fieldWord monthField monStar s.w4 r.1 r.2).bind
    fun r => fieldWord dowField dowStar s.w5 r.1 r.2

/-- The five fields on five words with a gap behind them. -/
theorem readFields_reads (s : FiveWords) (flags : Nat)
    {gap l : List UInt8} (hgap : Gap gap) (hl : Stops isBlank l) :
    (readFields flags (s.text ++ (gap ++ l))).Reads
      (if l = [] then none else s.read flags) l := by
  have hread : (if l = [] then none else s.read flags)
      = ((((fieldWord minuteField minStar s.w1 .zero flags).bind
        fun r => fieldWord hourField hrStar s.w2 r.1 r.2).bind
        fun r => fieldWord domField domStar s.w3 r.1 r.2).bind
        fun r => fieldWord monthField monStar s.w4 r.1 r.2).bind
        fun r => if l = [] then none
          else fieldWord dowField dowStar s.w5 r.1 r.2 := by
    by_cases hne : l = []
    · simp [hne]
    · simp only [if_neg hne]
      rfl
  rw [hread]
  unfold readFields text
  simp only [List.append_assoc]
  exact .bind (.bind (.bind (.bind
    (readField_reads_word _ _ _ _ _ s.word1 s.gap1 s.word2)
    fun b fl => readField_reads_word _ _ _ b fl s.word2 s.gap2 s.word3)
    fun b fl => readField_reads_word _ _ _ b fl s.word3 s.gap3 s.word4)
    fun b fl => readField_reads_word _ _ _ b fl s.word4 s.gap4 s.word5)
    fun b fl => readField_reads _ _ _ b fl s.word5 hgap hl

/-- Every word starts with a list its field takes; what follows the list
in the word is passed over. -/
def Taken (s : FiveWords) : Prop :=
  WordTaken minuteField s.w1 ∧ WordTaken hourField s.w2
    ∧ WordTaken domField s.w3 ∧ WordTaken monthField s.w4
    ∧ WordTaken dowField s.w5

theorem read_isSome {s : FiveWords} {flags : Nat} :
    (s.read flags).isSome = true ↔ s.Taken := by
  unfold read Taken
  simp only [Option.isSome_iff_exists, Option.bind_eq_some_iff,
    fieldWord_eq_some, ← wordList_isSome, Prod.exists]
  constructor
  · intro hgiven
    obtain ⟨_, _, _, _, ⟨_, _, ⟨_, _, ⟨_, _, h1, h2⟩, h3⟩, h4⟩, h5⟩ := hgiven
    exact ⟨h1.imp fun _ h => h.1, h2.imp fun _ h => h.1,
      h3.imp fun _ h => h.1, h4.imp fun _ h => h.1, h5.imp fun _ h => h.1⟩
  · intro hgiven
    obtain ⟨⟨_, h1⟩, ⟨_, h2⟩, ⟨_, h3⟩, ⟨_, h4⟩, ⟨_, h5⟩⟩ := hgiven
    exact ⟨_, _, _, _, ⟨_, _, ⟨_, _, ⟨_, _, ⟨_, h1, rfl⟩, ⟨_, h2, rfl⟩⟩,
      ⟨_, h3, rfl⟩⟩, ⟨_, h4, rfl⟩⟩, ⟨_, h5, rfl⟩⟩

end FiveWords

-- =========================================================== nicknames

theorem isToken_of_isBlank {c : UInt8} (h : isBlank c = true) :
    isToken wordTerms c = false := by
  unfold isBlank at h
  rw [Bool.or_eq_true, beq_iff_eq, beq_iff_eq] at h
  rcases h with rfl | rfl <;> rfl

/-- The nicknames `load_entry` knows. -/
def nicknames : List (List UInt8) :=
  ["reboot", "yearly", "annually", "monthly", "weekly", "daily",
   "midnight", "hourly"].map bytes

theorem setNickname_isSome {w : List UInt8} {bits : Bitmaps}
    {flags : Nat} :
    (setNickname w bits flags).isSome = true ↔ w ∈ nicknames := by
  unfold setNickname
  simp only [nicknames, List.map_cons, List.map_nil, List.mem_cons,
    List.not_mem_nil, or_false]
  constructor
  · intro h
    by_contra hw
    simp only [not_or] at hw
    obtain ⟨h1, h2, h3, h4, h5, h6, h7, h8⟩ := hw
    simp [h1, h2, h3, h4, h5, h6, h7, h8] at h
  · intro h
    rcases h with rfl | rfl | rfl | rfl | rfl | rfl | rfl | rfl <;> rfl

/-- A nickname fits the buffer; what is cut off is none. -/
theorem kept_mem_nicknames {w : List UInt8} :
    kept w ∈ nicknames ↔ w ∈ nicknames := by
  have hshort : ∀ n ∈ nicknames, n.length ≤ 8 := by decide
  unfold kept maxCommand
  by_cases hlong : w.length ≤ 131072 - 1
  · rw [List.take_of_length_le hlong]
  · constructor
    · intro h
      have hlen := hshort _ h
      rw [List.length_take] at hlen
      omega
    · intro h
      have hlen := hshort _ h
      omega

-- =========================================================== schedules

/-- A schedule as it is written: a nickname, or five words with gaps
between them. -/
inductive Schedule
  | five (s : FiveWords) (no_dash : s.w1.head? ≠ some dash)
      (no_at : s.w1.head? ≠ some atSign)
  | nickname (w : List UInt8) (token : ∀ c ∈ w, isToken wordTerms c = true)

namespace Schedule

def text : Schedule → List UInt8
  | five s _ _ => s.text
  | nickname w _ => atSign :: w

/-- The sets and flags a schedule means. -/
def read (s : Schedule) (flags : Nat) : Option (Bitmaps × Nat) :=
  match s with
  | five s _ _ => s.read flags
  | nickname w _ => setNickname (kept w) .zero flags

/-- A schedule that `load_entry` takes. -/
def Taken : Schedule → Prop
  | five s _ _ => s.Taken
  | nickname w _ => w ∈ nicknames

theorem read_isSome {s : Schedule} {flags : Nat} :
    (s.read flags).isSome = true ↔ s.Taken := by
  cases s with
  | five s hd ha => exact FiveWords.read_isSome
  | nickname w hw => exact setNickname_isSome.trans kept_mem_nicknames

/-- The schedule is followed by the end of the line, or by the typo that
`load_entry` takes for a sixth field. -/
def EndsEarly (l : List UInt8) : Prop :=
  l = [] ∨ l.head? = some newline ∨ l.head? = some star

instance (l : List UInt8) : Decidable (EndsEarly l) :=
  inferInstanceAs (Decidable (_ ∨ _ ∨ _))

/-- What the end of a schedule makes of what was read. -/
theorem reads_eol {x : SchedText} {o : Option (Bitmaps × Nat)}
    {l : List UInt8} {P : Prop} [Decidable P] (hnil : l = [] → P)
    (hearly : P → EndsEarly l) (h : x.Reads (if P then none else o) l) :
    (x.bind readEol).Reads
      (if EndsEarly l then none
        else o.map fun r => (foldSundays r.1, r.2)) l := by
  by_cases hP : P
  · rw [if_pos hP] at h
    rw [if_pos (hearly hP)]
    exact SchedText.rejected_bind h
  · rw [if_neg hP] at h
    cases o with
    | none =>
        have hrej := SchedText.rejected_bind (k := readEol) h
        split
        · exact hrej
        · exact hrej
    | some r =>
        obtain ⟨bits, flags⟩ := r
        have hx : x = .accepted bits flags l := h
        rw [hx]
        show (readEol bits flags l).Reads _ l
        unfold readEol
        by_cases hend : l.head? = some newline ∨ l.head? = some star
        · have hearly' : EndsEarly l := Or.inr hend
          rw [if_pos hend, if_pos hearly']
          trivial
        · have hearly' : ¬ EndsEarly l := fun he =>
            he.elim (fun hl => hP (hnil hl)) hend
          rw [if_neg hend, if_neg hearly']
          rfl

theorem readNickname_reads {w gap l : List UInt8} (flags : Nat)
    (hw : ∀ c ∈ w, isToken wordTerms c = true) (hgap : Gap gap)
    (hl : Stops isBlank l) :
    (readNickname flags (w ++ (gap ++ l))).Reads
      (if l = [] ∨ l.head? = some newline then none
        else setNickname (kept w) .zero flags) l := by
  have hstop : Stops (isToken wordTerms) (gap ++ l) := by
    obtain ⟨c, g, rfl⟩ := List.exists_cons_of_ne_nil hgap.ne_nil
    exact stops_cons.mpr
      (isToken_of_isBlank (hgap.blank c List.mem_cons_self))
  unfold readNickname
  dsimp only
  rw [dropWhile_run hw hstop, takeWhile_run hw hstop,
    dropWhile_run hgap.blank hl]
  cases setNickname (kept w) .zero flags with
  | none =>
      dsimp only
      rw [ite_self]
      trivial
  | some r =>
      obtain ⟨bits, fl⟩ := r
      dsimp only
      split
      · trivial
      · rfl

/-- A schedule with a gap behind it is read as it is written, unless the
line ends early. -/
theorem readSchedule_reads (s : Schedule) (flags : Nat)
    {gap l : List UInt8} (hgap : Gap gap) (hl : Stops isBlank l) :
    (readSchedule flags (s.text ++ (gap ++ l))).Reads
      (if EndsEarly l then none
        else (s.read flags).map fun r => (foldSundays r.1, r.2)) l := by
  cases s with
  | five s hd ha =>
      have hhead : (s.text ++ (gap ++ l)).head? ≠ some atSign := by
        unfold FiveWords.text
        rw [List.append_assoc, s.word1.head]
        exact ha
      have hread : readSchedule flags (s.text ++ (gap ++ l))
          = (readFields flags (s.text ++ (gap ++ l))).bind readEol := by
        unfold readSchedule
        rw [if_neg hhead]
      show (readSchedule flags (s.text ++ (gap ++ l))).Reads _ l
      rw [hread]
      exact reads_eol id Or.inl (s.readFields_reads flags hgap hl)
  | nickname w hw =>
      show ((readNickname flags (w ++ (gap ++ l))).bind readEol).Reads _ l
      refine reads_eol Or.inl ?_ (readNickname_reads flags hw hgap hl)
      intro hgiven
      rcases hgiven with h | h
      · exact Or.inl h
      · exact Or.inr (Or.inl h)

end Schedule

end Tinjac
