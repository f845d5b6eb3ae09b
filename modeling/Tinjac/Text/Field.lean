/-
The schedule parser as a function of the text it reads.

# Why a second definition

`Model/Fields.lean` is the source: characters handed on and pushed
back, one at a time, bits set on the way. Nothing about which lines are
accepted, or about what is left when one is rejected, depends on how the
characters travel. Here the same functions are stated on the text from
the lookahead on: what a list reads as (`Range`, its syntax tree), and
what text it leaves. `Proofs/FieldText.lean` proves that the model's
functions compute exactly this; the grammar, locality and recovery
results are then about lists of bytes.

# Outcomes

A rejecting exit either leaves the offending character to be read again
(`fail`, with the text the stream then holds), or has consumed it
(`eaten`, with the text from that character on). The second kind are the
two exits of `get_range` without an `unget_char`.
-/
import Tinjac.Model.Fields
import Tinjac.Lib.Span

namespace Tinjac

-- ============================================================ outcomes

/-- What reading a piece of a schedule comes to: it is done, with what
follows; it has failed, and leaves a text; or it has failed and swallowed
a character. -/
inductive Outcome (α : Type)
  | done (a : α) (next : List UInt8)
  | fail (left : List UInt8)
  | eaten (next : List UInt8)
deriving DecidableEq

namespace Outcome

variable {α β : Type}

/-- Pass a failure on, or go on from the text after a success. -/
def bind (o : Outcome α) (k : α → List UInt8 → Outcome β) : Outcome β :=
  match o with
  | done a next => k a next
  | fail left => fail left
  | eaten next => eaten next

/-- The same outcome on a text with more at its end. -/
def append (o : Outcome α) (r : List UInt8) : Outcome α :=
  match o with
  | done a next => done a (next ++ r)
  | fail left => fail (left ++ r)
  | eaten next => eaten (next ++ r)

/-- How an outcome shows on a stream: the character returned and what
the stream still holds. -/
def Shows (o : Outcome α) (ch : Option UInt8) (file : Stream) : Prop :=
  match o with
  | done _ next => next ≠ [] ∧ ch = next.head? ∧ file.rest = next.tail
  | fail left => ch = none ∧ file.rest = left
  | eaten next => ch = none ∧ file.rest = next.tail

end Outcome

-- ======================================================== syntax trees

/-- A number as it is written. -/
inductive Num
  | digits (ds : List UInt8)
  | name (ls : List UInt8)
deriving DecidableEq

/-- A range as it is written; `step` is the numeral after a `/`. -/
inductive Range
  | star (step : Option (List UInt8))
  | single (x : Num)
  | span (x y : Num) (step : Option (List UInt8))
deriving DecidableEq

/-- The `int` that `get_number` makes of it. -/
def Num.read (low : Int32) (names : Option (List (List UInt8))) :
    Num → Int32
  | .digits ds => atoi ds
  | .name ls => Int32.ofNat ((nameIndex (names.getD []) ls).getD 0) + low

/-- The number as an element of a field. -/
def Num.value (f : Field) (x : Num) : Int32 := x.read f.low f.names

/-- The step that `get_range` uses. -/
def stepValue : Option (List UInt8) → Int32
  | none => 1
  | some ds => atoi ds

/-- Set every `num3`-th element: whether all of them were in the field,
and the bitmaps. -/
def setStepping (f : Field) (num1 num2 num3 : Int32) (bits : Bitmaps) :
    Bool × Bitmaps :=
  if h : num3 = 0 then (false, bits)
  else stepLoop f num2 num3 h num1 bits

/-- What a range does to the bitmaps: whether all elements it visits are
in the field, and the bitmaps. -/
def Range.apply (f : Field) (bits : Bitmaps) :
    Range → Bool × Bitmaps
  | .star step => setStepping f f.low f.high (stepValue step) bits
  | .single x =>
      match setElement bits f (x.value f) with
      | none => (false, bits)
      | some bits => (true, bits)
  | .span x y step =>
      setStepping f (x.value f) (y.value f) (stepValue step) bits

/-- All elements of the range that are visited are in the field. -/
def Range.fits (f : Field) (r : Range) : Bool := (r.apply f .zero).1

/-- What the ranges of a list do to the bitmaps, one after the other. -/
def applyRanges (f : Field) (rs : List Range) (bits : Bitmaps) : Bitmaps :=
  rs.foldl (fun bits r => (r.apply f bits).2) bits

-- ========================================================== get_number

/-- `get_number` on a text: digits or letters, and behind them a
terminator or the end. -/
def readNumber (names : Option (List (List UInt8))) (terms : List UInt8)
    (t : List UInt8) : Outcome Num :=
  let ds := t.takeWhile isDigit
  let next := t.dropWhile isDigit
  if maxTempstr ≤ ds.length then .fail (t.drop (maxTempstr - 1))
  else if ds ≠ [] then
    if strchr terms next.head? then .done (.digits ds) next
    else .fail next
  else
    match names with
    | none => .fail t
    | some names =>
        let ls := t.takeWhile isAlpha
        let next := t.dropWhile isAlpha
        if maxTempstr ≤ ls.length then .fail (t.drop (maxTempstr - 1))
        else if ls ≠ [] ∧ strchr terms next.head?
            ∧ (nameIndex names ls).isSome then
          .done (.name ls) next
        else .fail next

-- =========================================================== get_range

/-- An optional step, on the text after a `*` or a range. -/
def readStep (t : List UInt8) : Outcome (Option (List UInt8)) :=
  if t.head? = some slash then
    if t.tail = [] then .fail []
    else
      (readNumber none (bytes ", \t\n") t.tail).bind fun n next =>
        match n with
        | .digits ds =>
            if atoi ds = 0 then .eaten next else .done (some ds) next
        | .name _ => .fail next
  else .done none t

/-- Take a range whose elements are in the field, else leave what comes
after it. -/
def takeRange (f : Field) (r : Range) (next : List UInt8) :
    Outcome Range :=
  if r.fits f then .done r next else .fail next

/-- `get_range` on a text: a star or a number, another number behind a
dash, and a step behind a slash. -/
def readRange (f : Field) (t : List UInt8) : Outcome Range :=
  if t.head? = some star then
    if t.tail = [] then .fail []
    else (readStep t.tail).bind fun step => takeRange f (.star step)
  else
    (readNumber f.names (bytes ",- \t\n") t).bind fun x next =>
      if next.head? ≠ some dash then takeRange f (.single x) next
      else if next.tail = [] then .fail []
      else
        (readNumber f.names (bytes "/, \t\n") next.tail).bind fun y next =>
          if y.value f < x.value f then .eaten next
          else
            (readStep next).bind fun step => takeRange f (.span x y step)

-- ============================================================ get_list

/-- The text after an outcome is no longer than `n`. -/
def Outcome.Within {α : Type} (n : Nat) : Outcome α → Prop
  | .done _ next => next.length ≤ n
  | .fail left => left.length ≤ n
  | .eaten next => next.length ≤ n

theorem readNumber_within (names : Option (List (List UInt8)))
    (terms t : List UInt8) : (readNumber names terms t).Within t.length := by
  have hd := List.length_dropWhile_le isDigit t
  have ha := List.length_dropWhile_le isAlpha t
  unfold readNumber
  dsimp only
  split
  · simp [Outcome.Within]
  · split
    · split <;> exact hd
    · split
      · exact Nat.le_refl _
      · split
        · simp [Outcome.Within]
        · split <;> exact ha

theorem Outcome.Within.bind {α β : Type} {n : Nat} {o : Outcome α}
    {k : α → List UInt8 → Outcome β} (ho : o.Within n)
    (hk : ∀ a next, o = .done a next → next.length ≤ n →
      (k a next).Within n) : (o.bind k).Within n := by
  cases o with
  | done a next => exact hk a next rfl ho
  | fail left => exact ho
  | eaten next => exact ho

theorem Outcome.Within.mono {α : Type} {m n : Nat} {o : Outcome α}
    (ho : o.Within m) (hmn : m ≤ n) : o.Within n := by
  cases o <;> exact Nat.le_trans ho hmn

theorem readStep_within (t : List UInt8) :
    (readStep t).Within t.length := by
  have htail : t.tail.length ≤ t.length := by simp
  unfold readStep
  split
  · split
    · exact Nat.zero_le _
    · refine ((readNumber_within ..).mono htail).bind ?_
      intro n next _ hnext
      cases n with
      | digits ds =>
          dsimp only
          split <;> exact hnext
      | name ls => exact hnext
  · exact Nat.le_refl _

theorem takeRange_within (f : Field) (r : Range) (next : List UInt8) :
    (takeRange f r next).Within next.length := by
  unfold takeRange
  split <;> exact Nat.le_refl _

theorem readRange_within (f : Field) (t : List UInt8) :
    (readRange f t).Within t.length := by
  have htail : t.tail.length ≤ t.length := by simp
  unfold readRange
  split
  · split
    · exact Nat.zero_le _
    · refine ((readStep_within _).mono htail).bind ?_
      intro step next _ hnext
      exact (takeRange_within ..).mono hnext
  · refine (readNumber_within ..).bind ?_
    intro x next _ hnext
    split
    · exact (takeRange_within ..).mono hnext
    · split
      · exact Nat.zero_le _
      · have htail2 : next.tail.length ≤ t.length :=
          Nat.le_trans (by simp) hnext
        refine ((readNumber_within ..).mono htail2).bind ?_
        intro y next2 _ hnext2
        split
        · exact hnext2
        · refine ((readStep_within _).mono hnext2).bind ?_
          intro step next3 _ hnext3
          exact (takeRange_within ..).mono hnext3

/-- The ranges of a list, on a text: one after the other, as long as a
comma follows. -/
def readRanges (f : Field) (t : List UInt8) : Outcome (List Range) :=
  match _h : readRange f t with
  | .done r next =>
      if _hc : next.head? = some comma then
        (readRanges f next.tail).bind fun rs next => .done (r :: rs) next
      else .done [r] next
  | .fail left => .fail left
  | .eaten next => .eaten next
termination_by t.length
decreasing_by
  have hle : next.length ≤ t.length := by
    have hw := readRange_within f t
    rw [_h] at hw
    exact hw
  cases next with
  | nil => cases _hc
  | cons c l =>
      simp only [List.tail_cons, List.length_cons] at hle ⊢
      omega

/-- The characters `Skip_Nonblanks` skips. -/
def isNonblank (c : UInt8) : Bool := c != tab && c != space && c != newline

/-- The text after a list: what is left of its field, and the blanks
behind it, skipped. -/
def skipField (t : List UInt8) : List UInt8 :=
  (t.dropWhile isNonblank).dropWhile isBlank

/-- `get_list` on a text: the ranges, and the scan to the next field. -/
def readList (f : Field) (t : List UInt8) : Outcome (List Range) :=
  (readRanges f t).bind fun rs next =>
    if skipField next = [] then .fail [] else .done rs (skipField next)

end Tinjac
