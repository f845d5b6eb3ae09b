/-
The grammar of a crontab field, in two readings.

`Range.text` and `listText` write a syntax tree out. Which trees the
parser takes is `Range.Taken`: its numerals fit the scanner's buffer,
its names are in the table, and its elements, as `int`s that `atoi` made
of the numerals, pass the checks of `get_range`. Which trees the
documented grammar allows is `Range.Strict`: there a numeral has its
mathematical value, and both ends of a range are values of the field.
The first is read off the code, the second off the manual;
`Proofs/Grammar.lean` proves that the parser takes exactly the first.
What a range means as a set of values is `Range.Denotes`.
-/
import Tinjac.Text.Field
import Tinjac.Lib.Steps

namespace Tinjac

open Progression

-- ============================================================= writing

/-- A number as it is written. -/
def Num.text : Num → List UInt8
  | .digits ds => ds
  | .name ls => ls

/-- A step as it is written, with its slash; nothing if there is none. -/
def stepText : Option (List UInt8) → List UInt8
  | none => []
  | some n => slash :: n

/-- A range as it is written. -/
def Range.text : Range → List UInt8
  | .star step => Tinjac.star :: stepText step
  | .single x => x.text
  | .span x y step => x.text ++ dash :: (y.text ++ stepText step)

/-- `range {"," range}`. -/
def listText : List Range → List UInt8
  | [] => []
  | [r] => r.text
  | r :: r' :: rs => r.text ++ comma :: listText (r' :: rs)

-- =============================================== what the parser takes

/-- What may follow a numeral or name that ends a range. -/
def fieldTerms : List UInt8 := bytes ", \t\n"

/-- A numeral that fits the scanner's buffer. -/
structure Numeral (ds : List UInt8) : Prop where
  ne_nil : ds ≠ []
  digits : ∀ c ∈ ds, isDigit c = true
  short : ds.length < maxTempstr

/-- A word that fits the scanner's buffer. -/
structure Word (ls : List UInt8) : Prop where
  ne_nil : ls ≠ []
  letters : ∀ c ∈ ls, isAlpha c = true
  short : ls.length < maxTempstr

/-- A number the scanner reads whole, where these names are known. -/
def Num.Scanned (names : Option (List (List UInt8))) : Num → Prop
  | .digits ds => Numeral ds
  | .name ls =>
      Word ls ∧ ∃ ns, names = some ns ∧ (nameIndex ns ls).isSome = true

/-- A step the parser takes: a numeral whose `int` is not 0. -/
def StepTaken : Option (List UInt8) → Prop
  | none => True
  | some n => Numeral n ∧ atoi n ≠ 0

/-- A range the parser takes: its numbers are scanned, in order, and in
the field. -/
def Range.Taken (f : Field) : Range → Prop
  | .star step => StepTaken step ∧ (Range.star step).fits f = true
  | .single x => x.Scanned f.names ∧ (Range.single x).fits f = true
  | .span x y step =>
      x.Scanned f.names ∧ y.Scanned f.names ∧ ¬ y.value f < x.value f
        ∧ StepTaken step ∧ (Range.span x y step).fits f = true

/-- What may follow a step: after a numeral a terminator, where there is
none anything but a `/`. -/
def StepEnds (step : Option (List UInt8)) (next : List UInt8) : Prop :=
  match step with
  | none => next.head? ≠ some slash
  | some _ => strchr fieldTerms next.head? = true

/-- What may follow a range the parser takes. A bare `*` is followed by
anything but a `/`. -/
def Range.Ends (r : Range) (next : List UInt8) : Prop :=
  match r with
  | .star step => next ≠ [] ∧ StepEnds step next
  | _ => strchr fieldTerms next.head? = true

/-- A list the parser takes, and what follows it: a terminator, and no
comma. -/
structure ListTaken (f : Field) (rs : List Range) (next : List UInt8) :
    Prop where
  ne_nil : rs ≠ []
  taken : ∀ r ∈ rs, r.Taken f
  ends : ∀ r, rs.getLast? = some r → r.Ends next
  more : next.head? ≠ some comma

-- ============================================= what the grammar allows

/-- What a number means: a numeral its value, a name its first position
in the table, counted from `low`. -/
def Num.meaning (f : Field) : Num → Int
  | .digits ds => digitsValue ds
  | .name ls => (nameIndex (f.names.getD []) ls).getD 0 + f.low.toInt

/-- A number as the grammar has it, of any length. -/
def Num.Lexical (names : Option (List (List UInt8))) : Num → Prop
  | .digits ds => ds ≠ [] ∧ ∀ c ∈ ds, isDigit c = true
  | .name ls => (ls ≠ [] ∧ ∀ c ∈ ls, isAlpha c = true)
      ∧ ∃ ns, names = some ns ∧ (nameIndex ns ls).isSome = true

/-- A number that means a value of the field, whatever its length. -/
structure Num.Strict (f : Field) (x : Num) : Prop where
  lexical : x.Lexical f.names
  low_le : f.low.toInt ≤ x.meaning f
  le_high : x.meaning f ≤ f.high.toInt

/-- A step of the grammar: a numeral that means something else than 0. -/
def StepStrict : Option (List UInt8) → Prop
  | none => True
  | some n => (n ≠ [] ∧ ∀ c ∈ n, isDigit c = true) ∧ 1 ≤ digitsValue n

/-- A range of the grammar: numbers of the field, in order, with a step or
none. -/
def Range.Strict (f : Field) : Range → Prop
  | .star step => StepStrict step
  | .single x => x.Strict f
  | .span x y step =>
      x.Strict f ∧ y.Strict f ∧ x.meaning f ≤ y.meaning f
        ∧ StepStrict step

/-- A numeral of at most nine digits, or a name. -/
def Num.Short : Num → Prop
  | .digits ds => ds.length ≤ 9
  | .name _ => True

/-- The step's numeral has at most nine digits. -/
def StepShort : Option (List UInt8) → Prop
  | none => True
  | some n => n.length ≤ 9

/-- All numerals of the range have at most nine digits. -/
def Range.Short : Range → Prop
  | .star step => StepShort step
  | .single x => x.Short
  | .span x y step => x.Short ∧ y.Short ∧ StepShort step

/-- A sentence of the grammar: ranges of the field with commas between
them, as the comment of `get_list` has it. -/
def Sentence (f : Field) (w : List UInt8) : Prop :=
  ∃ rs, rs ≠ [] ∧ w = listText rs ∧ ∀ r ∈ rs, r.Strict f

-- ===================================================== what it denotes

/-- What a step means; without one it is 1. -/
def stepMeaning : Option (List UInt8) → Int
  | none => 1
  | some n => digitsValue n

/-- The values a range denotes: `x`, `x + n`, `x + 2n`, ... not above
`y`, where `*` stands for the whole field. -/
def Range.Denotes (f : Field) (r : Range) (v : Int) : Prop :=
  match r with
  | .star step => Steps f.low.toInt f.high.toInt (stepMeaning step) v
  | .single x => v = x.meaning f
  | .span x y step =>
      Steps (x.meaning f) (y.meaning f) (stepMeaning step) v

/-- The values a list denotes. -/
def ListDenotes (f : Field) (rs : List Range) (v : Int) : Prop :=
  ∃ r ∈ rs, r.Denotes f v

end Tinjac
