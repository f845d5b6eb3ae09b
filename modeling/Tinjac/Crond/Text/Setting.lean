/-
Environment settings in a crontab: the text of a line.

`SettingText` is the grammar: a name, bare or in quotes, an `=`, and a
value, bare or in quotes, with white space where it does no harm. A bare
name may be empty and a bare value may not; a bare value has no white
space at its ends. `readSetting` reads a line by this grammar, and tells
one kind of line from those that are no settings: a line that ends where
a quote opens.
-/
import Tinjac.Crond.Model.LoadEnv

namespace Tinjac.Crond

-- ========================================================= the grammar

/-- The two quotes that may enclose a name or a value. -/
def isQuote (c : UInt8) : Bool := c == apostrophe || c == quoteMark

/-- The characters of a bare name. -/
def isNameChar (c : UInt8) : Bool := !isSpace c && c != equals

/-- White space, or nothing. -/
def Spaces (l : List UInt8) : Prop := ∀ c ∈ l, isSpace c = true

/-- A name as it is written in front of an `=`. -/
inductive NameText : List UInt8 → List UInt8 → Prop
  | bare {name gap : List UInt8} (chars : ∀ c ∈ name, isNameChar c = true)
      (first : ∀ c, name.head? = some c → isQuote c = false)
      (spaces : Spaces gap) : NameText (name ++ gap) name
  | quoted {q : UInt8} {name gap : List UInt8} (quote : isQuote q = true)
      (unquoted : q ∉ name) (chars : equals ∉ name) (spaces : Spaces gap) :
      NameText (q :: (name ++ q :: gap)) name

/-- A value as it is written behind the white space after an `=`. -/
inductive ValueText : List UInt8 → List UInt8 → Prop
  | bare {value gap : List UInt8} (ne_nil : value ≠ [])
      (first : ∀ c, value.head? = some c →
        isSpace c = false ∧ isQuote c = false)
      (last : ∀ c, value.getLast? = some c → isSpace c = false)
      (spaces : Spaces gap) : ValueText (value ++ gap) value
  | quoted {q : UInt8} {value gap : List UInt8} (quote : isQuote q = true)
      (unquoted : q ∉ value) (spaces : Spaces gap) :
      ValueText (q :: (value ++ q :: gap)) value

/-- A line that sets `name` to `value`: white space may stand in front,
around the equals sign and behind, and both may be quoted. -/
inductive SettingText : List UInt8 → List UInt8 → List UInt8 → Prop
  | line {n gap v name value : List UInt8} (hname : NameText n name)
      (spaces : Spaces gap) (hvalue : ValueText v value) :
      SettingText (n ++ equals :: (gap ++ v)) name value

/-- A line that ends where the quote of a value opens. -/
inductive OpenText : List UInt8 → UInt8 → List UInt8 → Prop
  | line {n gap name : List UInt8} {q : UInt8} (hname : NameText n name)
      (spaces : Spaces gap) (quote : isQuote q = true) :
      OpenText (n ++ equals :: (gap ++ [q])) q name

-- ======================================================= what is read

/-- What a line is to `load_env`: a setting, no setting, or a line that
ends where a quote opens, which has a name before it if the quote is the
value's. -/
inductive Scanned
  | setting (name value : List UInt8)
  | refused
  | opened (q : UInt8) (name : Option (List UInt8))
deriving DecidableEq, Repr

/-- A value in quotes, behind the first of them: it goes on to the same
quote, behind which nothing but white space may stand. -/
def readQuoted (q : UInt8) (name l : List UInt8) : Scanned :=
  match l.dropWhile (· != q) with
  | [] => .refused
  | _ :: r =>
      if r.all isSpace then .setting name (l.takeWhile (· != q))
      else .refused

/-- From behind the `=`: white space, and then a value that is quoted or
bare. -/
def readValue (name l : List UInt8) : Scanned :=
  match l.dropWhile isSpace with
  | [] => .refused
  | c :: r =>
      if isQuote c then
        if r = [] then .opened c (some name) else readQuoted c name r
      else .setting name ((c :: r).rdropWhile isSpace)

/-- From behind the name: white space, and then the equals sign. -/
def readEquals (name l : List UInt8) : Scanned :=
  match l.dropWhile isSpace with
  | [] => .refused
  | c :: r => if c = equals then readValue name r else .refused

/-- A name in quotes, behind the first of them: it goes on to the same
quote. -/
def readQuotedName (q : UInt8) (l : List UInt8) : Scanned :=
  match l.dropWhile (fun c => c != q && c != equals) with
  | [] => .refused
  | c :: r =>
      if c = q then
        readEquals (l.takeWhile fun c => c != q && c != equals) r
      else .refused

/-- A line, from its first character on: what it is scanned as. -/
def readSetting (l : List UInt8) : Scanned :=
  match l with
  | [] => .refused
  | c :: r =>
      if isQuote c then
        if r = [] then .opened c none else readQuotedName c r
      else readEquals (l.takeWhile isNameChar) (l.dropWhile isNameChar)

end Tinjac.Crond
