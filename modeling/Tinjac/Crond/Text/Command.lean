/-
What a command in a crontab says.

The first `%` ends the command that the shell gets, and what is behind
it is input, where each further `%` is a newline. A backslash keeps a
`%` from that, and is dropped. The two halves have rules of their own
for backslashes in a row: in the command they go in pairs, so that the
`%` of `\\%` ends it; in the input each `%` looks at the one in front of
it, so that the `%` of `\\%` is kept.
-/
import Tinjac.Crond.Model.Child

namespace Tinjac.Crond

-- ============================================================ two halves

/-- The command for the shell, and what is left as input. -/
def splitText : List UInt8 → List UInt8 × List UInt8
  | [] => ([], [])
  | [c] => if c = percent then ([], []) else ([c], [])
  | c :: d :: l =>
      if c = backslash then
        ((if d = percent then [percent] else [backslash, d])
          ++ (splitText l).1, (splitText l).2)
      else if c = percent then ([], d :: l)
      else (c :: (splitText (d :: l)).1, (splitText (d :: l)).2)

/-- The lines of the input. -/
def inputText : List UInt8 → List UInt8
  | [] => []
  | [c] => if c = percent then [newline] else [c]
  | c :: d :: l =>
      if c = backslash then
        if d = percent then percent :: inputText l
        else backslash :: inputText (d :: l)
      else (if c = percent then newline else c) :: inputText (d :: l)

/-- Whether a line is open behind a text, by the last character that is
no backslash. -/
def lineOpen : Bool → List UInt8 → Bool
  | b, [] => b
  | b, c :: l => lineOpen (if c = backslash then b else c != newline) l

/-- A text with a newline behind its last line, if that is open. -/
def closeLine (t : List UInt8) : List UInt8 :=
  t ++ if lineOpen false t then [newline] else []

-- ======================================================== what can be said

/-- Whether the backslashes at the end of a text are odd in number, `b`
being so for those in front of it. -/
def oddSlashes : Bool → List UInt8 → Bool
  | b, [] => b
  | b, c :: l => oddSlashes (if c = backslash then !b else false) l

/-- Each `%` stands behind an even number of backslashes. -/
def EvenSlashes (b : Bool) (s : List UInt8) : Prop :=
  ∀ a t, s = a ++ percent :: t → oddSlashes b a = false

/-- No line ends in a backslash. -/
def NoSlashedLine (t : List UInt8) : Prop :=
  ∀ a b, t ≠ a ++ backslash :: newline :: b

/-- The last line is backslashes, and nothing else. -/
def LastLineSlashes (t : List UInt8) : Prop :=
  ∃ a k, 0 < k ∧ t = a ++ List.replicate k backslash
    ∧ ∀ c, a.getLast? = some c → c = newline

/-- A text with a backslash in front of each `%`, and with `%` for a
newline. -/
def quoteText (s : List UInt8) : List UInt8 :=
  s.flatMap fun c =>
    if c = percent then [backslash, percent]
    else if c = newline then [percent]
    else [c]

end Tinjac.Crond
