/-
The `FILE *` the parser reads, with the line counter that rides on it,
and the two functions that touch it: `get_char` and `unget_char`. Every
other reading function of `src/crontabs.cpp` goes through these two.

# The stream

A `Stream` is what `getc` will still deliver (`rest`, pushed-back bytes
included), what comes after it (end of file, or a read error that
persists: `fails`), the `feof` indicator, and the crontabs object's
`LineNumber`, an `int` in the source, which has room for 2^31 lines.
`events` is a history variable: it records every `getc` and every
`ungetc` that pushed a byte, newest first, and no definition reads it.

`feof` can only be set once everything was delivered, since `ungetc`
clears it. The structure carries that as a field.

# Text

`text ch file` is the input from a lookahead character `ch` on: the
parser hands one character of lookahead from function to function, and
the loops all consume this text, so its length is their measure.
-/
import Tinjac.Model.Macros

namespace Tinjac

/-- One operation on the underlying `FILE`. -/
inductive IoEvent
  | get (ch : Option UInt8)
  | unget (ch : UInt8)
deriving DecidableEq, Repr

/-- A stdio stream opened for reading, and `LineNumber`. -/
structure Stream where
  rest : List UInt8
  fails : Bool
  eof : Bool
  lineNumber : Int
  events : List IoEvent
  atEnd : eof = true → rest = []

namespace Stream

/-- A stream just opened on these bytes, ended by end of file. -/
def ofBytes (bs : List UInt8) : Stream :=
  { rest := bs, fails := false, eof := false, lineNumber := 0,
    events := [], atEnd := by simp }

/-- `feof`. -/
def feof (file : Stream) : Bool := file.eof

end Stream

/-- `get_char`: `getc`, counting newlines. -/
def getChar (file : Stream) : Option UInt8 × Stream :=
  match h : file.rest with
  | [] =>
      (none, { file with
        eof := file.eof || !file.fails
        events := .get none :: file.events
        atEnd := fun _ => h })
  | ch :: rest =>
      (some ch, { file with
        rest := rest
        lineNumber := if ch = newline then file.lineNumber + 1
          else file.lineNumber
        events := .get (some ch) :: file.events
        atEnd := fun he => absurd (file.atEnd he) (by simp [h]) })

/-- `unget_char`: `ungetc`, which ignores `EOF` and clears the
end-of-file indicator otherwise, and the line count taken back. -/
def ungetChar (ch : Option UInt8) (file : Stream) : Stream :=
  match ch with
  | none => file
  | some c =>
      { file with
        rest := c :: file.rest
        eof := false
        lineNumber := if c = newline then file.lineNumber - 1
          else file.lineNumber
        events := .unget c :: file.events
        atEnd := by simp }

/-- The input from the lookahead character on. -/
def text (ch : Option UInt8) (file : Stream) : List UInt8 :=
  ch.toList ++ file.rest

-- ===================================================== one-step lemmas

@[simp] theorem getChar_fst (file : Stream) :
    (getChar file).1 = file.rest.head? := by
  unfold getChar
  split <;> simp_all

@[simp] theorem getChar_rest (file : Stream) :
    (getChar file).2.rest = file.rest.tail := by
  unfold getChar
  split <;> simp_all

@[simp] theorem getChar_fails (file : Stream) :
    (getChar file).2.fails = file.fails := by
  unfold getChar
  split <;> rfl

@[simp] theorem ungetChar_rest (ch : Option UInt8) (file : Stream) :
    (ungetChar ch file).rest = text ch file := by
  cases ch <;> rfl

@[simp] theorem ungetChar_fails (ch : Option UInt8) (file : Stream) :
    (ungetChar ch file).fails = file.fails := by
  cases ch <;> rfl

@[simp] theorem text_none (file : Stream) : text none file = file.rest := rfl

@[simp] theorem text_some (c : UInt8) (file : Stream) :
    text (some c) file = c :: file.rest := rfl

/-- Reading a character makes it the lookahead and consumes nothing of
the text. -/
@[simp] theorem text_head_tail (file : Stream) (f' : Stream)
    (h : f'.rest = file.rest.tail) :
    text file.rest.head? f' = file.rest := by
  unfold text
  rw [h]
  cases file.rest <;> rfl

/-- The measure of every reading loop: dropping a byte of lookahead for
the next one shortens the text. -/
theorem text_getChar_lt (c : UInt8) (file : Stream) :
    (text (getChar file).1 (getChar file).2).length
      < (text (some c) file).length := by
  rw [getChar_fst, text_head_tail file _ (getChar_rest file)]
  simp

end Tinjac
