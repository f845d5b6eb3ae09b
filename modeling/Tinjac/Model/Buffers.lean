/-
The token buffers of `get_string` and `get_number`, down to the stores.

`Model/Fields.lean` has the two functions by what they keep of a token.
Here they are with their pointers and counters: `get_string` counts down
the `size` it was given, `get_number` counts up `len`, which the loop
over digits and the loop over letters share, and each character is
stored through a pointer (`StoreLog.Cursor`). `get_number` then reads
its `temp` as a string, that is up to the first NUL; `m` stands for the
bytes that were on the stack before.
-/
import Tinjac.Lib.StoreLog
import Tinjac.Model.Fields

namespace Tinjac

namespace Stored

open StoreLog

-- ========================================================== get_string

/-- The loop of `get_string`. -/
def getStringLoop (string : Cursor UInt8) (size : Int32) (file : Stream)
    (terms : List UInt8) :
    Cursor UInt8 × Int32 × Option UInt8 × Stream :=
  match h : file.rest with
  | [] => (string, size, (getChar file).1, (getChar file).2)
  | ch :: _ =>
      if strchr terms (some ch) then
        (string, size, (getChar file).1, (getChar file).2)
      else if 1 < size then
        getStringLoop (string.put ch) (size - 1) (getChar file).2 terms
      else
        getStringLoop string size (getChar file).2 terms
termination_by file.rest.length
decreasing_by all_goals simp [h]

/-- `get_string`, from the start of its buffer. -/
def getString (size : Int32) (file : Stream) (terms : List UInt8) :
    Stores UInt8 × Option UInt8 × Stream :=
  let (string, size, ch, file) := getStringLoop .start size file terms
  let string := if 0 < size then string.set nul else string
  (string.stores, ch, file)

-- ========================================================== get_number

/-- One collecting loop of `get_number`; the first component says that
it left through `bad`. -/
def getTemp (p : UInt8 → Bool) (pc : Cursor UInt8) (len : Int32)
    (ch : Option UInt8) (file : Stream) :
    Bool × Cursor UInt8 × Int32 × Option UInt8 × Stream :=
  match ch with
  | none => (false, pc, len, none, file)
  | some c =>
      if p c then
        let len := len + 1
        if Int32.ofNat maxTempstr ≤ len then (true, pc, len, some c, file)
        else getTemp p (pc.put c) len (getChar file).1 (getChar file).2
      else (false, pc, len, some c, file)
termination_by (text ch file).length
decreasing_by exact text_getChar_lt c file

/-- The string in `temp`. -/
def tempString (m : Nat → UInt8) (pc : Cursor UInt8) : List UInt8 :=
  (ByteMem.load (after m pc.stores) 0 maxTempstr).takeWhile (· != nul)

/-- `get_number`, and what it stored in `temp`. -/
def getNumber (m : Nat → UInt8) (low : Int32)
    (names : Option (List (List UInt8))) (ch : Option UInt8)
    (file : Stream) (terms : List UInt8) :
    (Option UInt8 × Int32 × Stream) × Stores UInt8 :=
  match getTemp isDigit .start 0 ch file with
  | (true, pc, _, ch, file) => (getNumberBad ch file, pc.stores)
  | (false, pc, len, ch, file) =>
      let pc := pc.set nul
      if len ≠ 0 then
        -- got a number, check for valid terminator
        if strchr terms ch then
          ((ch, atoi (tempString m pc), file), pc.stores)
        else (getNumberBad ch file, pc.stores)
      else
        -- no numbers, look for a string if we have any
        match names with
        | none => (getNumberBad ch file, pc.stores)
        | some names =>
            match getTemp isAlpha pc len ch file with
            | (true, pc, _, ch, file) => (getNumberBad ch file, pc.stores)
            | (false, pc, len, ch, file) =>
                let pc := pc.set nul
                if len ≠ 0 ∧ strchr terms ch then
                  match nameIndex names (tempString m pc) with
                  | some i => ((ch, Int32.ofNat i + low, file), pc.stores)
                  | none => (getNumberBad ch file, pc.stores)
                else (getNumberBad ch file, pc.stores)

end Stored

end Tinjac
