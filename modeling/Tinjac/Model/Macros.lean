/-
The constants of `include/macros.h` and `include/crontabs.hpp`, the
tables of `src/crontabs.cpp`, and the few C library functions on bytes
the parser calls (`isdigit`, `isalpha`, `strcasecmp`, `strchr`,
`atoi`), in the "C" locale the program runs in: it never calls
`setlocale`.

# Characters and end of file

A C `int ch` that holds either a byte or `EOF` is an `Option UInt8`,
with `none` for `EOF`. A `char` is a `UInt8`. Where the source passes
such an `int` to a function that converts it back to a `char`, `EOF`
turns into the byte 255, and the definitions below say so (`uchar`).

# Machine integers

The parser's `int` variables are `Int32`, whose arithmetic wraps. The
size constants are `Nat`.
-/
import Mathlib.Algebra.Group.Nat.Defs

namespace Tinjac

-- ========================================================== characters

/-- The text of a C string literal, byte by byte. -/
def bytes (s : String) : List UInt8 := s.toList.map fun c => c.toNat.toUInt8

abbrev nul : UInt8 := 0
abbrev tab : UInt8 := 9
abbrev newline : UInt8 := 10
abbrev space : UInt8 := 32
abbrev hash : UInt8 := 35
abbrev star : UInt8 := 42
abbrev comma : UInt8 := 44
abbrev dash : UInt8 := 45
abbrev slash : UInt8 := 47
abbrev equals : UInt8 := 61
abbrev atSign : UInt8 := 64

/-- `(char) ch` of an `int` that may be `EOF`, i.e. -1. -/
def uchar (ch : Option UInt8) : UInt8 := ch.getD 255

/-- `isdigit`. -/
def isDigit (c : UInt8) : Bool := 48 ≤ c && c ≤ 57

/-- `isalpha`, "C" locale: the ASCII letters. -/
def isAlpha (c : UInt8) : Bool := (65 ≤ c && c ≤ 90) || (97 ≤ c && c ≤ 122)

/-- `tolower`, "C" locale. -/
def toLower (c : UInt8) : UInt8 := if 65 ≤ c && c ≤ 90 then c + 32 else c

/-- `!strcasecmp(a, b)`. -/
def strcaseEq (a b : List UInt8) : Bool := a.map toLower == b.map toLower

/-- `strchr(s, ch) != NULL`: the string's terminating NUL is part of
what is searched, so a NUL byte is always found. -/
def strchr (s : List UInt8) (ch : Option UInt8) : Bool :=
  uchar ch == nul || s.contains (uchar ch)

/-- A terminator that was found is a character. -/
theorem ne_nil_of_strchr {terms next : List UInt8}
    (hterms : (255 : UInt8) ∉ terms) (h : strchr terms next.head? = true) :
    next ≠ [] := by
  intro hnil
  rw [hnil] at h
  simp only [strchr, List.head?_nil, uchar, Option.getD_none,
    Bool.or_eq_true, beq_iff_eq, List.contains_iff_mem] at h
  rcases h with h | h
  · exact absurd h (by decide)
  · exact hterms h

/-- The number a run of decimal digits denotes. -/
def digitsValue (ds : List UInt8) : Nat :=
  ds.foldl (fun n d => 10 * n + (d.toNat - 48)) 0

/-- glibc's `atoi` of a run of digits: `strtol`, which saturates at
`LONG_MAX`, converted to `int`. -/
def atoi (ds : List UInt8) : Int32 :=
  Int32.ofInt (min (digitsValue ds) (2 ^ 63 - 1) : Nat)

-- ============================================================ macros.h

def maxCommand : Nat := 131072
def maxEnvstr : Nat := 131072
def maxTempstr : Nat := 131072

def firstMinute : Int32 := 0
def lastMinute : Int32 := 59
def minuteCount : Nat := 60

def firstHour : Int32 := 0
def lastHour : Int32 := 23
def hourCount : Nat := 24

def firstDom : Int32 := 1
def lastDom : Int32 := 31
def domCount : Nat := 31

def firstMonth : Int32 := 1
def lastMonth : Int32 := 12
def monthCount : Nat := 12

def firstDow : Int32 := 0
def lastDow : Int32 := 7

-- ======================================================== crontabs.hpp

def minStar : Nat := 0x01
def hrStar : Nat := 0x02
def domStar : Nat := 0x04
def dowStar : Nat := 0x08
def whenReboot : Nat := 0x10
def dontLog : Nat := 0x20
def monStar : Nat := 0x40

-- ======================================================== crontabs.cpp

/-- `MonthNames`, without the final `NULL`. -/
def monthNames : List (List UInt8) :=
  ["Jan", "Feb", "Mar", "Apr", "May", "Jun",
   "Jul", "Aug", "Sep", "Oct", "Nov", "Dec"].map bytes

/-- `DowNames`, without the final `NULL`. -/
def dowNames : List (List UInt8) :=
  ["Sun", "Mon", "Tue", "Wed", "Thu", "Fri", "Sat", "Sun"].map bytes

/-- `ecode_e`. -/
inductive Ecode
  | none | minute | hour | dom | month | dow
  | cmd | timespec | username | option | memory
deriving DecidableEq, Repr

/-- `ecodes[]`. -/
def ecodes : Ecode → String
  | .none => "no error"
  | .minute => "bad minute"
  | .hour => "bad hour"
  | .dom => "bad day-of-month"
  | .month => "bad month"
  | .dow => "bad day-of-week"
  | .cmd => "bad command"
  | .timespec => "bad time specifier"
  | .username => "bad username"
  | .option => "bad option"
  | .memory => "out of memory"

end Tinjac
