/-
`printTime`: the five rows of digits, the current time, and the search
for the next time the entry is due.

# The search

The source searches month, day, hour and minute in turn, each from where
`tm_now` stands; a scan that finds nothing moves `tm_now` on and jumps
back to the label `restartm`, in front of the month scan and behind its
star test. One pass through the four scans is `searchPass`; a pass that
jumps back returns the state it jumps with, and `search` repeats passes
on fuel: nothing in the source bounds their number.

`tm_then` is what is printed in the end. The fields of a `struct tm` are
those the search and `ptime_from_tm` read. They are natural numbers (the
year an integer, counted from 1900), since the search only ever adds to
them.

# What is left out

Behind the line that prints the time the source has no `return`
statement, though `printTime` is to return a `bool`. In C++ the
behaviour is then undefined, and an optimising compiler may let control
run on into other code. Here the function returns, as it does when the
end of its body is translated to a return; no caller looks at the value.
-/
import Tinjac.Model.LoadEntry

namespace Tinjac

-- ==================================================== broken-down time

/-- `struct tm`. -/
structure Tm where
  sec : Nat
  min : Nat
  hour : Nat
  mday : Nat
  mon : Nat
  year : Int
deriving DecidableEq, Repr

/-- `tm_now` and `tm_then`. -/
structure Search where
  tmNow : Tm
  tmThen : Tm
deriving DecidableEq, Repr

/-- What a failing scan does: jump to `restartm`, or give up. -/
inductive Jump
  | restartm (s : Search)
  | giveUp (msg : String)
deriving DecidableEq, Repr

-- =========================================================== the scans

/-- `for (i = from; i <= last; i++) if (bit_test(bits, i)) break;` -/
def scan (bits : Bitmaps) (f : Field) (first last : Nat) : Option Nat :=
  (List.range' first (last + 1 - first)).find? (bitTest bits f.name)

/-- The month: `first` says that the pass did not come from a jump. -/
def scanMonth (e : Entry) (tmStart : Tm) (first : Bool) (s : Search) :
    Except Jump Search :=
  let ok := { s with tmThen := { s.tmThen with mon := s.tmNow.mon } }
  if first ∧ hasFlag e.flags monStar then .ok ok
  else
    match scan e.bits monthField s.tmNow.mon (bitIndex lastMonth) with
    | some _ => .ok ok
    | none =>
        let s : Search :=
          { tmThen := { s.tmThen with year := s.tmThen.year + 1 }
            tmNow := { s.tmNow with
              mon := bitIndex firstMonth, mday := bitIndex firstDom,
              hour := bitIndex firstHour, min := bitIndex firstMinute } }
        if tmStart.year + 1 < s.tmNow.year then
          .error (.giveUp "Didnt get a valid Month")
        else .error (.restartm s)

/-- The day of the month. -/
def scanDom (e : Entry) (tmStart : Tm) (s : Search) :
    Except Jump Search :=
  if hasFlag e.flags domStar then
    .ok { s with tmThen := { s.tmThen with mday := s.tmNow.mday } }
  else
    match scan e.bits domField s.tmNow.mday (bitIndex lastDom) with
    | some i => .ok { s with tmThen := { s.tmThen with mday := i + 1 } }
    | none =>
        let s := { s with
          tmNow := { s.tmNow with
            mon := s.tmNow.mon + 1, mday := bitIndex firstDom,
            hour := bitIndex firstHour, min := bitIndex firstMinute } }
        if tmStart.mon + 12 < s.tmNow.mon then
          .error (.giveUp "Didn't get a valid Day of Month")
        else .error (.restartm s)

/-- The hour. -/
def scanHour (e : Entry) (tmStart : Tm) (s : Search) :
    Except Jump Search :=
  if hasFlag e.flags hrStar then
    .ok { s with tmThen := { s.tmThen with hour := s.tmNow.hour } }
  else
    match scan e.bits hourField s.tmNow.hour (bitIndex lastHour) with
    | some i => .ok { s with tmThen := { s.tmThen with hour := i } }
    | none =>
        let s := { s with
          tmNow := { s.tmNow with
            mday := s.tmNow.mday + 1,
            hour := bitIndex firstHour, min := bitIndex firstMinute } }
        if tmStart.hour + 24 < s.tmNow.hour then
          .error (.giveUp "Didn't get a valid Hour")
        else .error (.restartm s)

/-- The minute. -/
def scanMinute (e : Entry) (tmStart : Tm) (s : Search) :
    Except Jump Search :=
  if hasFlag e.flags minStar then
    .ok { s with tmThen := { s.tmThen with min := s.tmNow.min } }
  else
    match scan e.bits minuteField s.tmNow.min (bitIndex lastMinute) with
    | some i => .ok { s with tmThen := { s.tmThen with min := i } }
    | none =>
        let s := { s with
          tmNow := { s.tmNow with
            hour := s.tmNow.hour + 1, min := bitIndex firstMinute } }
        if tmStart.min + 60 < s.tmNow.min then
          .error (.giveUp "Didn't get a valid Minute")
        else .error (.restartm s)

-- ========================================================== the search

/-- One pass through the four scans. -/
def searchPass (e : Entry) (tmStart : Tm) (first : Bool) (s : Search) :
    Except Jump Search := do
  let s ← scanMonth e tmStart first s
  let s ← scanDom e tmStart s
  let s ← scanHour e tmStart s
  scanMinute e tmStart s

/-- The passes: `none` when the fuel runs out, else `tm_then` or the
message of the scan that gave up. -/
def search (e : Entry) (tmStart : Tm) :
    (fuel : Nat) → (first : Bool) → Search → Option (Except String Tm)
  | 0, _, _ => none
  | fuel + 1, first, s =>
      match searchPass e tmStart first s with
      | .ok s => some (.ok s.tmThen)
      | .error (.giveUp msg) => some (.error msg)
      | .error (.restartm s) => search e tmStart fuel false s

/-- The search of `printTime` when the local time is `now`. -/
def nextTime (fuel : Nat) (e : Entry) (now : Tm) :
    Option (Except String Tm) :=
  search e now fuel true { tmNow := now, tmThen := now }

-- ============================================================ printing

/-- What the program prints, and what it logs with `ELOG`. -/
inductive Line
  | command (cmd : CString)
  | row (label : String) (digits : List Bool)
  | now (tm : Tm)
  | time (tm : Tm)
  | user (name : CString)
  | elog (msg : String)
deriving DecidableEq

/-- `for (i = FIRST_X; i < LAST_X; i++) cout << bit_test(e->x, i);` -/
def printRow (e : Entry) (label : String) (f : Field) : Line :=
  .row label ((List.range' (bitIndex f.low)
    (bitIndex f.high - bitIndex f.low)).map (bitTest e.bits f.name))

/-- The five rows. -/
def printRows (e : Entry) : List Line :=
  [printRow e "Minute:" minuteField, printRow e "Hour:" hourField,
   printRow e "Day:" domField, printRow e "Month:" monthField,
   printRow e "DOW:" dowField]

/-- How a call ends: it returns, an exception leaves it, it dereferences
a null pointer, or it is still running when the fuel is used up. -/
inductive Ending
  | returned
  | threw
  | crashed
  | running
deriving DecidableEq, Repr

/-- `printTime`, with the clock and `ptime_from_tm`, which throws on some
values, as parameters. -/
def printTime (fuel : Nat) (ptimeThrows : Tm → Bool) (now : Tm)
    (e : Entry) : List Line × Ending :=
  let rows := printRows e ++ [.now now]
  match nextTime fuel e now with
  | none => (rows, .running)
  | some (.error msg) => (rows ++ [.elog msg], .returned)
  | some (.ok tmThen) =>
      if ptimeThrows tmThen then (rows, .threw)
      else (rows ++ [.time tmThen], .returned)

end Tinjac
