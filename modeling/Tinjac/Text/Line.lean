/-
`load_entry` as a function of the text it reads.

The line-level counterpart of `Text/Field.lean`: which line of the input
`load_entry` takes up (`usefulText`), what it makes of the line's
schedule (`readSchedule`), username and command (`readJob`), and the
text it leaves for the next call. A rejected line is left through the
loop that skips to its end, so rejections carry the text that loop
leaves: the text after the next newline (`dropLine`) from where the
stream stood.

`Proofs/LineText.lean` proves that the model's `load_entry` computes
exactly this.
-/
import Tinjac.Text.Field
import Tinjac.Model.LoadEntry

namespace Tinjac

open BlockHeap CHeap

-- =============================================================== lines

/-- The first line of a text, with its newline if it has one. -/
def takeLine (t : List UInt8) : List UInt8 :=
  t.takeWhile (fun c => c != newline)
    ++ (t.dropWhile (fun c => c != newline)).take 1

/-- What follows the first newline of a text. -/
def dropLine (t : List UInt8) : List UInt8 :=
  (t.dropWhile fun c => c != newline).tail

/-- The first line of the text is blank or a comment. -/
def ignorable (t : List UInt8) : Bool :=
  match t.dropWhile isBlank with
  | [] => true
  | c :: _ => c == newline || c == hash

theorem dropLine_length_lt {t : List UInt8} (h : t ≠ []) :
    (dropLine t).length < t.length := by
  have hle := List.length_dropWhile_le (fun c => c != newline) t
  have hpos := List.length_pos_iff.mpr h
  unfold dropLine
  rw [List.length_tail]
  omega

/-- The text from its first line on that is neither blank nor a
comment. -/
def skipIgnorable (t : List UInt8) : List UInt8 :=
  if _h : t = [] then []
  else if ignorable t then skipIgnorable (dropLine t)
  else t
termination_by t.length
decreasing_by exact dropLine_length_lt _h

/-- The text from its first useful character on: behind blanks, empty
lines and comments. -/
def usefulText (t : List UInt8) : List UInt8 :=
  (skipIgnorable t).dropWhile isBlank

/-- What a stream that stands in a rejected line leaves once the rest of
the line is skipped. -/
def recovered (ch : Option UInt8) (file : Stream) : List UInt8 :=
  if ch = some newline then file.rest else dropLine file.rest

-- ========================================================== get_string

/-- The characters `get_string` goes past. -/
def isToken (terms : List UInt8) (c : UInt8) : Bool :=
  !strchr terms (some c)

/-- The terminators of a username. -/
def wordTerms : List UInt8 := bytes " \t\n"

/-- The terminator of a command. -/
def lineTerms : List UInt8 := bytes "\n"

/-- What `get_string` keeps of a token. -/
def kept (token : List UInt8) : List UInt8 := token.take (maxCommand - 1)

-- =========================================================== schedules

/-- What becomes of a line's schedule: the sets, the flags and the text
from the first character of the username or command on, or the error
and the text after the line. -/
inductive SchedText
  | accepted (bits : Bitmaps) (flags : Nat) (next : List UInt8)
  | rejected (ecode : Ecode) (left : List UInt8)

namespace SchedText

/-- Go on unless something was rejected. -/
def bind (s : SchedText)
    (k : Bitmaps → Nat → List UInt8 → SchedText) : SchedText :=
  match s with
  | accepted bits flags next => k bits flags next
  | rejected ecode left => rejected ecode left

end SchedText

/-- The bitmaps after the clearing of a field. -/
def clearField (f : Field) (bits : Bitmaps) : Bitmaps :=
  bitNclear bits f.name 0 (stopBit f)

/-- The flags after the star test of a field. -/
def starFlag (flag : Nat) (t : List UInt8) (flags : Nat) : Nat :=
  if t.head? = some star then flags ||| flag else flags

/-- One field: it is cleared, its star sets the flag, and its list is
read. -/
def readField (f : Field) (flag : Nat) (ecode : Ecode) (bits : Bitmaps)
    (flags : Nat) (t : List UInt8) : SchedText :=
  match readList f t with
  | .done rs next =>
      .accepted (applyRanges f rs (clearField f bits))
        (starFlag flag t flags) next
  | .fail left => .rejected ecode (dropLine left)
  | .eaten next => .rejected ecode (dropLine next.tail)

/-- The five fields, one behind the other, as long as none is rejected. -/
def readFields (flags : Nat) (t : List UInt8) : SchedText :=
  ((((readField minuteField minStar .minute .zero flags t).bind
    (readField hourField hrStar .hour)).bind
    (readField domField domStar .dom)).bind
    (readField monthField monStar .month)).bind
    (readField dowField dowStar .dow)

/-- A nickname, on the text after its `@`: a word that is known, and
something behind it on the line. -/
def readNickname (flags : Nat) (t : List UInt8) : SchedText :=
  let next := t.dropWhile (isToken wordTerms)
  match setNickname (kept (t.takeWhile (isToken wordTerms))) .zero flags with
  | none => .rejected .timespec (dropLine next)
  | some (bits, flags) =>
      let after := next.dropWhile isBlank
      if after = [] ∨ after.head? = some newline then
        .rejected .cmd (dropLine after)
      else .accepted bits flags after

/-- The end of a schedule: the line must go on, and not with a star; then
the two Sundays are made one. -/
def readEol (bits : Bitmaps) (flags : Nat) (next : List UInt8) :
    SchedText :=
  if next.head? = some newline ∨ next.head? = some star then
    .rejected .cmd (dropLine next)
  else .accepted (foldSundays bits) flags next

/-- A schedule, on the text from its first character on. -/
def readSchedule (flags : Nat) (t : List UInt8) : SchedText :=
  (if t.head? = some atSign then readNickname flags t.tail
   else readFields flags t).bind readEol

-- ================================================ username and command

/-- Whose job it is: the record, the text of the command, and the text
the stream stands at; or the error and the text it stands at. -/
def readUser (getpwnam : CString → Option Passwd) (pw : Option Passwd)
    (t : List UInt8) :
    Except (Ecode × List UInt8) (Passwd × List UInt8 × List UInt8) :=
  match pw with
  | some pw => .ok (pw, t, t)
  | none =>
      let next := t.dropWhile (isToken wordTerms)
      if next = [] ∨ next.head? = some newline then .error (.cmd, next)
      else
        match getpwnam
            (CString.ofBuf (kept (t.takeWhile (isToken wordTerms)))) with
        | none => .error (.username, next)
        | some pw => .ok (pw, next.tail, next)

/-- The allocations between username and command: the copy of the record
and the environment. -/
def prepareJob (h : CHeap) (envp : Nat) (pw : Passwd) (fname : String) :
    Except (Ecode × Option Nat) Nat × CHeap × List String :=
  match pwDup h pw with
  | (none, h) => (.error (.memory, none), h, [])
  | (some _, h) =>
      match loadEnv h envp pw fname with
      | (.none, some envp, h, log) => (.ok envp, h, log)
      | (ecode, envp, h, log) => (.error (ecode, envp), h, log)

/-- How the body of `load_entry` ends and the text it leaves in the
end. -/
structure BodyText where
  verdict : Verdict
  heap : CHeap
  log : List String
  left : List UInt8

/-- Username, environment and command: what they come to, the heap they
leave, and the text that is left. -/
def readJob (getpwnam : CString → Option Passwd) (pw : Option Passwd)
    (h : CHeap) (envp : Nat) (fname : String) (bits : Bitmaps)
    (flags : Nat) (t : List UInt8) : BodyText :=
  match readUser getpwnam pw t with
  | .error (ecode, next) =>
      { verdict := .eof ecode none, heap := h, log := [],
        left := dropLine next }
  | .ok (pw, t, stand) =>
      match prepareJob h envp pw fname with
      | (.error (ecode, envp), h, log) =>
          { verdict := .eof ecode envp, heap := h, log := log,
            left := dropLine stand }
      | (.ok envp, h, log) =>
          let next := t.dropWhile (isToken lineTerms)
          if next = [] then
            { verdict := .eof .cmd (some envp), heap := h, log := log,
              left := [] }
          else
            let (ok, h) := h.request
            if ok then
              { verdict := .entry
                  { pwd := bzeroPasswd pw, envp := envp,
                    cmd := CString.ofBuf
                      (kept (t.takeWhile (isToken lineTerms))),
                    bits := bits, flags := flags }
                heap := h, log := log, left := next.tail }
            else
              { verdict := .eof .memory (some envp), heap := h, log := log,
                left := dropLine next }

-- ============================================================ the line

/-- A schedule and a job, from the first character of the schedule on. -/
def readLine (getpwnam : CString → Option Passwd) (pw : Option Passwd)
    (h : CHeap) (envp : Nat) (fname : String) (flags : Nat)
    (t : List UInt8) : BodyText :=
  match readSchedule flags t with
  | .accepted bits flags next =>
      readJob getpwnam pw h envp fname bits flags next
  | .rejected ecode left =>
      { verdict := .eof ecode none, heap := h, log := [], left := left }

/-- A line from its first useful character on: a dash that the user may
have, and then schedule and job. -/
def readUseful (getpwnam : CString → Option Passwd) (pw : Option Passwd)
    (h : CHeap) (envp : Nat) (fname : String) (t : List UInt8) :
    BodyText :=
  match t with
  | [] => { verdict := .null, heap := h, log := [], left := [] }
  | c :: t' =>
      if c = dash then
        if mayDisableLog pw then
          if t' = [] then
            { verdict := .null, heap := h, log := [], left := [] }
          else readLine getpwnam pw h envp fname dontLog t'
        else
          { verdict := .eof .option none, heap := h,
            log := [optionMsg fname], left := dropLine t' }
      else readLine getpwnam pw h envp fname 0 t

/-- A line goes through `readLine` or is let be. -/
theorem readUseful_cases {getpwnam : CString → Option Passwd}
    {pw : Option Passwd} {h : CHeap} {envp : Nat} {fname : String}
    {P : BodyText → Prop}
    (hnull : P { verdict := .null, heap := h, log := [], left := [] })
    (hoption : ∀ left, mayDisableLog pw = false →
      P { verdict := .eof .option none, heap := h,
          log := [optionMsg fname], left := left })
    (hline : ∀ flags t, flags = 0 ∨ flags = dontLog →
      P (readLine getpwnam pw h envp fname flags t)) (t : List UInt8) :
    P (readUseful getpwnam pw h envp fname t) := by
  unfold readUseful
  split
  · exact hnull
  · split
    · split
      · split
        · exact hnull
        · exact hline dontLog _ (Or.inr rfl)
      · next hmay => exact hoption _ (Bool.eq_false_iff.mpr hmay)
    · exact hline 0 _ (Or.inl rfl)

/-- What a call of `load_entry` returns, and the text it leaves. -/
structure EntryText where
  entry : Option Entry
  heap : CHeap
  log : List String
  left : List UInt8

/-- `load_entry` after the body: an entry is returned, an error is
reported, and what was built for a rejected line is given back. -/
def BodyText.finish (b : BodyText) (errorFunc : Bool) (fname : String) :
    EntryText :=
  match b.verdict with
  | .entry e =>
      { entry := some e, heap := b.heap, log := b.log, left := b.left }
  | .null =>
      { entry := none, heap := b.heap, log := b.log, left := b.left }
  | .eof ecode envp =>
      { entry := none
        heap :=
          match envp with
          | none => b.heap
          | some envp => envFree b.heap envp
        log :=
          if ecode ≠ .none ∧ errorFunc then b.log ++ [errorMsg ecode fname]
          else b.log
        left := b.left }

/-- `load_entry` on a text. -/
def readEntry (getpwnam : CString → Option Passwd) (errorFunc : Bool)
    (pw : Option Passwd) (h : CHeap) (envp : Nat) (fname : String)
    (t : List UInt8) : EntryText :=
  (readUseful getpwnam pw h envp fname (usefulText t)).finish errorFunc fname

end Tinjac
