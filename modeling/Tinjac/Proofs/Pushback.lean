/-
The discipline of `get_char` and `unget_char`, and the line count.

ISO C promises one byte of push-back. The parser keeps to it (`Sound`):
the two functions are called in such a way that every byte pushed back is
the one the call just before had read. One lemma for each reading
function says that it goes on soundly from a lookahead that is fresh,
read by the latest call (`Reading`), and `Points` collects the states a
run of `load_entry` calls goes through, those of a recovery loop that
does not end among them.

The events of a stream record its history, so each state passed on the
way can be recovered from them (`replay`), and the line count holds at
every one.
-/
import Tinjac.Model.LoadEntry

namespace Tinjac

open BlockHeap CHeap

-- =========================================================== soundness

/-- A stream reached from `start` by reads, and by push-backs of the byte
just read. -/
inductive Sound (start : Stream) : Stream → Prop
  | start : Sound start start
  | get {file : Stream} (h : Sound start file) :
      Sound start (getChar file).2
  | back {file : Stream} {c : UInt8} (h : Sound start file)
      (hc : (getChar file).1 = some c) :
      Sound start (ungetChar (some c) (getChar file).2)

/-- A sound stream with its lookahead: a byte that the latest call
read. -/
structure Reading (start : Stream) (ch : Option UInt8) (file : Stream) :
    Prop where
  sound : Sound start file
  fresh : ∀ c, ch = some c →
    ∃ before, Sound start before ∧ getChar before = (some c, file)

variable {start file : Stream} {ch : Option UInt8}

/-- Where a stream is sound, reading may begin. -/
theorem Sound.none (h : Sound start file) : Reading start none file := by
  refine ⟨h, ?_⟩
  intro c hc
  cases hc

/-- What `get_char` returns is what was read last. -/
theorem Sound.read (h : Sound start file) :
    Reading start (getChar file).1 (getChar file).2 := by
  refine ⟨h.get, ?_⟩
  intro c hc
  exact ⟨file, h, Prod.ext hc rfl⟩

/-- So it may be put back, and nothing else was put back before it. -/
theorem Reading.unget (h : Reading start ch file) :
    Sound start (ungetChar ch file) := by
  cases ch with
  | none => exact h.sound
  | some c =>
      obtain ⟨before, hbefore, hget⟩ := h.fresh c rfl
      have hback := hbefore.back (congrArg Prod.fst hget)
      rw [hget] at hback
      exact hback

-- ==================================================== the field parser

/-- A scan keeps the last character it has read in hand. -/
theorem skipWhile_reading (p : UInt8 → Bool) (h : Reading start ch file) :
    Reading start (skipWhile p ch file).1 (skipWhile p ch file).2 := by
  fun_induction skipWhile p ch file with
  | case1 => exact h
  | case2 file c hp ih => exact ih h.sound.read
  | case3 => exact h

/-- So does the collecting of a number or a name. -/
theorem getTemp_reading (p : UInt8 → Bool) (temp : List UInt8)
    (h : Reading start ch file) :
    Reading start (getTemp p temp ch file).2.2.1
      (getTemp p temp ch file).2.2.2 := by
  fun_induction getTemp p temp ch file with
  | case1 => exact h
  | case2 => exact h
  | case3 temp file c _ _ ih => exact ih h.sound.read
  | case4 => exact h

/-- The label `bad` gives the fresh lookahead back. -/
theorem getNumberBad_reading (h : Reading start ch file) :
    Reading start (getNumberBad ch file).1 (getNumberBad ch file).2.2 :=
  h.unget.none

/-- `get_number` returns the last character it has read, also where it
fails. -/
theorem getNumber_reading (low : Int32)
    (names : Option (List (List UInt8))) (terms : List UInt8)
    (h : Reading start ch file) :
    Reading start (getNumber low names ch file terms).1
      (getNumber low names ch file terms).2.2 := by
  have hdigits := getTemp_reading isDigit [] h
  unfold getNumber
  split
  · next hd =>
    rw [hd] at hdigits
    exact getNumberBad_reading hdigits
  · next temp ch' file' hd =>
    rw [hd] at hdigits
    split
    · split
      · exact hdigits
      · exact getNumberBad_reading hdigits
    · split
      · exact getNumberBad_reading hdigits
      · have hletters := getTemp_reading isAlpha temp hdigits
        dsimp only at hletters
        split
        · next hl =>
          rw [hl] at hletters
          exact getNumberBad_reading hletters
        · next hl =>
          rw [hl] at hletters
          split
          · split
            · exact hletters
            · exact getNumberBad_reading hletters
          · exact getNumberBad_reading hletters

/-- Setting elements reads nothing; where an element is out of bounds the
character in hand is put back. -/
theorem setRange_reading (bits : Bitmaps) (f : Field)
    (num1 num2 num3 : Int32) (hstep : num3 ≠ 0)
    (h : Reading start ch file) :
    Reading start (setRange bits f num1 num2 num3 hstep ch file).1
      (setRange bits f num1 num2 num3 hstep ch file).2.2 := by
  unfold setRange
  split
  · exact h
  · exact h.unget.none

/-- A step, from the slash to the character behind its number. -/
theorem getStep_reading (bits : Bitmaps) (f : Field) (num1 num2 : Int32)
    (h : Reading start ch file) :
    Reading start (getStep bits f num1 num2 ch file).1
      (getStep bits f num1 num2 ch file).2.2 := by
  unfold getStep
  split
  · dsimp only
    split
    · exact h.sound.get.none
    · have hnum := getNumber_reading 0 none (bytes ", \t\n") h.sound.read
      split
      · exact hnum.sound.none
      · exact setRange_reading bits f num1 num2 _ _ hnum
  · exact setRange_reading bits f num1 num2 1 _ h

/-- A range, with all the ways in which it fails. -/
theorem getRange_reading (bits : Bitmaps) (f : Field)
    (h : Reading start ch file) :
    Reading start (getRange bits f ch file).1
      (getRange bits f ch file).2.2 := by
  have hnum := getNumber_reading f.low f.names (bytes ",- \t\n") h
  unfold getRange
  split
  · dsimp only
    split
    · exact h.sound.get.none
    · exact getStep_reading bits f f.low f.high h.sound.read
  · generalize getNumber f.low f.names ch file (bytes ",- \t\n") = r at hnum
    obtain ⟨ch1, num1, file1⟩ := r
    dsimp only at hnum ⊢
    split
    · exact hnum.sound.none
    · split
      · split
        · exact hnum.unget.none
        · exact hnum
      · split
        · exact hnum.sound.get.none
        · have hnum2 := getNumber_reading f.low f.names (bytes "/, \t\n")
            hnum.sound.read
          split
          · exact hnum2.sound.none
          · exact getStep_reading bits f num1 _ hnum2

/-- The ranges of a list: each starts with the character that the last one
left. -/
theorem getListLoop_reading (bits : Bitmaps) (f : Field)
    (h : Reading start ch file) :
    Reading start (getListLoop bits f ch file).1
      (getListLoop bits f ch file).2.2 := by
  fun_induction getListLoop bits f ch file with
  | case1 bits ch file r hnone => exact getRange_reading bits f h
  | case2 bits ch file r hnone hcomma ih =>
      exact ih (getRange_reading bits f h).sound.read
  | case3 bits ch file r hnone hcomma => exact getRange_reading bits f h

/-- A list and the scan to the next field. -/
theorem getList_reading (bits : Bitmaps) (f : Field)
    (h : Reading start ch file) :
    Reading start (getList bits f ch file).1
      (getList bits f ch file).2.2 := by
  unfold getList
  dsimp only
  have hloop := getListLoop_reading
    (bitNclear bits f.name 0 (bitIndex (f.high - f.low + 1))) f h
  generalize getListLoop
    (bitNclear bits f.name 0 (bitIndex (f.high - f.low + 1))) f ch file
    = r at hloop
  obtain ⟨ch', bits', file'⟩ := r
  dsimp only at hloop ⊢
  split
  · exact hloop.sound.none
  · exact skipWhile_reading _ (skipWhile_reading _ hloop)

-- ======================================== get_string and skip_comments

/-- The loop of `get_string` returns the terminator it has read. -/
theorem getStringLoop_reading (terms buf : List UInt8) (size : Nat)
    (h : Sound start file) :
    Reading start (getStringLoop buf size file terms).2.1
      (getStringLoop buf size file terms).2.2 := by
  fun_induction getStringLoop buf size file terms with
  | case1 buf size file hrest => exact h.read
  | case2 buf size file c l hrest hterm => exact h.read
  | case3 buf size file c l hrest hterm hroom ih => exact ih h.get
  | case4 buf size file c l hrest hterm hroom ih => exact ih h.get

/-- So does `get_string`, which does not put it back. -/
theorem getString_reading (size : Nat) (terms : List UInt8)
    (h : Sound start file) :
    Reading start (getString size file terms).2.1
      (getString size file terms).2.2 :=
  getStringLoop_reading terms [] size h

/-- The loop of `skip_comments` returns the first character that is
useful. -/
theorem skipCommentsLoop_reading (h : Sound start file) :
    Reading start (skipCommentsLoop file).1 (skipCommentsLoop file).2 := by
  fun_induction skipCommentsLoop file with
  | case1 file hread => exact h.read
  | case2 file c hread r hnone => exact skipWhile_reading _ h.read
  | case3 file c hread r hnone huse => exact skipWhile_reading _ h.read
  | case4 file c hread r hnone huse ih =>
      exact ih (skipWhile_reading _ (skipWhile_reading _ h.read)).sound

/-- Which `skip_comments` puts back. -/
theorem skipComments_sound (h : Sound start file) :
    Sound start (skipComments file) := by
  have hloop := skipCommentsLoop_reading h
  unfold skipComments
  dsimp only
  split
  · exact hloop.unget
  · exact hloop.sound

-- ========================================================== load_entry

/-- Two parts of a schedule one after the other, if the first was not
rejected. -/
theorem andThen_reading {s : Sched} {k : Sched → Sched}
    (hs : Reading start s.ch s.file)
    (hk : Reading start s.ch s.file → Reading start (k s).ch (k s).file) :
    Reading start (s.andThen k).ch (s.andThen k).file := by
  unfold Sched.andThen
  split
  · exact hk hs
  · exact hs

/-- A field: the scan for its list starts with the character in hand. -/
theorem loadField_reading (f : Field) (flag : Nat) (ecode : Ecode)
    {s : Sched} (h : Reading start s.ch s.file) :
    Reading start (loadField f flag ecode s).ch
      (loadField f flag ecode s).file :=
  getList_reading s.bits f h

/-- The five fields keep the last character read in hand. -/
theorem loadFields_reading {s : Sched} (h : Reading start s.ch s.file) :
    Reading start (loadFields s).ch (loadFields s).file := by
  unfold loadFields
  refine andThen_reading (andThen_reading (andThen_reading
    (andThen_reading ?_ ?_) ?_) ?_) ?_
  · exact loadField_reading _ _ _ h
  all_goals
    intro hs
    exact loadField_reading _ _ _ hs

/-- A nickname and the blanks behind it. -/
theorem loadNickname_reading {s : Sched} (h : Reading start s.ch s.file) :
    Reading start (loadNickname s).ch (loadNickname s).file := by
  have hstr := getString_reading maxCommand (bytes " \t\n") h.sound
  unfold loadNickname
  dsimp only
  generalize getString maxCommand s.file (bytes " \t\n") = r at hstr
  obtain ⟨cmd, ch, file⟩ := r
  dsimp only at hstr ⊢
  split
  · exact hstr
  · exact skipWhile_reading _ hstr

/-- The end of a schedule, where the character in hand is put back and
read again. -/
theorem checkEol_reading {s : Sched} (h : Reading start s.ch s.file) :
    Reading start (checkEol s).ch (checkEol s).file := by
  unfold checkEol
  dsimp only
  split
  · exact h
  · exact h

/-- A schedule of either kind. -/
theorem loadSchedule_reading {s : Sched} (h : Reading start s.ch s.file) :
    Reading start (loadSchedule s).ch (loadSchedule s).file := by
  unfold loadSchedule
  refine andThen_reading ?_ checkEol_reading
  split
  · exact loadNickname_reading h
  · exact loadFields_reading h

/-- The username is read again from its first character. -/
theorem loadUser_sound (getpwnam : CString → Option Passwd)
    (pw : Option Passwd) (h : Reading start ch file) :
    Sound start (loadUser getpwnam pw ch (ungetChar ch file)).2.2 := by
  unfold loadUser
  split
  · exact h.unget
  · have hstr := getString_reading maxCommand (bytes " \t\n") h.unget
    dsimp only
    generalize getString maxCommand (ungetChar ch file) (bytes " \t\n")
      = r at hstr
    obtain ⟨username, ch', file'⟩ := r
    dsimp only at hstr ⊢
    split
    · exact hstr.sound
    · split
      · exact hstr.sound
      · exact hstr.sound

/-- Username and command: the character before the username is put back
once, and the terminator of the command is not. -/
theorem loadJob_sound (getpwnam : CString → Option Passwd)
    (pw : Option Passwd) (heap : CHeap) (envp : Nat) (fname : String)
    {s : Sched} (h : Reading start s.ch s.file) :
    Sound start (loadJob getpwnam pw heap envp fname s).file := by
  have huser := loadUser_sound getpwnam pw h
  unfold loadJob
  generalize loadUser getpwnam pw s.ch (ungetChar s.ch s.file) = r at huser
  obtain ⟨verdict, ch, file⟩ := r
  cases verdict with
  | error ecode => exact huser
  | ok pw =>
      dsimp only at huser ⊢
      split
      · exact huser
      · split
        · have hstr := getString_reading maxCommand (bytes "\n") huser
          generalize getString maxCommand file (bytes "\n") = r at hstr
          obtain ⟨cmd, ch', file'⟩ := r
          dsimp only at hstr ⊢
          split
          · exact hstr.sound
          · split
            · exact hstr.sound
            · exact hstr.sound
        · exact huser

/-- A line from its first useful character on. -/
theorem loadLine_sound (getpwnam : CString → Option Passwd)
    (pw : Option Passwd) (heap : CHeap) (envp : Nat) (fname : String)
    (flags : Nat) (h : Reading start ch file) :
    Sound start (loadLine getpwnam pw heap envp fname flags ch file).file := by
  have hsched : Reading start
      (loadSchedule { ecode := .none, bits := .zero, flags := flags,
                      ch := ch, file := file }).ch
      (loadSchedule { ecode := .none, bits := .zero, flags := flags,
                      ch := ch, file := file }).file :=
    loadSchedule_reading h
  unfold loadLine
  dsimp only
  split
  · exact loadJob_sound getpwnam pw heap envp fname hsched
  · exact hsched.sound

/-- The body of `load_entry` puts back nothing but what it has just read.
-/
theorem loadBody_sound (getpwnam : CString → Option Passwd)
    (pw : Option Passwd) (heap : CHeap) (envp : Nat) (fname : String)
    (h : Sound start file) :
    Sound start (loadBody getpwnam file pw heap envp fname).file := by
  have hget := (skipComments_sound h).read
  unfold loadBody
  dsimp only
  generalize getChar (skipComments file) = r at hget
  obtain ⟨ch, file1⟩ := r
  dsimp only at hget ⊢
  split
  · exact hget.sound
  · split
    · split
      · have hget2 := hget.sound.read
        generalize getChar file1 = r at hget2
        obtain ⟨ch2, file2⟩ := r
        dsimp only at hget2 ⊢
        split
        · exact hget2.sound
        · exact loadLine_sound getpwnam pw heap envp fname dontLog hget2
      · exact hget.sound
    · exact loadLine_sound getpwnam pw heap envp fname 0 hget

-- ========================================================== whole runs

/-- The states that the recovery loop goes through, with the character it
has in hand. -/
inductive Skipping : Option UInt8 → Stream → Stream → Prop
  | here {ch : Option UInt8} {file : Stream} : Skipping ch file file
  | read {ch : Option UInt8} {file p : Stream} (hch : ch ≠ some newline)
      (hfeof : ¬ file.feof)
      (h : Skipping (getChar file).1 (getChar file).2 p) :
      Skipping ch file p

/-- The streams that calls of `load_entry` leave, each call with its own
arguments. -/
inductive Calls (start : Stream) : Stream → Prop
  | none : Calls start start
  | call {file : Stream} {fuel : Nat} {getpwnam : CString → Option Passwd}
      {errorFunc : Bool} {pw : Option Passwd} {heap : CHeap} {envp : Nat}
      {fname : String} {r : LoadResult} (h : Calls start file)
      (hload : loadEntry fuel getpwnam file errorFunc pw heap envp fname
        = some r) : Calls start r.file

/-- A point of a run of `load_entry` calls: between two calls, or in the
recovery of the last one, whether or not that ends. -/
inductive Points (start : Stream) : Stream → Prop
  | between {file : Stream} (h : Calls start file) : Points start file
  | recovery {file p : Stream} {getpwnam : CString → Option Passwd}
      {pw : Option Passwd} {heap : CHeap} {envp : Nat} {fname : String}
      (h : Calls start file)
      (hskip : Skipping (loadBody getpwnam file pw heap envp fname).ch
        (loadBody getpwnam file pw heap envp fname).file p) :
      Points start p

/-- Nor does the recovery of a rejected line put anything back. -/
theorem Skipping.sound {p : Stream} (hskip : Skipping ch file p)
    (h : Sound start file) : Sound start p := by
  induction hskip with
  | here => exact h
  | read _ _ _ ih => exact ih h.get

/-- The recovery of a rejected line only reads on, up to the newline. -/
theorem skipLine_skipping {fuel : Nat} {p : Stream}
    (h : skipLine fuel ch file = some p) : Skipping ch file p := by
  induction fuel generalizing ch file with
  | zero => cases h
  | succ fuel ih =>
      unfold skipLine at h
      split at h
      · next hgo => exact .read hgo.1 hgo.2 (ih h)
      · cases h
        exact .here

/-- A whole call keeps the stream sound. -/
theorem loadEntry_sound {fuel : Nat} {getpwnam : CString → Option Passwd}
    {errorFunc : Bool} {pw : Option Passwd} {heap : CHeap} {envp : Nat}
    {fname : String} {r : LoadResult}
    (hload : loadEntry fuel getpwnam file errorFunc pw heap envp fname
      = some r) (h : Sound start file) : Sound start r.file := by
  have hbody := loadBody_sound getpwnam pw heap envp fname h
  unfold loadEntry at hload
  dsimp only at hload
  split at hload
  · cases hload
    exact hbody
  · cases hload
    exact hbody
  · split at hload
    · cases hload
    · next hskip =>
      cases hload
      exact (skipLine_skipping hskip).sound hbody

/-- And so does any number of calls. -/
theorem Calls.sound (h : Calls start file) : Sound start file := by
  induction h with
  | none => exact .start
  | call _ hload ih => exact loadEntry_sound hload ih

/-- In the middle of a call it is sound as well. -/
theorem Points.sound (h : Points start file) : Sound start file := by
  cases h with
  | between h => exact h.sound
  | recovery h hskip => exact hskip.sound (loadBody_sound _ _ _ _ _ h.sound)

-- ============================================================= history

/-- The stream after these calls of `getc` and `ungetc`, newest first. -/
def replay (start : Stream) : List IoEvent → Stream
  | [] => start
  | .get _ :: older => (getChar (replay start older)).2
  | .unget c :: older => ungetChar (some c) (replay start older)

/-- Every byte pushed back is the one that was read just before. -/
def Disciplined (events : List IoEvent) : Prop :=
  ∀ newer c older, events = newer ++ .unget c :: older →
    older.head? = some (.get (some c))

/-- What was consumed since `start` was counted: the line counter has gone
up by the newlines among it. -/
def Counted (start file : Stream) : Prop :=
  ∃ consumed, start.rest = consumed ++ file.rest
    ∧ file.lineNumber - start.lineNumber = consumed.count newline

/-- At the end of the file no line is counted. -/
theorem getChar_lineNumber_nil (h : file.rest = []) :
    (getChar file).2.lineNumber = file.lineNumber := by
  unfold getChar
  split
  · rfl
  · next hrest =>
    rw [h] at hrest
    cases hrest

/-- A newline counts one line, and no other character does. -/
theorem getChar_lineNumber_cons {c : UInt8} {l : List UInt8}
    (h : file.rest = c :: l) :
    (getChar file).2.lineNumber
      = if c = newline then file.lineNumber + 1 else file.lineNumber := by
  unfold getChar
  split
  · next hrest =>
    rw [h] at hrest
    cases hrest
  · next hrest =>
    rw [h] at hrest
    cases hrest
    rfl

/-- A read consumes one byte, and counts it if it is a newline. -/
theorem Counted.get (h : Counted start file) :
    Counted start (getChar file).2 := by
  obtain ⟨consumed, hrest, hcount⟩ := h
  unfold Counted
  rw [getChar_rest]
  cases hfile : file.rest with
  | nil =>
      rw [hfile] at hrest
      rw [getChar_lineNumber_nil hfile]
      exact ⟨consumed, hrest, hcount⟩
  | cons c l =>
      rw [hfile] at hrest
      rw [getChar_lineNumber_cons hfile]
      refine ⟨consumed ++ [c], by simp [hrest], ?_⟩
      by_cases hc : c = newline
      · rw [if_pos hc, List.count_append, hc, List.count_singleton_self]
        omega
      · rw [if_neg hc, List.count_append, List.count_singleton,
          if_neg (by simpa using hc)]
        omega

/-- The byte just read is taken back with its count. -/
theorem Counted.back {c : UInt8} (h : Counted start file)
    (hc : (getChar file).1 = some c) :
    Counted start (ungetChar (some c) (getChar file).2) := by
  obtain ⟨consumed, hrest, hcount⟩ := h
  rw [getChar_fst] at hc
  obtain ⟨l, hfile⟩ := List.head?_eq_some_iff.mp hc
  refine ⟨consumed, ?_, ?_⟩
  · rw [ungetChar_rest, text_some, getChar_rest, hrest, hfile]
    rfl
  · unfold ungetChar
    dsimp only
    rw [getChar_lineNumber_cons hfile]
    split
    · omega
    · exact hcount

/-- A sound stream has counted what it consumed. -/
theorem Sound.counted (h : Sound start file) : Counted start file := by
  induction h with
  | start => exact ⟨[], rfl, by simp⟩
  | get _ ih => exact ih.get
  | back _ hc ih => exact ih.back hc

/-- The history of a sound stream: it is on record, it is disciplined,
and every state on the way is sound. -/
structure History (start file : Stream) (events : List IoEvent) :
    Prop where
  logged : file.events = events ++ start.events
  replays : replay start events = file
  disciplined : Disciplined events
  sound : ∀ older, older <:+ events → Sound start (replay start older)

/-- Every `get_char` is recorded, with the character that it returned. -/
theorem getChar_events (file : Stream) :
    (getChar file).2.events = .get (getChar file).1 :: file.events := by
  unfold getChar
  split
  · rfl
  · rfl

/-- A character that was read is one more in the history. -/
theorem History.get {events : List IoEvent} (h : History start file events) :
    History start (getChar file).2
      (.get (getChar file).1 :: events) := by
  have hreplays : replay start (.get (getChar file).1 :: events)
      = (getChar file).2 := by
    unfold replay
    rw [h.replays]
  have hsound := h.sound events (List.suffix_refl events)
  rw [h.replays] at hsound
  refine ⟨?_, hreplays, ?_, ?_⟩
  · rw [getChar_events, h.logged]
    rfl
  · intro newer c older heq
    cases newer with
    | nil => cases heq
    | cons e newer =>
        injection heq with _ heq
        exact h.disciplined newer c older heq
  · intro older holder
    rcases List.suffix_cons_iff.mp holder with rfl | holder
    · rw [hreplays]
      exact hsound.get
    · exact h.sound older holder

/-- One that was put back is taken out of it again. -/
theorem History.back {events : List IoEvent} {c : UInt8}
    (h : History start file events) (hc : (getChar file).1 = some c) :
    History start (ungetChar (some c) (getChar file).2)
      (.unget c :: .get (some c) :: events) := by
  have hget := h.get
  rw [hc] at hget
  have hsound := h.sound events (List.suffix_refl events)
  rw [h.replays] at hsound
  have hreplays : replay start (.unget c :: .get (some c) :: events)
      = ungetChar (some c) (getChar file).2 := by
    rw [replay, hget.replays]
  refine ⟨?_, hreplays, ?_, ?_⟩
  · unfold ungetChar
    dsimp only
    rw [hget.logged]
    rfl
  · intro newer b older heq
    cases newer with
    | nil =>
        injection heq with hb holder
        injection hb with hb
        rw [← holder, hb]
        rfl
    | cons e newer =>
        injection heq with _ heq
        exact hget.disciplined newer b older heq
  · intro older holder
    rcases List.suffix_cons_iff.mp holder with rfl | holder
    · rw [hreplays]
      exact hsound.back hc
    · exact hget.sound older holder

end Tinjac
