/-
No stage of `load_entry` makes up text: wherever its body stops, the
stream and the lookahead hold no more than they held at the start.

This bounds the loop that skips a rejected line, whose fuel is counted
in bytes still to be read.
-/
import Tinjac.Model.LoadEntry

namespace Tinjac

open BlockHeap CHeap

-- ============================================================ get_list

/-- A scan over a class of characters leaves no more to be read than there
was before it. -/
theorem skipWhile_text_le (p : UInt8 → Bool) (ch : Option UInt8)
    (file : Stream) :
    (text (skipWhile p ch file).1 (skipWhile p ch file).2).length
      ≤ (text ch file).length := by
  fun_induction skipWhile p ch file with
  | case1 => exact Nat.le_refl _
  | case2 file c _ ih =>
      exact Nat.le_trans ih (Nat.le_of_lt (text_getChar_lt c file))
  | case3 => exact Nat.le_refl _

/-- The loop of `get_list` reads one range after the other, and each of
them leaves less. -/
theorem getListLoop_text_le (bits : Bitmaps) (f : Field)
    (ch : Option UInt8) (file : Stream) :
    (text (getListLoop bits f ch file).1
        (getListLoop bits f ch file).2.2).length
      ≤ (text ch file).length := by
  fun_induction getListLoop bits f ch file with
  | case1 bits ch file r hnone => exact getRange_text_le bits f ch file
  | case2 bits ch file r hnone hcomma ih =>
      have hrange : (text r.1 r.2.2).length ≤ (text ch file).length :=
        getRange_text_le bits f ch file
      rw [hcomma] at hrange
      have hget := text_getChar_lt comma r.2.2
      omega
  | case3 bits ch file r hnone hcomma =>
      exact getRange_text_le bits f ch file

/-- `get_list` never gives back more than it was given: its scan to the
next field only reads on. -/
theorem getList_text_le (bits : Bitmaps) (f : Field) (ch : Option UInt8)
    (file : Stream) :
    (text (getList bits f ch file).1
        (getList bits f ch file).2.2).length
      ≤ (text ch file).length := by
  unfold getList
  dsimp only
  have hloop := getListLoop_text_le
    (bitNclear bits f.name 0 (bitIndex (f.high - f.low + 1))) f ch file
  generalize getListLoop
    (bitNclear bits f.name 0 (bitIndex (f.high - f.low + 1))) f ch file
    = r at hloop
  obtain ⟨ch', bits', file'⟩ := r
  dsimp only at hloop ⊢
  split
  · exact Nat.le_trans (rest_le_text ch' file') hloop
  · exact Nat.le_trans (skipWhile_text_le ..)
      (Nat.le_trans (skipWhile_text_le ..) hloop)

-- ========================================================== get_string

/-- Every round of the loop in `get_string` reads a character, whether it
still has room for it or not. -/
theorem getStringLoop_text_le (terms buf : List UInt8) (size : Nat)
    (file : Stream) :
    (text (getStringLoop buf size file terms).2.1
        (getStringLoop buf size file terms).2.2).length
      ≤ file.rest.length := by
  fun_induction getStringLoop buf size file terms with
  | case1 buf size file hrest =>
      rw [text_getChar]
  | case2 buf size file c l hrest hterm =>
      rw [text_getChar]
  | case3 buf size file c l hrest hterm hroom ih =>
      refine Nat.le_trans ih ?_
      simp
  | case4 buf size file c l hrest hterm hroom ih =>
      refine Nat.le_trans ih ?_
      simp

/-- So `get_string` leaves no more than the stream had. -/
theorem getString_text_le (size : Nat) (file : Stream)
    (terms : List UInt8) :
    (text (getString size file terms).2.1
        (getString size file terms).2.2).length
      ≤ file.rest.length :=
  getStringLoop_text_le terms [] size file

-- ======================================================= skip_comments

/-- The loop of `skip_comments` reads whole lines. -/
theorem skipCommentsLoop_text_le (file : Stream) :
    (text (skipCommentsLoop file).1 (skipCommentsLoop file).2).length
      ≤ file.rest.length := by
  fun_induction skipCommentsLoop file with
  | case1 file hread => rw [text_getChar]
  | case2 file c hread r hnone =>
      exact Nat.le_trans (skipWhile_text_le ..) (by rw [text_getChar])
  | case3 file c hread r hnone huse =>
      exact Nat.le_trans (skipWhile_text_le ..) (by rw [text_getChar])
  | case4 file c hread r hnone huse ih =>
      have hblanks : (text r.1 r.2).length
          ≤ (text (getChar file).1 (getChar file).2).length :=
        skipWhile_text_le ..
      rw [text_getChar] at hblanks
      have hline := skipWhile_text_le (fun c => c != newline) r.1 r.2
      have hrest := rest_le_text
        (skipWhile (fun c => c != newline) r.1 r.2).1
        (skipWhile (fun c => c != newline) r.1 r.2).2
      omega

/-- And `skip_comments` puts back the one character that it read too many.
-/
theorem skipComments_rest_le (file : Stream) :
    (skipComments file).rest.length ≤ file.rest.length := by
  have hloop := skipCommentsLoop_text_le file
  unfold skipComments
  dsimp only
  split
  · rw [ungetChar_rest]
    exact hloop
  · exact Nat.le_trans (rest_le_text _ _) hloop

-- ========================================================== load_entry

/-- A field, whether its list is accepted or not: whatever is put back
was read. -/
theorem loadField_text_le (f : Field) (flag : Nat) (ecode : Ecode)
    (s : Sched) :
    (text (loadField f flag ecode s).ch
        (loadField f flag ecode s).file).length
      ≤ (text s.ch s.file).length :=
  getList_text_le s.bits f s.ch s.file

/-- A stage that is skipped consumes nothing. -/
theorem andThen_text_le {n : Nat} {s : Sched} {k : Sched → Sched}
    (hs : (text s.ch s.file).length ≤ n)
    (hk : (text (k s).ch (k s).file).length
      ≤ (text s.ch s.file).length) :
    (text (s.andThen k).ch (s.andThen k).file).length ≤ n := by
  unfold Sched.andThen
  split
  · exact Nat.le_trans hk hs
  · exact hs

/-- The five fields, each on what the one before it left. -/
theorem loadFields_text_le (s : Sched) :
    (text (loadFields s).ch (loadFields s).file).length
      ≤ (text s.ch s.file).length := by
  unfold loadFields
  refine andThen_text_le (andThen_text_le (andThen_text_le
    (andThen_text_le ?_ ?_) ?_) ?_) ?_
  all_goals exact loadField_text_le ..

/-- A nickname is read as a word, and the blanks behind it are skipped. -/
theorem loadNickname_text_le (s : Sched) :
    (text (loadNickname s).ch (loadNickname s).file).length
      ≤ s.file.rest.length := by
  have hstr := getString_text_le maxCommand s.file (bytes " \t\n")
  unfold loadNickname
  dsimp only
  generalize getString maxCommand s.file (bytes " \t\n") = r at hstr
  obtain ⟨cmd, ch, file⟩ := r
  dsimp only at hstr ⊢
  split
  · exact hstr
  · exact Nat.le_trans (skipWhile_text_le ..) hstr

/-- The check for the end of the line puts back at most what it looked at.
-/
theorem checkEol_text_le (s : Sched) :
    (text (checkEol s).ch (checkEol s).file).length
      ≤ (text s.ch s.file).length := by
  unfold checkEol
  dsimp only
  split <;> exact Nat.le_refl _

/-- A schedule of either kind. -/
theorem loadSchedule_text_le (s : Sched) :
    (text (loadSchedule s).ch (loadSchedule s).file).length
      ≤ (text s.ch s.file).length := by
  unfold loadSchedule
  refine andThen_text_le ?_ (checkEol_text_le _)
  split
  · exact Nat.le_trans (loadNickname_text_le s) (rest_le_text _ _)
  · exact loadFields_text_le s

/-- The username, after the character in front of it was put back. -/
theorem loadUser_text_le (getpwnam : CString → Option Passwd)
    (pw : Option Passwd) (ch : Option UInt8) (file : Stream) :
    (loadUser getpwnam pw ch (ungetChar ch file)).2.2.rest.length
      ≤ (text ch file).length := by
  unfold loadUser
  split
  · rw [ungetChar_rest]
  · have hstr := getString_text_le maxCommand (ungetChar ch file)
      (bytes " \t\n")
    rw [ungetChar_rest] at hstr
    dsimp only
    generalize getString maxCommand (ungetChar ch file) (bytes " \t\n")
      = r at hstr
    obtain ⟨username, ch', file'⟩ := r
    have hrest := Nat.le_trans (rest_le_text ch' file') hstr
    dsimp only
    split
    · exact hrest
    · split <;> exact hrest

/-- Username and command, through all the allocations between them, which
read nothing. -/
theorem loadJob_rest_le (getpwnam : CString → Option Passwd)
    (pw : Option Passwd) (h : CHeap) (envp : Nat) (fname : String)
    (s : Sched) :
    (loadJob getpwnam pw h envp fname s).file.rest.length
      ≤ (text s.ch s.file).length := by
  have huser := loadUser_text_le getpwnam pw s.ch s.file
  unfold loadJob
  generalize loadUser getpwnam pw s.ch (ungetChar s.ch s.file) = r at huser
  obtain ⟨verdict, ch, file⟩ := r
  cases verdict with
  | error ecode => exact huser
  | ok pw =>
      dsimp only at huser ⊢
      split
      · exact huser
      · split
        · have hstr := getString_text_le maxCommand file (bytes "\n")
          generalize getString maxCommand file (bytes "\n") = r at hstr
          obtain ⟨cmd, ch', file'⟩ := r
          have hrest := Nat.le_trans
            (Nat.le_trans (rest_le_text ch' file') hstr) huser
          dsimp only
          split
          · exact hrest
          · split <;> exact hrest
        · exact huser

/-- A line from its first useful character on. -/
theorem loadLine_rest_le (getpwnam : CString → Option Passwd)
    (pw : Option Passwd) (h : CHeap) (envp : Nat) (fname : String)
    (flags : Nat) (ch : Option UInt8) (file : Stream) :
    (loadLine getpwnam pw h envp fname flags ch file).file.rest.length
      ≤ (text ch file).length := by
  unfold loadLine
  dsimp only
  split
  · exact Nat.le_trans (loadJob_rest_le ..) (loadSchedule_text_le _)
  · exact Nat.le_trans (rest_le_text _ _) (loadSchedule_text_le _)

/-- **No call goes back.** The body of `load_entry` leaves no more of the
file than it was given. -/
theorem loadBody_rest_le (getpwnam : CString → Option Passwd)
    (file : Stream) (pw : Option Passwd) (h : CHeap) (envp : Nat)
    (fname : String) :
    (loadBody getpwnam file pw h envp fname).file.rest.length
      ≤ file.rest.length := by
  have hskip := skipComments_rest_le file
  have hget := text_getChar (skipComments file)
  unfold loadBody
  dsimp only
  generalize getChar (skipComments file) = r at hget
  obtain ⟨ch, file1⟩ := r
  have htext : (text ch file1).length ≤ file.rest.length := by
    rw [hget]
    exact hskip
  have hrest1 := Nat.le_trans (rest_le_text ch file1) htext
  dsimp only
  split
  · exact hrest1
  · split
    · split
      · have hget2 := text_getChar file1
        generalize getChar file1 = r at hget2
        obtain ⟨ch2, file2⟩ := r
        have htext2 : (text ch2 file2).length ≤ file.rest.length := by
          rw [hget2]
          exact hrest1
        dsimp only
        split
        · exact Nat.le_trans (rest_le_text ch2 file2) htext2
        · exact Nat.le_trans (loadLine_rest_le ..) htext2
      · exact hrest1
    · exact Nat.le_trans (loadLine_rest_le ..) htext

end Tinjac
