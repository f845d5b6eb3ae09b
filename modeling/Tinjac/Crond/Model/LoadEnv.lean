/-
`load_env` of the vendored crond: `cronie-1.4.6/src/env.c`.

It reads a line of a crontab and decides whether it is an environment
setting. The line is in `envstr`, an array of the caller's; what is in
there behind the line's NUL is what earlier lines have left. The scan
goes along `envstr` with a pointer `c`, and nothing but a NUL stops it,
so `c` is modelled as the bytes from there to the end of the array: a
scan that reads beyond the array has no result.

The bytes of the name and of the value are stored one after the other,
each in an array that was cleared: `name` and `val` are what was stored,
and as strings they end at the first NUL. `str` points into the one or
the other, by the state.
-/
import Tinjac.Model.Env
import Tinjac.Model.Fields
import Mathlib.Data.List.DropRight

namespace Tinjac.Crond

abbrev apostrophe : UInt8 := 39
abbrev quoteMark : UInt8 := 34

/-- `isspace`, "C" locale. -/
def isSpace (c : UInt8) : Bool := c == space || (9 ≤ c && c ≤ 13)

-- ============================================================= the scan

/-- `env_state`. -/
inductive EnvScanState
  | namei | name | eq1 | eq2 | valuei | value | fini | error
deriving DecidableEq, Repr

/-- `state++`. -/
def EnvScanState.next : EnvScanState → EnvScanState
  | namei => name
  | name => eq1
  | eq1 => eq2
  | eq2 => valuei
  | valuei => value
  | value => fini
  | fini => error
  | error => error

/-- How many states may still follow. -/
def EnvScanState.left : EnvScanState → Nat
  | namei => 7
  | name => 6
  | eq1 => 5
  | eq2 => 4
  | valuei => 3
  | value => 2
  | fini => 1
  | error => 0

/-- The variables of the scan. -/
structure EnvScan where
  state : EnvScanState
  quotechar : UInt8
  c : List UInt8
  name : List UInt8
  val : List UInt8
deriving DecidableEq, Repr

namespace EnvScan

/-- The scan of these bytes, about to begin. -/
def start (envstr : List UInt8) : EnvScan :=
  { state := .namei, quotechar := nul, c := envstr, name := [], val := [] }

/-- `*str++ = ch`. -/
def store (s : EnvScan) (ch : UInt8) : EnvScan :=
  if s.state = .name then { s with name := s.name ++ [ch] }
  else { s with val := s.val ++ [ch] }

/-- `case NAME: case VALUE:`. -/
def part (s : EnvScan) : Option EnvScan :=
  match s.c with
  | [] => none
  | ch :: rest =>
      if s.quotechar ≠ nul then
        if ch = s.quotechar then
          some { s with state := s.state.next, c := rest }
        else if s.state = .name ∧ ch = equals then
          some { s with state := .error }
        else some { s.store ch with c := rest }
      else if s.state = .name ∧ isSpace ch = true then
        some { s with state := s.state.next, c := rest }
      else if s.state = .name ∧ ch = equals then
        some { s with state := s.state.next }
      else some { s.store ch with c := rest }

/-- `if (*c == '\'' || *c == '"') quotechar = *c++;` -/
def openQuote (s : EnvScan) : EnvScan :=
  match s.c with
  | [] => s
  | ch :: rest =>
      if ch = apostrophe ∨ ch = quoteMark then
        { s with quotechar := ch, c := rest }
      else s

/-- What the loop does with a character. -/
def step (s : EnvScan) : Option EnvScan :=
  match s.state with
  | .namei | .valuei =>
      let s := s.openQuote
      -- fall through
      part { s with state := s.state.next }
  | .name | .value => s.part
  | .eq1 =>
      match s.c with
      | [] => none
      | ch :: rest =>
          if ch = equals then
            some { s with state := .eq2, quotechar := nul, c := rest }
          else if isSpace ch then some { s with c := rest }
          else some { s with state := .error, c := rest }
  | .eq2 | .fini =>
      match s.c with
      | [] => none
      | ch :: rest =>
          if isSpace ch then some { s with c := rest }
          else some { s with state := s.state.next }
  | .error => none

/-- What is still to be done. -/
def todo (s : EnvScan) : Nat := 8 * s.c.length + s.state.left

theorem EnvScanState.left_next (s : EnvScanState) (h : s ≠ .error) :
    s.next.left < s.left := by
  cases s with
  | error => exact absurd rfl h
  | _ => decide

@[simp] theorem store_state (s : EnvScan) (ch : UInt8) :
    (s.store ch).state = s.state := by
  unfold store
  split
  · rfl
  · rfl

@[simp] theorem store_quotechar (s : EnvScan) (ch : UInt8) :
    (s.store ch).quotechar = s.quotechar := by
  unfold store
  split
  · rfl
  · rfl

theorem part_todo {s s' : EnvScan} (hs : s.state ≠ .error)
    (h : s.part = some s') : s'.todo < s.todo := by
  have hnext := EnvScanState.left_next s.state hs
  have herror : EnvScanState.left .error = 0 := rfl
  unfold part at h
  unfold todo
  split at h
  · cases h
  · next ch rest hc =>
    rw [hc, List.length_cons]
    split at h
    · split at h
      · cases h
        dsimp only
        omega
      · split at h
        · cases h
          dsimp only
          rw [hc, List.length_cons]
          omega
        · cases h
          rw [store_state]
          dsimp only
          omega
    · split at h
      · cases h
        dsimp only
        omega
      · split at h
        · cases h
          dsimp only
          rw [hc, List.length_cons]
          omega
        · cases h
          rw [store_state]
          dsimp only
          omega

theorem openQuote_todo (s : EnvScan) :
    s.openQuote.state = s.state
      ∧ s.openQuote.c.length ≤ s.c.length := by
  unfold openQuote
  split
  · exact ⟨rfl, Nat.le_refl _⟩
  · next ch rest hc =>
    rw [hc]
    split
    · exact ⟨rfl, Nat.le_succ _⟩
    · exact ⟨rfl, by rw [hc]⟩

/-- A step gets on. -/
theorem step_todo {s s' : EnvScan} (h : s.step = some s') :
    s'.todo < s.todo := by
  have hopen : ∀ t : EnvScanState, s.state = t → t = .namei ∨ t = .valuei →
      part { s.openQuote with state := s.openQuote.state.next } = some s' →
      s'.todo < s.todo := by
    intro t ht hor hpart
    obtain ⟨hstate, hlen⟩ := openQuote_todo s
    have hnext : s.openQuote.state.next ≠ .error := by
      rw [hstate, ht]
      rcases hor with rfl | rfl
      · exact nofun
      · exact nofun
    have hne : s.state ≠ .error := by
      rw [ht]
      rcases hor with rfl | rfl
      · exact nofun
      · exact nofun
    have hless := part_todo hnext hpart
    have hleft := EnvScanState.left_next s.state hne
    refine Nat.lt_trans hless ?_
    unfold todo
    dsimp only
    rw [hstate]
    omega
  have hblank : ∀ t : EnvScanState, s.state = t → t ≠ .error →
      (match s.c with
        | [] => none
        | ch :: rest =>
            if isSpace ch then some { s with c := rest }
            else some { s with state := s.state.next }) = some s' →
      s'.todo < s.todo := by
    intro t ht hne hcase
    have hleft := EnvScanState.left_next s.state (by rw [ht]; exact hne)
    unfold todo
    split at hcase
    · cases hcase
    · next ch rest hc =>
      rw [hc, List.length_cons]
      split at hcase
      · cases hcase
        dsimp only
        omega
      · cases hcase
        dsimp only
        rw [hc, List.length_cons]
        omega
  unfold step at h
  split at h
  · next ht => exact hopen _ ht (Or.inl rfl) h
  · next ht => exact hopen _ ht (Or.inr rfl) h
  · next ht => exact part_todo (by rw [ht]; decide) h
  · next ht => exact part_todo (by rw [ht]; decide) h
  · next ht =>
    have hleft : EnvScanState.left .eq1 = 5 := rfl
    have hleft2 : EnvScanState.left .eq2 = 4 := rfl
    have herror : EnvScanState.left .error = 0 := rfl
    unfold todo
    rw [ht]
    split at h
    · cases h
    · next ch rest hc =>
      rw [hc, List.length_cons]
      split at h
      · cases h
        dsimp only
        omega
      · split at h
        · cases h
          dsimp only
          rw [ht]
          omega
        · cases h
          dsimp only
          omega
  · next ht => exact hblank _ ht (by decide) h
  · next ht => exact hblank _ ht (by decide) h
  · cases h

/-- `while (state != ERROR && *c)`. -/
def loop (s : EnvScan) : Option EnvScan :=
  if s.state = .error then some s
  else
    match s.c with
    | [] => none
    | ch :: _ =>
        if ch = nul then some s
        else
          match _h : s.step with
          | none => none
          | some s' => loop s'
termination_by s.todo
decreasing_by exact step_todo _h

end EnvScan

-- ============================================================= load_env

/-- What `load_env` returns: `ERR`, `FALSE` or `TRUE`. -/
inductive EnvStatus
  | err | no | yes
deriving DecidableEq, Repr

/-- An array after these bytes were stored from its start on. -/
def storeAll (array stored : List UInt8) : List UInt8 :=
  stored ++ array.drop stored.length

/-- `fseek(f, filepos, 0); Set_LineNum(fileline);`, for a position and a
line that were noted on the same stream. -/
def rewind (noted f : Stream) : Stream :=
  { f with rest := noted.rest, eof := false
           lineNumber := noted.lineNumber, atEnd := by simp }

/-- `load_env`: what it returns, `envstr`, and the stream. -/
def loadEnv (envstr : List UInt8) (f : Stream) :
    Option (EnvStatus × List UInt8 × Stream) :=
  let noted := f
  let f := skipComments f
  let (string, ch, f) := getString maxEnvstr f (bytes "\n")
  let envstr := storeAll envstr (string ++ [nul])
  if ch = none then some (.err, envstr, f)
  else
    match (EnvScan.start envstr).loop with
    | none => none
    | some s =>
        if s.state ≠ .fini ∧ ¬ (s.state = .value ∧ s.quotechar = nul) then
          some (.no, envstr, rewind noted f)
        else
          let name := (CString.ofBuf s.name).bytes
          let val := (CString.ofBuf s.val).bytes
          -- end of unquoted value: trim trailing whitespace
          let val := if s.state = .value then val.rdropWhile isSpace else val
          let (ok, stored) := glueStrings maxEnvstr name val equals
          let envstr := storeAll envstr stored
          if ok then some (.yes, envstr, f) else some (.no, envstr, f)

end Tinjac.Crond
