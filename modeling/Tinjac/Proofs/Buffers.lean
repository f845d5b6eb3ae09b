/-
The token buffers are never overrun.

# `get_string`

The pointer and the countdown stay in step: what was stored and what is
left of `size` make up the buffer (`Into`). So the loop keeps what the
text-level one keeps, stops at a room of one, and the NUL goes there
(`getString_into`). What it reads does not depend on any of this
(`getStringLoop_reads`).

# `get_number`

The counter is tested once it was counted up and before the character is
stored, so it is the length of what is in `temp`, and smaller than the
buffer (`InTemp`); the second loop goes on from where the first one
left it. The NUL goes behind, and the string that is read back is what
was collected (`getNumber_refines`).
-/
import Tinjac.Model.Buffers
import Tinjac.Proofs.Denote
import Tinjac.Proofs.LineText

namespace Tinjac

open StoreLog StoreLog.Cursor

-- ========================================================== get_string

/-- The buffer of `n` bytes while `get_string` fills it: `buf` is in it,
and `room` is left. -/
structure Into (n : Nat) (buf : List UInt8) (room : Nat)
    (string : Cursor UInt8) (size : Int32) : Prop where
  size_eq : size.toInt = room
  room_pos : 1 ≤ room
  fits : buf.length + room = n
  wrote : string.Wrote buf
  below : Below n string.stores

section

variable {n room : Nat} {buf terms : List UInt8} {string : Cursor UInt8}
  {size : Int32} {file : Stream}

theorem Into.start {size : Int32} (hsize : 0 < size) :
    Into size.toInt.toNat [] size.toInt.toNat .start size := by
  have hpos : 0 < size.toInt := by
    rw [Int32.lt_iff_toInt_lt] at hsize
    exact hsize
  exact
    { size_eq := (Int.toNat_of_nonneg (Int.le_of_lt hpos)).symm
      room_pos := by omega
      fits := Nat.zero_add _
      wrote := Wrote.start
      below := Below.nil _ }

/-- There is room for one more if and only if the test says so. -/
theorem Into.one_lt (h : Into n buf room string size) :
    1 < size ↔ 1 < room := by
  have hsize := h.size_eq
  rw [Int32.lt_iff_toInt_lt, hsize]
  exact Nat.one_lt_cast

theorem Into.put (h : Into n buf room string size) (hroom : 1 < room)
    (c : UInt8) : Into n (buf ++ [c]) (room - 1) (string.put c) (size - 1) where
  size_eq := by
    have hsize := h.size_eq
    have hlt := Int32.toInt_lt size
    have hone : (1 : Int32).toInt = 1 := rfl
    rw [toInt_sub_small (by omega) (by omega)]
    omega
  room_pos := by omega
  fits := by
    have hfits := h.fits
    rw [List.length_append, List.length_singleton]
    omega
  wrote := h.wrote.put c
  below := by
    have hfits := h.fits
    have hpos := h.wrote.pos
    exact h.below.snoc (by omega) c

theorem Into.pos (h : Into n buf room string size) : 0 < size := by
  have hsize := h.size_eq
  have hroom := h.room_pos
  rw [Int32.lt_iff_toInt_lt, hsize]
  show (0 : Int) < room
  omega

/-- The NUL goes where the room ends at the latest. -/
theorem Into.set_below (h : Into n buf room string size) :
    Below n (string.set nul).stores := by
  have hfits := h.fits
  have hroom := h.room_pos
  have hpos := h.wrote.pos
  apply h.below.snoc
  omega

/-- One turn of the loop. -/
theorem Stored.getStringLoop_cons {c : UInt8} {l : List UInt8}
    (hrest : file.rest = c :: l) :
    Stored.getStringLoop string size file terms
      = if strchr terms (some c) then
          (string, size, (getChar file).1, (getChar file).2)
        else if 1 < size then
          Stored.getStringLoop (string.put c) (size - 1) (getChar file).2
            terms
        else Stored.getStringLoop string size (getChar file).2 terms := by
  rw [Stored.getStringLoop]
  split
  · next hnil =>
    rw [hrest] at hnil
    cases hnil
  · next hcons =>
    rw [hrest] at hcons
    injection hcons with hc
    rw [hc]

theorem Stored.getStringLoop_nil (hrest : file.rest = []) :
    Stored.getStringLoop string size file terms
      = (string, size, (getChar file).1, (getChar file).2) := by
  rw [Stored.getStringLoop]
  split
  · rfl
  · next hcons =>
    rw [hrest] at hcons
    cases hcons

/-- The loop keeps what the text-level loop keeps, and reads the same. -/
theorem getStringLoop_into (h : Into n buf room string size) :
    (Stored.getStringLoop string size file terms).2.2
        = (getStringLoop buf room file terms).2
      ∧ ∃ room', Into n (getStringLoop buf room file terms).1 room'
          (Stored.getStringLoop string size file terms).1
          (Stored.getStringLoop string size file terms).2.1 := by
  fun_induction getStringLoop buf room file terms
      generalizing string size with
  | case1 buf room file hrest =>
      rw [Stored.getStringLoop_nil hrest]
      exact ⟨rfl, room, h⟩
  | case2 buf room file c l hrest hterm =>
      rw [Stored.getStringLoop_cons hrest, if_pos hterm]
      exact ⟨rfl, room, h⟩
  | case3 buf room file c l hrest hterm hroom ih =>
      rw [Stored.getStringLoop_cons hrest, if_neg hterm,
        if_pos (h.one_lt.mpr hroom)]
      exact ih (h.put hroom c)
  | case4 buf room file c l hrest hterm hroom ih =>
      rw [Stored.getStringLoop_cons hrest, if_neg hterm,
        if_neg (mt h.one_lt.mp hroom)]
      exact ih h

/-- **`get_string`** stores inside its buffer, and leaves there what the
text-level function keeps, with a NUL behind it. -/
theorem getString_into (hsize : 0 < size) :
    (Stored.getString size file terms).2
        = (getString size.toInt.toNat file terms).2
      ∧ Below size.toInt.toNat (Stored.getString size file terms).1
      ∧ Leaves (Stored.getString size file terms).1
          ((getString size.toInt.toNat file terms).1 ++ [nul]) := by
  obtain ⟨hreads, room, hinto⟩ :=
    @getStringLoop_into _ _ _ terms _ _ file (Into.start hsize)
  unfold Stored.getString getString
  dsimp only
  rw [if_pos hinto.pos]
  exact ⟨hreads, hinto.set_below, hinto.wrote.leaves_set nul⟩

/-- What is read does not depend on what is kept. -/
theorem getStringLoop_skips (buf : List UInt8) (room : Nat) :
    (getStringLoop buf room file terms).2
      = skipWhile (isToken terms) (getChar file).1 (getChar file).2 := by
  fun_induction getStringLoop buf room file terms with
  | case1 buf room file hrest =>
      have hend : (getChar file).1 = none := by
        simp [hrest]
      rw [hend, skipWhile]
  | case2 buf room file c l hrest hterm =>
      have hc : (getChar file).1 = some c := by
        simp [hrest]
      have hstop : isToken terms c = false := by
        simp [isToken, hterm]
      rw [hc, skipWhile, hstop, if_neg (by decide)]
  | case3 buf room file c l hrest hterm hroom ih =>
      have hc : (getChar file).1 = some c := by
        simp [hrest]
      have hgo : isToken terms c = true := by
        simp [isToken, hterm]
      rw [ih, hc, skipWhile, hgo, if_pos rfl]
  | case4 buf room file c l hrest hterm hroom ih =>
      have hc : (getChar file).1 = some c := by
        simp [hrest]
      have hgo : isToken terms c = true := by
        simp [isToken, hterm]
      rw [ih, hc, skipWhile, hgo, if_pos rfl]

end

-- ========================================================== get_number

/-- `temp` while `get_number` fills it: what was collected is in it, the
pointer stands behind, and the counter is its length. -/
structure InTemp (temp : List UInt8) (pc : Cursor UInt8) (len : Int32) :
    Prop where
  len_eq : len.toInt = temp.length
  short : temp.length < maxTempstr
  no_nul : nul ∉ temp
  wrote : pc.Wrote temp
  below : Below maxTempstr pc.stores

section

variable {temp : List UInt8} {pc : Cursor UInt8} {len : Int32}

theorem InTemp.start : InTemp [] .start 0 where
  len_eq := rfl
  short := by decide
  no_nul := List.not_mem_nil
  wrote := Wrote.start
  below := Below.nil _

theorem InTemp.set (h : InTemp temp pc len) (b : UInt8) :
    InTemp temp (pc.set b) len where
  len_eq := h.len_eq
  short := h.short
  no_nul := h.no_nul
  wrote := h.wrote.set b
  below := by
    have hpos := h.wrote.pos
    have hshort := h.short
    exact h.below.snoc (by omega) b

theorem InTemp.succ (h : InTemp temp pc len) :
    (len + 1).toInt = temp.length + 1 := by
  have hlen := h.len_eq
  have hshort := h.short
  have hmax : maxTempstr = 131072 := rfl
  have hone : (1 : Int32).toInt = 1 := rfl
  rw [toInt_add_small (by omega) (by omega)]
  omega

/-- The test behind the count. -/
theorem InTemp.full_iff (h : InTemp temp pc len) :
    Int32.ofNat maxTempstr ≤ len + 1 ↔ maxTempstr ≤ temp.length + 1 := by
  have hmax : (Int32.ofNat maxTempstr).toInt = maxTempstr := rfl
  rw [Int32.le_iff_toInt_le, h.succ, hmax]
  omega

theorem InTemp.put (h : InTemp temp pc len)
    (hroom : ¬ maxTempstr ≤ temp.length + 1) {c : UInt8} (hc : c ≠ nul) :
    InTemp (temp ++ [c]) (pc.put c) (len + 1) where
  len_eq := by
    rw [h.succ, List.length_append]
    rfl
  short := by
    rw [List.length_append, List.length_singleton]
    omega
  no_nul := by
    rw [List.mem_append, List.mem_singleton]
    exact fun hmem => hmem.elim h.no_nul fun heq => hc heq.symm
  wrote := h.wrote.put c
  below := (h.set c).below

/-- What is read back is what was collected. -/
theorem InTemp.tempString_set (h : InTemp temp pc len) (m : Nat → UInt8) :
    Stored.tempString m (pc.set nul) = temp := by
  apply (h.wrote.leaves_set nul).takeWhile
  · intro c hc
    exact bne_iff_ne.mpr fun heq => h.no_nul (heq ▸ hc)
  · decide
  · exact h.short

/-- A collecting loop that does not collect NULs. -/
theorem getTemp_refines {p : UInt8 → Bool} (hp : p nul = false)
    (h : InTemp temp pc len) (ch : Option UInt8) (file : Stream) :
    ∃ bad pc' len' temp' rest,
      Stored.getTemp p pc len ch file = (bad, pc', len', rest)
        ∧ getTemp p temp ch file = (bad, temp', rest)
        ∧ Below maxTempstr pc'.stores
        ∧ (bad = false → InTemp temp' pc' len') := by
  fun_induction getTemp p temp ch file generalizing pc len with
  | case1 temp file =>
      rw [Stored.getTemp]
      exact ⟨_, _, _, _, _, rfl, rfl, h.below, fun _ => h⟩
  | case2 temp file c hc hfull =>
      rw [Stored.getTemp, if_pos hc]
      dsimp only
      rw [if_pos (h.full_iff.mpr hfull)]
      refine ⟨_, _, _, _, _, rfl, rfl, h.below, ?_⟩
      intro hbad
      cases hbad
  | case3 temp file c hc hroom ih =>
      have hne : c ≠ nul := by
        intro heq
        rw [heq, hp] at hc
        cases hc
      rw [Stored.getTemp, if_pos hc]
      dsimp only
      rw [if_neg (mt h.full_iff.mp hroom)]
      exact ih (h.put hroom hne)
  | case4 temp file c hc =>
      rw [Stored.getTemp, if_neg hc]
      exact ⟨_, _, _, _, _, rfl, rfl, h.below, fun _ => h⟩

theorem InTemp.len_ne (h : InTemp temp pc len) :
    len ≠ 0 ↔ temp.length ≠ 0 := by
  have hlen := h.len_eq
  rw [ne_eq, ne_eq, ← Int32.toInt_inj, hlen]
  show ¬ ((temp.length : Int) = 0) ↔ _
  omega

/-- **`get_number`** stores inside `temp`, and finds there what the
text-level function collects. -/
theorem getNumber_refines (m : Nat → UInt8) (low : Int32)
    (names : Option (List (List UInt8))) (ch : Option UInt8)
    (file : Stream) (terms : List UInt8) :
    (Stored.getNumber m low names ch file terms).1
        = getNumber low names ch file terms
      ∧ Below maxTempstr (Stored.getNumber m low names ch file terms).2 := by
  obtain ⟨bad, pc, len, temp, ⟨ch1, file1⟩, hstored, hlist, hbelow, hin⟩ :=
    getTemp_refines (p := isDigit) rfl InTemp.start ch file
  unfold Stored.getNumber getNumber
  rw [hstored, hlist]
  cases bad with
  | true => exact ⟨rfl, hbelow⟩
  | false =>
      have hin := hin rfl
      have hset := (hin.set nul).below
      dsimp only
      by_cases hlen : temp.length ≠ 0
      · rw [if_pos hlen, if_pos (hin.len_ne.mpr hlen), hin.tempString_set m]
        split
        · exact ⟨rfl, hset⟩
        · exact ⟨rfl, hset⟩
      · rw [if_neg hlen, if_neg (mt hin.len_ne.mp hlen)]
        cases names with
        | none => exact ⟨rfl, hset⟩
        | some names =>
            -- the letters go where the NUL was
            obtain ⟨bad, pc2, len2, temp2, ⟨ch2, file2⟩, hstored2, hlist2,
              hbelow2, hin2⟩ :=
              getTemp_refines (p := isAlpha) rfl (hin.set nul) ch1 file1
            dsimp only
            rw [hstored2, hlist2]
            cases bad with
            | true => exact ⟨rfl, hbelow2⟩
            | false =>
                have hin2 := hin2 rfl
                have hset2 := (hin2.set nul).below
                dsimp only
                simp only [hin2.len_ne, hin2.tempString_set m]
                split
                · cases nameIndex names temp2 with
                  | none => exact ⟨rfl, hset2⟩
                  | some i => exact ⟨rfl, hset2⟩
                · exact ⟨rfl, hset2⟩

end

-- ========================================================= the theorem

/-- What `get_string` keeps is the beginning of the token, as far as the
buffer goes, less one byte for the NUL. -/
theorem getString_kept (size : Nat) (hsize : 1 ≤ size) (file : Stream)
    (terms : List UInt8) :
    (getString size file terms).1
      = (file.rest.takeWhile (isToken terms)).take (size - 1) := by
  obtain ⟨file', hget, -⟩ := getStringLoop_eq terms [] size file hsize
  rw [getString, hget]
  rfl

/-- **The token buffers.** `get_string` stores below its size, ends what
it keeps of a token with a NUL, and reads the same whatever the size;
`get_number` stores below the size of `temp`, and what it reads back from
there is what the parser takes for the number. -/
theorem token_buffers_bounded :
    (∀ (size : Int32) (file : Stream) (terms : List UInt8), 0 < size →
      Below size.toInt.toNat (Stored.getString size file terms).1
        ∧ Leaves (Stored.getString size file terms).1
            ((file.rest.takeWhile (isToken terms)).take
              (size.toInt.toNat - 1) ++ [nul]))
      ∧ (∀ (size size' : Int32) (file : Stream) (terms : List UInt8),
        0 < size → 0 < size' →
          (Stored.getString size file terms).2
            = (Stored.getString size' file terms).2)
      ∧ ∀ (m : Nat → UInt8) (low : Int32)
        (names : Option (List (List UInt8))) (ch : Option UInt8)
        (file : Stream) (terms : List UInt8),
          (Stored.getNumber m low names ch file terms).1
              = getNumber low names ch file terms
            ∧ Below maxTempstr
                (Stored.getNumber m low names ch file terms).2 := by
  refine ⟨?_, ?_, ?_⟩
  · intro size file terms hsize
    obtain ⟨-, hbelow, hleaves⟩ :=
      @getString_into terms size file hsize
    rw [getString_kept _ (Into.start hsize).room_pos] at hleaves
    exact ⟨hbelow, hleaves⟩
  · intro size size' file terms hsize hsize'
    obtain ⟨hreads, -⟩ := @getString_into terms size file hsize
    obtain ⟨hreads', -⟩ := @getString_into terms size' file hsize'
    rw [hreads, hreads']
    exact (getStringLoop_skips [] _).trans (getStringLoop_skips [] _).symm
  · intro m low names ch file terms
    exact getNumber_refines m low names ch file terms

/-- A name that is too long for four bytes loses its end, and a number is
read back as it is. -/
theorem backup_cut :
    Below 4 (Stored.getString 4
        (Stream.ofBytes (bytes "backup true\n")) wordTerms).1
      ∧ Leaves (Stored.getString 4
          (Stream.ofBytes (bytes "backup true\n")) wordTerms).1
          (bytes "bac" ++ [nul])
      ∧ (Stored.getString 4
          (Stream.ofBytes (bytes "backup true\n")) wordTerms).2
        = (Stored.getString 131072
          (Stream.ofBytes (bytes "backup true\n")) wordTerms).2
      ∧ Below maxTempstr (Stored.getNumber (fun _ => 0) 0 none (some 49)
          (Stream.ofBytes (bytes "5 ")) (bytes ", \t\n")).2 := by
  obtain ⟨hstring, hsame, hnumber⟩ := token_buffers_bounded
  obtain ⟨hbelow, hleaves⟩ := hstring 4
    (Stream.ofBytes (bytes "backup true\n")) wordTerms (by decide)
  have hkept : ((bytes "backup true\n").takeWhile
      (isToken wordTerms)).take 3 = bytes "bac" := by
    decide
  rw [← hkept]
  exact ⟨hbelow, hleaves, hsame _ _ _ _ (by decide) (by decide),
    (hnumber _ _ _ _ _ _).2⟩

end Tinjac
