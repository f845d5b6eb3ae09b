/-
The copy of a password record is faithful.

The second pass goes through the strings in the order in which the first
one measured them, and each copy moves the cursor by what was measured
(`Copied`, `Copied.copy`): so the regions tile the block from the
structure to its end, a string that is there is not written again, and
nothing outside the block is written at all.

`pwDup_faithful` says so for every record, whichever of its strings are
missing, and `pwDup_refines` that the copy is what `Model/LoadEntry.lean`
takes it for: the record, and after the `bzero` the record without its
password.
-/
import Mathlib.Algebra.GroupWithZero.Nat
import Tinjac.Model.PwDup

namespace Tinjac

open ByteMem

namespace PwMem

-- ============================================================= strings

/-- The string `s` stands at `a` in the memory, with its NUL behind it. -/
structure Holds (m : PwMem) (a : Nat) (s : CString) : Prop where
  bytes : load m.byte a (s.bytes.length + 1) = s.bytes ++ [nul]
  below : a + s.bytes.length < m.top

/-- The strings of the record at `p`. -/
def Reads (m : PwMem) (p : Nat) (strs : PwString → Option CString) :
    Prop :=
  ∀ x, match strs x with
    | none => (m.passwd p).str x = none
    | some s => ∃ a, (m.passwd p).str x = some a ∧ m.Holds a s

/-- The bytes of a string and its NUL. -/
def stringRegion (a : Nat) (s : CString) : Region :=
  ⟨a, s.bytes.length + 1⟩

theorem Holds.byte {m : PwMem} {a : Nat} {s : CString} (h : m.Holds a s)
    {i : Nat} (hi : i < s.bytes.length + 1) :
    m.byte (a + i) = (s.bytes ++ [nul]).getD i nul := by
  have hget := congrArg (fun l => l.getD i nul) h.bytes
  simp only [load] at hget
  rw [List.getD_eq_getElem?_getD, List.getElem?_map,
    List.getElem?_range hi] at hget
  exact hget

theorem Holds.strlen_eq {m : PwMem} {a : Nat} {s : CString}
    (h : m.Holds a s) : m.strlen a = s.bytes.length := by
  have hbelow := h.below
  have hlen : s.bytes.length < (List.range (m.top - a)).length := by
    rw [List.length_range]
    omega
  unfold strlen
  rw [List.findIdx_eq hlen]
  constructor
  · rw [List.getElem_range, h.byte (Nat.lt_succ_self _)]
    simp
  · intro j hj
    rw [List.getElem_range, h.byte (Nat.lt_succ_of_lt hj),
      List.getD_eq_getElem?_getD, List.getElem?_append_left hj,
      List.getElem?_eq_getElem hj]
    have hmem : s.bytes[j] ∈ s.bytes := List.getElem_mem hj
    have hne : s.bytes[j] ≠ nul := ne_of_mem_of_not_mem hmem s.noNul
    simpa using hne

/-- A string is still there if none of its bytes was written. -/
theorem Holds.congr {m m' : PwMem} {a : Nat} {s : CString}
    (h : m.Holds a s) (htop : m'.top = m.top)
    (hsame : ∀ k, (stringRegion a s).Contains k → m'.byte k = m.byte k) :
    m'.Holds a s := by
  refine ⟨?_, ?_⟩
  · rw [load_congr hsame]
    exact h.bytes
  · rw [htop]
    exact h.below

theorem Reads.congr {m m' : PwMem} {p : Nat}
    {strs : PwString → Option CString} (h : m.Reads p strs)
    (hrec : m'.passwd p = m.passwd p) (htop : m'.top = m.top)
    (hsame : ∀ x a s, (m.passwd p).str x = some a → strs x = some s →
      ∀ k, (stringRegion a s).Contains k → m'.byte k = m.byte k) :
    m'.Reads p strs := by
  intro x
  have hx := h x
  cases hs : strs x with
  | none =>
      rw [hs] at hx
      rw [hrec]
      exact hx
  | some s =>
      rw [hs] at hx
      obtain ⟨a, ha, hholds⟩ := hx
      rw [hrec]
      exact ⟨a, ha, hholds.congr htop (hsame x a s ha hs)⟩

section

variable (m : PwMem) (p : Nat) (x : PwString) (a : Nat)

theorem setStr_str (y : PwString) :
    ((m.setStr p x a).passwd p).str y
      = if y = x then some a else (m.passwd p).str y := by
  unfold setStr
  dsimp only
  rw [if_pos rfl]

theorem setStr_uid :
    ((m.setStr p x a).passwd p).pwUid = (m.passwd p).pwUid := by
  unfold setStr
  dsimp only
  rw [if_pos rfl]

theorem setStr_gid :
    ((m.setStr p x a).passwd p).pwGid = (m.passwd p).pwGid := by
  unfold setStr
  dsimp only
  rw [if_pos rfl]

theorem setStr_top : (m.setStr p x a).top = m.top := rfl

variable {p}

theorem setStr_other {q : Nat} (hq : q ≠ p) :
    (m.setStr p x a).passwd q = m.passwd q := by
  unfold setStr
  dsimp only
  rw [if_neg hq]

end

/-- The first pass measures a string with its NUL. -/
theorem Reads.stringSize_none {m : PwMem} {p : Nat}
    {strs : PwString → Option CString} (h : m.Reads p strs)
    {x : PwString} (hx : strs x = none) : m.stringSize p x = 0 := by
  have hread := h x
  rw [hx] at hread
  unfold stringSize
  rw [hread]

theorem Reads.stringSize_some {m : PwMem} {p : Nat}
    {strs : PwString → Option CString} (h : m.Reads p strs)
    {x : PwString} {s : CString} (hx : strs x = some s) :
    m.stringSize p x = s.bytes.length + 1 := by
  have hread := h x
  rw [hx] at hread
  obtain ⟨a, ha, hholds⟩ := hread
  unfold stringSize
  rw [ha]
  dsimp only
  rw [hholds.strlen_eq]

-- =========================================================== the block

/-- What `malloc` promises of a block of this size: it is in memory, and
nothing of the record is in it. -/
structure Fresh (m : PwMem) (pw : Nat) (strs : PwString → Option CString)
    (block : Region) : Prop where
  below : block.stop ≤ m.top
  struct : (Region.mk pw sizeofPasswd).Disjoint block
  strings : ∀ x a s, (m.passwd pw).str x = some a → strs x = some s →
    (stringRegion a s).Disjoint block

/-- The copy is not the record it is made from. -/
theorem Fresh.ne {m : PwMem} {pw newpw : Nat}
    {strs : PwString → Option CString}
    (h : m.Fresh pw strs ⟨newpw, m.total pw⟩) : pw ≠ newpw := by
  intro heq
  have hstruct := h.struct
  simp only [Region.Disjoint, Region.stop, PwMem.total, sizeofPasswd]
    at hstruct
  omega

end PwMem

open PwMem

section

variable {m : PwMem} {pw newpw : Nat} {strs : PwString → Option CString}

/-- A string that was copied: it is in the block, in front of the
cursor. -/
def CopiedString (newpw : Nat) (strs : PwString → Option CString)
    (d : Dup) (x : PwString) : Prop :=
  match strs x with
  | none => (d.mem.passwd newpw).str x = none
  | some s => ∃ a, (d.mem.passwd newpw).str x = some a
      ∧ load d.mem.byte a (s.bytes.length + 1) = s.bytes ++ [nul]
      ∧ newpw + sizeofPasswd ≤ a ∧ (stringRegion a s).stop ≤ d.cp

/-- Two strings of a record have no byte in common. -/
def Apart (rec : RawPasswd) (strs : PwString → Option CString)
    (x y : PwString) : Prop :=
  ∀ a b s t, rec.str x = some a → rec.str y = some b →
    strs x = some s → strs y = some t →
    (stringRegion a s).Disjoint (stringRegion b t)

theorem Apart.symm {rec : RawPasswd} {x y : PwString}
    (h : Apart rec strs x y) : Apart rec strs y x := by
  intro a b s t ha hb hs ht
  exact (h b a t s hb ha ht hs).symm

theorem apart_of_none {rec : RawPasswd} {x y : PwString}
    (h : strs x = none) : Apart rec strs x y := by
  intro a b s t _ _ hs _
  rw [h] at hs
  cases hs

/-- A string that was copied is in front of one that starts at the
cursor. -/
theorem CopiedString.apart {newpw : Nat} {d : Dup} {x y : PwString}
    {rec : RawPasswd} (h : CopiedString newpw strs d x)
    (hx : rec.str x = (d.mem.passwd newpw).str x)
    (hy : rec.str y = some d.cp) : Apart rec strs x y := by
  intro a b s t ha hb hs _
  unfold CopiedString at h
  rw [hs] at h
  obtain ⟨a', ha', -, -, hstop⟩ := h
  rw [hx, ha'] at ha
  rw [hy] at hb
  cases ha
  cases hb
  exact Or.inl hstop

theorem Apart.of_eq {rec rec' : RawPasswd} {x y : PwString}
    (h : Apart rec strs x y) (hx : rec'.str x = rec.str x)
    (hy : rec'.str y = rec.str y) : Apart rec' strs x y := by
  intro a b s t ha hb hs ht
  rw [hx] at ha
  rw [hy] at hb
  exact h a b s t ha hb hs ht

/-- A string that was copied is still there when the next one is. -/
theorem CopiedString.keep {d d' : Dup} {x : PwString} {bs : List UInt8}
    (h : CopiedString newpw strs d x)
    (hbyte : d'.mem.byte = store d.mem.byte d.cp bs)
    (hstr : (d'.mem.passwd newpw).str x = (d.mem.passwd newpw).str x)
    (hcp : d.cp ≤ d'.cp) : CopiedString newpw strs d' x := by
  unfold CopiedString at h ⊢
  rw [hstr, hbyte]
  cases hs : strs x with
  | none =>
      rw [hs] at h
      exact h
  | some s =>
      rw [hs] at h
      obtain ⟨a, ha, hbytes, hstart, hstop⟩ := h
      refine ⟨a, ha, ?_, hstart, Nat.le_trans hstop hcp⟩
      rw [← hbytes]
      exact load_store_disjoint d.mem.byte (Or.inl hstop)

/-- The second pass, with these strings still to copy: those before are in
the block, one behind the other. -/
structure Copied (m : PwMem) (pw newpw : Nat)
    (strs : PwString → Option CString) (todo : List PwString) (d : Dup) :
    Prop where
  tiles : ∃ rest, d.written = ⟨newpw, sizeofPasswd⟩ :: rest
    ∧ Tiles (newpw + sizeofPasswd) rest d.cp
  room : d.cp + (todo.map (m.stringSize pw)).sum = newpw + m.total pw
  start : newpw + sizeofPasswd ≤ d.cp
  top : d.mem.top = m.top
  outside : ∀ k, ¬ (Region.mk newpw (m.total pw)).Contains k →
    d.mem.byte k = m.byte k
  others : ∀ q, q ≠ newpw → d.mem.passwd q = m.passwd q
  uid : (d.mem.passwd newpw).pwUid = (m.passwd pw).pwUid
  gid : (d.mem.passwd newpw).pwGid = (m.passwd pw).pwGid
  left : ∀ x ∈ todo, (d.mem.passwd newpw).str x = (m.passwd pw).str x
  done : ∀ x, x ∉ todo → CopiedString newpw strs d x
  apart : ∀ x y, x ≠ y → x ∉ todo → y ∉ todo →
    Apart (d.mem.passwd newpw) strs x y

/-- A null string is passed over. -/
theorem Copied.skip {x : PwString} {todo : List PwString} {d : Dup}
    (h : Copied m pw newpw strs (x :: todo) d) (hs : strs x = none)
    (hnull : (m.passwd pw).str x = none) (hsize : m.stringSize pw x = 0) :
    Copied m pw newpw strs todo d := by
  have hroom := h.room
  rw [List.map_cons, List.sum_cons, hsize, Nat.zero_add] at hroom
  refine ⟨h.tiles, hroom, h.start, h.top, h.outside, h.others, h.uid,
    h.gid, fun y hy => h.left y (List.mem_cons_of_mem x hy), ?_, ?_⟩
  · intro y hy
    by_cases hyx : y = x
    · unfold CopiedString
      rw [hyx, hs]
      dsimp only
      rw [h.left x List.mem_cons_self, hnull]
    · exact h.done y (List.not_mem_cons_of_ne_of_not_mem hyx hy)
  · intro y z hyz hy hz
    by_cases hyx : y = x
    · exact apart_of_none (hyx ▸ hs)
    by_cases hzx : z = x
    · exact (apart_of_none (hzx ▸ hs)).symm
    exact h.apart y z hyz (List.not_mem_cons_of_ne_of_not_mem hyx hy)
      (List.not_mem_cons_of_ne_of_not_mem hzx hz)

/-- A string is stored at the cursor, and the cursor goes behind it. -/
theorem Copied.append {x : PwString} {todo : List PwString} {d d' : Dup}
    {s : CString} (h : Copied m pw newpw strs (x :: todo) d)
    (hx : x ∉ todo) (hs : strs x = some s)
    (hsize : m.stringSize pw x = s.bytes.length + 1)
    (hbyte : d'.mem.byte = store d.mem.byte d.cp (s.bytes ++ [nul]))
    (hmem : ∃ mem : PwMem, d'.mem = mem.setStr newpw x d.cp
      ∧ mem.top = d.mem.top ∧ mem.passwd = d.mem.passwd)
    (hcp : d'.cp = d.cp + (s.bytes.length + 1))
    (hwritten : d'.written = d.written ++ [⟨d.cp, s.bytes.length + 1⟩]) :
    Copied m pw newpw strs todo d' := by
  have hroom := h.room
  rw [List.map_cons, List.sum_cons, hsize] at hroom
  have hlen : (s.bytes ++ [nul]).length = s.bytes.length + 1 := by simp
  have hbase := h.start
  have hle : d.cp ≤ d'.cp := by omega
  obtain ⟨rest, hold, htiles⟩ := h.tiles
  obtain ⟨mem, heq, htop, hpasswd⟩ := hmem
  have hnew : ∀ y, (d'.mem.passwd newpw).str y
      = if y = x then some d.cp else (d.mem.passwd newpw).str y := by
    intro y
    rw [heq, setStr_str, hpasswd]
  have hother : ∀ y, y ∉ todo → y ≠ x → CopiedString newpw strs d' y := by
    intro y hy hyx
    have hdone := h.done y (List.not_mem_cons_of_ne_of_not_mem hyx hy)
    refine hdone.keep hbyte ?_ hle
    rw [hnew, if_neg hyx]
  -- what was copied before is in front of the new string
  have hfront : ∀ y, y ∉ todo → y ≠ x →
      Apart (d'.mem.passwd newpw) strs y x := by
    intro y hy hyx
    have hdone := h.done y (List.not_mem_cons_of_ne_of_not_mem hyx hy)
    refine hdone.apart ?_ ?_
    · rw [hnew, if_neg hyx]
    · rw [hnew, if_pos rfl]
  refine ⟨⟨_, ?_, hcp ▸ tiles_snoc htiles (s.bytes.length + 1)⟩, ?_, ?_, ?_,
    ?_, ?_, ?_, ?_, ?_, ?_, ?_⟩
  · rw [hwritten, hold]
    rfl
  · omega
  · omega
  · rw [heq, setStr_top, htop]
    exact h.top
  · intro k hk
    rw [hbyte, store_outside, h.outside k hk]
    intro hin
    refine hk ⟨by have := hin.1; dsimp only at *; omega, ?_⟩
    have hstop := hin.2
    simp only [Region.stop] at hstop ⊢
    omega
  · intro q hq
    rw [heq, setStr_other mem x d.cp hq, hpasswd]
    exact h.others q hq
  · rw [heq, setStr_uid, hpasswd]
    exact h.uid
  · rw [heq, setStr_gid, hpasswd]
    exact h.gid
  · intro y hy
    rw [hnew, if_neg (ne_of_mem_of_not_mem hy hx)]
    exact h.left y (List.mem_cons_of_mem x hy)
  · intro y hy
    by_cases hyx : y = x
    · unfold CopiedString
      rw [hnew, hbyte, hyx, if_pos rfl, hs]
      dsimp only
      refine ⟨d.cp, rfl, ?_, h.start, hcp.ge⟩
      rw [← hlen]
      exact load_store_same d.mem.byte d.cp _
    · exact hother y hy hyx
  · intro y z hyz hy hz
    by_cases hyx : y = x
    · rw [hyx]
      exact (hfront z hz fun hzx => hyz (hyx.trans hzx.symm)).symm
    by_cases hzx : z = x
    · rw [hzx]
      exact hfront y hy hyx
    have hold := h.apart y z hyz
      (List.not_mem_cons_of_ne_of_not_mem hyx hy)
      (List.not_mem_cons_of_ne_of_not_mem hzx hz)
    refine hold.of_eq ?_ ?_
    · rw [hnew, if_neg hyx]
    · rw [hnew, if_neg hzx]

/-- One string more is copied, and what was copied before is still there.
-/
theorem Copied.copy (hreads : m.Reads pw strs)
    (hfresh : m.Fresh pw strs ⟨newpw, m.total pw⟩) (hne : pw ≠ newpw)
    {x : PwString} {todo : List PwString} {d : Dup}
    (h : Copied m pw newpw strs (x :: todo) d) (hx : x ∉ todo) :
    Copied m pw newpw strs todo
      (d.copy pw newpw x (m.stringSize pw x)) := by
  have hread := hreads x
  unfold Dup.copy
  rw [h.others pw hne]
  cases hs : strs x with
  | none =>
      rw [hs] at hread
      rw [hread]
      exact h.skip hs hread (hreads.stringSize_none hs)
  | some s =>
      rw [hs] at hread
      obtain ⟨a, ha, hholds⟩ := hread
      have hsize := hreads.stringSize_some hs
      -- the source string is outside the block, so it is still there
      have hload : load d.mem.byte a (s.bytes.length + 1)
          = s.bytes ++ [nul] := by
        rw [← hholds.bytes]
        apply load_congr
        intro k hk
        exact h.outside k ((hfresh.strings x a s ha hs).not_contains hk)
      rw [ha, hsize]
      dsimp only
      refine h.append hx hs hsize ?_ ⟨_, rfl, rfl, rfl⟩ rfl rfl
      show store d.mem.byte d.cp
        (load d.mem.byte a (s.bytes.length + 1)) = _
      rw [hload]

/-- All strings, in the order of the two passes. -/
theorem copied_all (hreads : m.Reads pw strs)
    (hfresh : m.Fresh pw strs ⟨newpw, m.total pw⟩) (hne : pw ≠ newpw)
    {todo : List PwString} {d : Dup}
    (h : Copied m pw newpw strs todo d) (htodo : todo.Nodup) :
    Copied m pw newpw strs []
      (todo.foldl (fun d x => d.copy pw newpw x (m.stringSize pw x)) d) := by
  induction todo generalizing d with
  | nil => exact h
  | cons x todo ih =>
      obtain ⟨hx, hnodup⟩ := List.nodup_cons.mp htodo
      exact ih (h.copy hreads hfresh hne hx) hnodup

/-- The two passes forget no string. -/
theorem mem_strings (x : PwString) :
    x ∈ [PwString.name, .passwd, .gecos, .dir, .shell] := by
  cases x with
  | name => simp
  | passwd => simp
  | gecos => simp
  | dir => simp
  | shell => simp

/-- The structure was copied, and no string yet. -/
theorem copied_start :
    Copied m pw newpw strs [.name, .passwd, .gecos, .dir, .shell]
      { mem := m.copyStruct newpw pw
        cp := newpw + sizeofPasswd
        written := [⟨newpw, sizeofPasswd⟩] } := by
  have hnew : (m.copyStruct newpw pw).passwd newpw = m.passwd pw := by
    unfold PwMem.copyStruct
    dsimp only
    rw [if_pos rfl]
  refine ⟨⟨[], rfl, rfl⟩, ?_, Nat.le_refl _, rfl, fun _ _ => rfl, ?_, ?_, ?_,
    ?_, ?_, ?_⟩
  · simp only [List.map_cons, List.map_nil, List.sum_cons, List.sum_nil,
      PwMem.total]
    omega
  · intro q hq
    unfold PwMem.copyStruct
    dsimp only
    rw [if_neg hq]
  · rw [hnew]
  · rw [hnew]
  · intro x _
    rw [hnew]
  · intro x hx
    exact absurd (mem_strings x) hx
  · intro x _ _ hx _
    exact absurd (mem_strings x) hx

/-- The copied strings are read back, where the block is in memory. -/
theorem Copied.reads (h : Copied m pw newpw strs [] d)
    (hbelow : (Region.mk newpw (m.total pw)).stop ≤ m.top) :
    d.mem.Reads newpw strs := by
  have hroom := h.room
  rw [List.map_nil, List.sum_nil, Nat.add_zero] at hroom
  intro x
  have hdone := h.done x List.not_mem_nil
  unfold CopiedString at hdone
  cases hs : strs x with
  | none =>
      rw [hs] at hdone
      exact hdone
  | some s =>
      rw [hs] at hdone
      obtain ⟨a, ha, hbytes, -, hstop⟩ := hdone
      refine ⟨a, ha, hbytes, ?_⟩
      rw [h.top]
      simp only [stringRegion, Region.stop] at hstop hbelow
      omega

/-- The state `pw_dup` leaves, where it gets its block. -/
theorem pwDup_copied {malloc : Nat → Option Nat}
    (hreads : m.Reads pw strs) (hmalloc : malloc (m.total pw) = some newpw)
    (hfresh : m.Fresh pw strs ⟨newpw, m.total pw⟩) :
    ∃ d, m.pwDup malloc pw = some (newpw, d)
      ∧ Copied m pw newpw strs [] d := by
  refine ⟨_, ?_, copied_all hreads hfresh hfresh.ne copied_start
    (by simp)⟩
  unfold PwMem.pwDup
  rw [hmalloc]
  rfl

/-- A copy of the record at `pw` in the block at `newpw`. -/
structure IsCopy (m : PwMem) (pw newpw : Nat)
    (strs : PwString → Option CString) (d : Dup) : Prop where
  struct : d.written.head? = some ⟨newpw, sizeofPasswd⟩
  tiles : Tiles newpw d.written (newpw + m.total pw)
  disjoint : d.written.Pairwise Region.Disjoint
  reads : d.mem.Reads newpw strs
  uid : (d.mem.passwd newpw).pwUid = (m.passwd pw).pwUid
  gid : (d.mem.passwd newpw).pwGid = (m.passwd pw).pwGid
  source : d.mem.Reads pw strs
  others : ∀ q, q ≠ newpw → d.mem.passwd q = m.passwd q
  outside : ∀ k, ¬ (Region.mk newpw (m.total pw)).Contains k →
    d.mem.byte k = m.byte k

/-- A source string is still there after anything that writes in the
block only. -/
theorem Fresh.source {m' : PwMem} (hreads : m.Reads pw strs)
    (hfresh : m.Fresh pw strs ⟨newpw, m.total pw⟩)
    (hrec : m'.passwd pw = m.passwd pw) (htop : m'.top = m.top)
    (hout : ∀ k, ¬ (Region.mk newpw (m.total pw)).Contains k →
      m'.byte k = m.byte k) : m'.Reads pw strs := by
  refine hreads.congr hrec htop ?_
  intro x a s ha hs k hk
  exact hout k ((hfresh.strings x a s ha hs).not_contains hk)

theorem Copied.isCopy {d : Dup} (hreads : m.Reads pw strs)
    (hfresh : m.Fresh pw strs ⟨newpw, m.total pw⟩)
    (h : Copied m pw newpw strs [] d) : IsCopy m pw newpw strs d := by
  obtain ⟨rest, hwritten, htiles⟩ := h.tiles
  have hroom := h.room
  rw [List.map_nil, List.sum_nil, Nat.add_zero] at hroom
  have hall : Tiles newpw d.written (newpw + m.total pw) := by
    rw [hwritten, ← hroom]
    exact ⟨rfl, htiles⟩
  refine ⟨?_, hall, tiles_pairwise hall, h.reads hfresh.below, h.uid, h.gid,
    ?_, h.others, h.outside⟩
  · rw [hwritten]
    rfl
  · exact Fresh.source hreads hfresh (h.others pw hfresh.ne) h.top h.outside

-- =========================================================== the bzero

/-- The empty string, which is what is left of a password. -/
def noPassword : CString := CString.ofBuf []

/-- The strings of the copy, after the `bzero`. -/
def withoutPassword (strs : PwString → Option CString) :
    PwString → Option CString :=
  fun x => if x = .passwd then some noPassword else strs x

/-- The `bzero` leaves the NUL that ended the string. -/
theorem PwMem.Holds.bzero {a : Nat} {s : CString} (h : m.Holds a s) :
    (m.bzero a s.bytes.length).Holds a noPassword := by
  have hzero : (m.bzero a s.bytes.length).byte a = nul := by
    unfold PwMem.bzero
    dsimp only
    by_cases hs : s.bytes.length = 0
    · have hnul := h.byte (Nat.succ_pos s.bytes.length)
      rw [List.length_eq_zero_iff.mp hs, Nat.add_zero] at hnul
      rw [hs, List.replicate_zero]
      exact (store_outside m.byte (fun hin => Nat.lt_irrefl a hin.2)).trans
        hnul
    · have hpos : 0 < (List.replicate s.bytes.length (0 : UInt8)).length := by
        rw [List.length_replicate]
        omega
      have hin := store_inside m.byte a _ hpos
      rw [Nat.add_zero, List.getElem_replicate] at hin
      exact hin
  have hbelow := h.below
  refine ⟨?_, ?_⟩
  · show [(m.bzero a s.bytes.length).byte (a + 0)] = [nul]
    rw [Nat.add_zero, hzero]
  · show a + 0 < m.top
    omega

/-- Nothing but the password is gone from the copy: its bytes are NULs,
and the other strings are as they were. -/
structure IsBzeroed (m : PwMem) (pw newpw : Nat)
    (strs : PwString → Option CString) (d : Dup) (m' : PwMem) : Prop where
  reads : m'.Reads newpw (withoutPassword strs)
  records : m'.passwd = d.mem.passwd
  source : m'.Reads pw strs
  outside : ∀ k, ¬ (Region.mk newpw (m.total pw)).Contains k →
    m'.byte k = m.byte k

theorem Copied.isBzeroed {d : Dup} {s : CString}
    (hreads : m.Reads pw strs)
    (hfresh : m.Fresh pw strs ⟨newpw, m.total pw⟩)
    (h : Copied m pw newpw strs [] d) (hs : strs .passwd = some s) :
    IsBzeroed m pw newpw strs d (d.mem.bzeroPasswd newpw) := by
  have hcopy := h.reads hfresh.below
  have hread := hcopy .passwd
  rw [hs] at hread
  obtain ⟨a, ha, hholds⟩ := hread
  have hbz : d.mem.bzeroPasswd newpw = d.mem.bzero a s.bytes.length := by
    unfold PwMem.bzeroPasswd
    rw [ha]
    dsimp only
    rw [hholds.strlen_eq]
  -- the bytes that are zeroed are the string's own
  have hbyte : ∀ k, ¬ (stringRegion a s).Contains k →
      (d.mem.bzero a s.bytes.length).byte k = d.mem.byte k := by
    intro k hk
    refine store_outside d.mem.byte ?_
    rw [List.length_replicate]
    intro hin
    refine hk ⟨hin.1, ?_⟩
    have hstop := hin.2
    simp only [stringRegion, Region.stop] at hstop ⊢
    omega
  rw [hbz]
  have hout : ∀ k, ¬ (Region.mk newpw (m.total pw)).Contains k →
      (d.mem.bzero a s.bytes.length).byte k = m.byte k := by
    intro k hk
    rw [hbyte k ?_, h.outside k hk]
    intro hin
    refine hk (hin.of_inside ?_)
    have hdone := h.done .passwd List.not_mem_nil
    unfold CopiedString at hdone
    rw [hs] at hdone
    obtain ⟨a', ha', -, hstart, hstop⟩ := hdone
    rw [ha] at ha'
    cases ha'
    have hroom := h.room
    rw [List.map_nil, List.sum_nil, Nat.add_zero] at hroom
    rw [hroom] at hstop
    exact ⟨Nat.le_trans (Nat.le_add_right _ _) hstart, hstop⟩
  refine ⟨?_, rfl, ?_, hout⟩
  · intro x
    unfold withoutPassword
    by_cases hx : x = .passwd
    · rw [if_pos hx, hx]
      exact ⟨a, ha, hholds.bzero⟩
    · rw [if_neg hx]
      have hother := hcopy x
      cases ht : strs x with
      | none =>
          rw [ht] at hother
          exact hother
      | some t =>
          rw [ht] at hother
          obtain ⟨b, hb, hbholds⟩ := hother
          refine ⟨b, hb, hbholds.congr rfl ?_⟩
          intro k hk
          have hapart := h.apart x .passwd hx List.not_mem_nil
            List.not_mem_nil b a t s hb ha ht hs
          exact hbyte k (hapart.not_contains hk)
  · exact Fresh.source hreads hfresh (h.others pw hfresh.ne) h.top hout

-- ========================================================= the results

/-- `pw_dup` lays out a faithful copy, and the `bzero` that follows takes
nothing but the copy's password. -/
theorem pwDup_faithful {malloc : Nat → Option Nat}
    (hreads : m.Reads pw strs) (hmalloc : malloc (m.total pw) = some newpw)
    (hfresh : m.Fresh pw strs ⟨newpw, m.total pw⟩) :
    ∃ d, m.pwDup malloc pw = some (newpw, d)
      ∧ IsCopy m pw newpw strs d
      ∧ ∀ s, strs .passwd = some s →
          IsBzeroed m pw newpw strs d (d.mem.bzeroPasswd newpw) := by
  obtain ⟨d, hdup, hcopied⟩ := pwDup_copied hreads hmalloc hfresh
  refine ⟨d, hdup, hcopied.isCopy hreads hfresh, ?_⟩
  intro s hs
  exact hcopied.isBzeroed hreads hfresh hs

/-- The memory of a record with a name and a password, and no other
string. -/
def shortRecord : PwMem where
  byte := store (fun _ => 0) 48 (bytes "ab" ++ [nul] ++ bytes "x")
  top := 200
  passwd := fun _ =>
    { str := fun x =>
        match x with
        | .name => some 48
        | .passwd => some 51
        | _ => none
      pwUid := 1000
      pwGid := 100 }

def shortStrings : PwString → Option CString
  | .name => some (CString.ofBuf (bytes "ab"))
  | .passwd => some (CString.ofBuf (bytes "x"))
  | _ => none

/-- The bytes from 100 on are free. -/
def mallocHundred (n : Nat) : Option Nat :=
  if 100 + n ≤ 200 then some 100 else none

/-- A record that has a name and a password only is copied, and the
`bzero` takes the password of the copy. -/
theorem shortRecord_copied :
    ∃ d, shortRecord.pwDup mallocHundred 0 = some (100, d)
      ∧ IsCopy shortRecord 0 100 shortStrings d
      ∧ ∀ s, shortStrings .passwd = some s →
          IsBzeroed shortRecord 0 100 shortStrings d
            (d.mem.bzeroPasswd 100) := by
  have hname : shortRecord.Holds 48 (CString.ofBuf (bytes "ab")) :=
    ⟨by decide, by decide⟩
  have hpasswd : shortRecord.Holds 51 (CString.ofBuf (bytes "x")) :=
    ⟨by decide, by decide⟩
  have htotal : shortRecord.total 0 = 53 := by decide
  refine pwDup_faithful ?_ (by rw [htotal]; rfl) ⟨?_, ?_, ?_⟩
  · intro x
    cases x with
    | name => exact ⟨48, rfl, hname⟩
    | passwd => exact ⟨51, rfl, hpasswd⟩
    | gecos => rfl
    | dir => rfl
    | shell => rfl
  · rw [htotal]
    decide
  · rw [htotal]
    exact Or.inl (by decide)
  · rw [htotal]
    intro x a s ha hs
    cases x with
    | name =>
        cases ha
        cases hs
        exact Or.inl (by decide)
    | passwd =>
        cases ha
        cases hs
        exact Or.inl (by decide)
    | gecos => cases ha
    | dir => cases ha
    | shell => cases ha

/-- The strings of a record that has them all. -/
def Passwd.strings (p : Passwd) : PwString → Option CString
  | .name => some p.pwName
  | .passwd => some p.pwPasswd
  | .gecos => some p.pwGecos
  | .dir => some p.pwDir
  | .shell => some p.pwShell

/-- The record at `q` is `p`. -/
def PwMem.IsPasswd (m : PwMem) (q : Nat) (p : Passwd) : Prop :=
  m.Reads q p.strings ∧ (m.passwd q).pwUid = p.pwUid
    ∧ (m.passwd q).pwGid = p.pwGid

/-- The copy of a record `p`, and what the `bzero` makes of it. -/
theorem pwDup_refines {malloc : Nat → Option Nat} {p : Passwd}
    (hp : m.IsPasswd pw p) (hmalloc : malloc (m.total pw) = some newpw)
    (hfresh : m.Fresh pw p.strings ⟨newpw, m.total pw⟩) :
    ∃ d, m.pwDup malloc pw = some (newpw, d)
      ∧ d.mem.IsPasswd newpw p
      ∧ (d.mem.bzeroPasswd newpw).IsPasswd newpw (Tinjac.bzeroPasswd p)
      ∧ (d.mem.bzeroPasswd newpw).IsPasswd pw p := by
  obtain ⟨hreads, huid, hgid⟩ := hp
  obtain ⟨d, hdup, hcopy, hbz⟩ := pwDup_faithful hreads hmalloc hfresh
  have hbzeroed := hbz p.pwPasswd rfl
  have hrecords := hbzeroed.records
  have hstrings : withoutPassword p.strings
      = (Tinjac.bzeroPasswd p).strings := by
    funext x
    cases x with
    | name => rfl
    | passwd => rfl
    | gecos => rfl
    | dir => rfl
    | shell => rfl
  refine ⟨d, hdup, ⟨hcopy.reads, hcopy.uid.trans huid,
    hcopy.gid.trans hgid⟩, ⟨?_, ?_, ?_⟩, ⟨hbzeroed.source, ?_, ?_⟩⟩
  · rw [← hstrings]
    exact hbzeroed.reads
  · rw [hrecords]
    exact hcopy.uid.trans huid
  · rw [hrecords]
    exact hcopy.gid.trans hgid
  · rw [hrecords, hcopy.others pw hfresh.ne]
    exact huid
  · rw [hrecords, hcopy.others pw hfresh.ne]
    exact hgid

end

end Tinjac
