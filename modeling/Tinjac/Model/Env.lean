/-
Environment vectors: `env_init`, `env_free`, `env_copy`, `env_set`,
`env_get`, with `strcmp_until` and `glue_strings`.

# Memory

A vector is a heap block of cells and its strings are heap blocks of
their own, reached through the cells: who frees what and who shares what
is visible. A cell just handed out by `malloc` or `realloc` holds
nothing anybody may read (`uninit`). Pointers are block addresses, and
`none` is the null pointer a failed call returns.

A C string is a list of bytes without a NUL; the NUL that ends it is not
part of the list.
-/
import Tinjac.Model.Macros
import Tinjac.Lib.Heap
import Mathlib.Data.List.TakeWhile

namespace Tinjac

open BlockHeap

-- =========================================================== C strings

/-- A NUL-terminated string. -/
structure CString where
  bytes : List UInt8
  noNul : nul ∉ bytes
deriving DecidableEq

namespace CString

/-- What a buffer reads back as: its bytes up to the first NUL. -/
def ofBuf (buf : List UInt8) : CString :=
  { bytes := buf.takeWhile fun c => c != nul
    noNul := fun h => by simpa using List.mem_takeWhile_imp h }

/-- A string literal. -/
def ofString (s : String) : CString := ofBuf (Tinjac.bytes s)

end CString

-- ============================================================ the heap

/-- A cell of a pointer vector. -/
inductive Cell
  | uninit
  | null
  | ptr (a : Nat)
deriving DecidableEq, Repr

/-- A heap block: a string or a vector. -/
inductive Block
  | str (s : CString)
  | vec (cells : List Cell)
deriving DecidableEq

abbrev CHeap := Heap Block

namespace CHeap

/-- The string at an address. -/
def str (h : CHeap) (a : Nat) : CString :=
  match h.block a with
  | some (.str s) => s
  | _ => CString.ofBuf []

/-- The vector at an address. -/
def vec (h : CHeap) (p : Nat) : List Cell :=
  match h.block p with
  | some (.vec cells) => cells
  | _ => []

/-- `p[i]`. -/
def cell (h : CHeap) (p i : Nat) : Cell := (vec h p).getD i .uninit

/-- The string a cell points to. -/
def strAt (h : CHeap) : Cell → CString
  | .ptr a => str h a
  | _ => CString.ofBuf []

/-- `free` of what a cell points to. -/
def freeCell (h : CHeap) : Cell → CHeap
  | .ptr a => h.free a
  | _ => h

@[simp] theorem freeCell_ptr (h : CHeap) (a : Nat) :
    freeCell h (.ptr a) = h.free a := rfl

/-- Store into a vector block. -/
def Block.setCell (i : Nat) (c : Cell) : Block → Block
  | .vec cells => .vec (cells.set i c)
  | b => b

/-- `p[i] = c`. -/
def setCell (h : CHeap) (p i : Nat) (c : Cell) : CHeap :=
  h.update p (Block.setCell i c)

/-- `strdup`. -/
def strdup (h : CHeap) (s : CString) : Option Nat × CHeap :=
  h.alloc (.str s)

/-- `malloc` of a vector of `n` cells. -/
def mallocVec (h : CHeap) (n : Nat) : Option Nat × CHeap :=
  h.alloc (.vec (List.replicate n .uninit))

/-- `realloc` of a vector to `n` cells: the old block is untouched when
it fails, and gone when it succeeds. -/
def reallocVec (h : CHeap) (p n : Nat) : Option Nat × CHeap :=
  let cells := vec h p
  match h.alloc
      (.vec (cells.take n ++ List.replicate (n - cells.length) .uninit)) with
  | (some q, h) => (some q, h.free p)
  | (none, h) => (none, h)

/-- `for (count = 0; envp[count] != NULL; count++)`. -/
def countCells (h : CHeap) (envp : Nat) : Nat :=
  (vec h envp).findIdx fun c => c = .null

end CHeap

open CHeap

-- ======================================================== strcmp_until

/-- `*p` of a string from which `p` is left. -/
def headChar (s : List UInt8) : UInt8 := s.headD nul

/-- `strcmp_until`. -/
def strcmpUntil (left right : List UInt8) (u : UInt8) : Int :=
  match left, right with
  | l :: left', r :: right' =>
      if l ≠ u ∧ l = r then strcmpUntil left' right' u
      else final left right
  | left, right => final left right
where
  /-- What follows the loop. -/
  final (left right : List UInt8) : Int :=
    if (headChar left = nul ∨ headChar left = u)
        ∧ (headChar right = nul ∨ headChar right = u) then 0
    else (headChar left).toInt8.toInt - (headChar right).toInt8.toInt

-- ======================================================== glue_strings

/-- `for (; buf < buf_end && *s != '\0'; buf++, s++) *buf = *s;`, where
`buf` holds the bytes stored so far. -/
def glueCopy (bufferSize : Nat) (buf : List UInt8) :
    List UInt8 → List UInt8
  | [] => buf
  | c :: s =>
      if buf.length < bufferSize then glueCopy bufferSize (buf ++ [c]) s
      else buf

/-- `glue_strings`: the result, and the bytes stored from the start of
the buffer on. -/
def glueStrings (bufferSize : Nat) (a b : List UInt8)
    (separator : UInt8) : Bool × List UInt8 :=
  if bufferSize ≤ 0 then (false, [])
  else
    let buf := glueCopy bufferSize [] a
    if buf.length = bufferSize then (false, buf)
    else
      let buf :=
        if separator ≠ slash ∨ buf = [] ∨ buf.getLast? ≠ some slash then
          buf ++ [separator]
        else buf
      if buf.length = bufferSize then (false, buf)
      else
        let buf := glueCopy bufferSize buf b
        if buf.length = bufferSize then (false, buf)
        else (true, buf ++ [nul])

-- ======================================================= env_init & co

/-- `env_init`. -/
def envInit (h : CHeap) : Option Nat × CHeap :=
  match mallocVec h 1 with
  | (some p, h) => (some p, setCell h p 0 .null)
  | (none, h) => (none, h)

/-- `env_free`. -/
def envFree (h : CHeap) (envp : Nat) : CHeap :=
  (((vec h envp).takeWhile fun c => c ≠ .null).foldl freeCell h).free envp

/-- `while (--i >= 0) free(p[i]);` -/
def envCopyUndo (h : CHeap) (p : Nat) : Nat → CHeap
  | 0 => h
  | i + 1 => envCopyUndo (freeCell h (cell h p i)) p i

/-- The copying loop of `env_copy` with `n` strings still to copy, from
index `i`. -/
def envCopyLoop (h : CHeap) (envp p : Nat) :
    (n i : Nat) → Option Nat × CHeap
  | 0, i => (some p, setCell h p i .null)
  | n + 1, i =>
      match strdup h (strAt h (cell h envp i)) with
      | (some a, h) => envCopyLoop (setCell h p i (.ptr a)) envp p n (i + 1)
      | (none, h) => (none, (envCopyUndo h p i).free p)

/-- `env_copy`. -/
def envCopy (h : CHeap) (envp : Nat) : Option Nat × CHeap :=
  let count := countCells h envp
  match mallocVec h (count + 1) with
  | (some p, h) => envCopyLoop h envp p count 0
  | (none, h) => (none, h)

/-- The search of `env_set`: the last index below `count` whose string
has the name of `envstr`. -/
def envFound (h : CHeap) (envp : Nat) (envstr : CString) (count : Nat) :
    Option Nat :=
  (List.range count).foldl
    (fun found k =>
      if strcmpUntil (strAt h (cell h envp k)).bytes envstr.bytes equals = 0
      then some k else found)
    none

/-- `env_set`. -/
def envSet (h : CHeap) (envp : Nat) (envstr : CString) :
    Option Nat × CHeap :=
  let count := countCells h envp
  let found := envFound h envp envstr count
  let count := count + 1
  match found with
  | some k =>
      match strdup h envstr with
      | (none, h) => (none, h)
      | (some envtmp, h) =>
          let h := freeCell h (cell h envp k)
          (some envp, setCell h envp k (.ptr envtmp))
  | none =>
      match strdup h envstr with
      | (none, h) => (none, h)
      | (some envtmp, h) =>
          match reallocVec h envp (count + 1) with
          | (none, h) => (none, h.free envtmp)
          | (some p, h) =>
              let h := setCell h p count (cell h p (count - 1))
              (some p, setCell h p (count - 1) (.ptr envtmp))

/-- `env_get`: the value found, i.e. the text `q + 1` points to. -/
def envGet (h : CHeap) (name : List UInt8) (envp : Nat) :
    Option (List UInt8) :=
  ((vec h envp).takeWhile fun c => c ≠ .null).findSome? fun c =>
    let p := (strAt h c).bytes
    match p.idxOf? equals with
    | none => none
    | some q =>
        if q = name.length ∧ p.take name.length = name then
          some (p.drop (q + 1))
        else none

end Tinjac
