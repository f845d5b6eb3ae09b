/-
`pw_dup`, down to the bytes it writes, and the `bzero` that
`load_entry` does on the copy.

`Model/LoadEntry.lean` takes the copy of a password record for the
record itself. Here a record is a `struct passwd` of pointers into a flat
memory of bytes, any of which may be null, and the copy is one block
that the function lays out itself. The fields of the structure are kept
apart from the bytes; its place in memory is not: the block starts with
`sizeof(struct passwd)` bytes that no string may use.

`size_t` is a `Nat`: the sizes are of strings that are in memory, and no
five of them add up to 2^64. `malloc` is a parameter. `written` is a
history variable: the regions of the block that were filled, in order.
-/
import Tinjac.Lib.ByteMem
import Tinjac.Model.LoadEntry

namespace Tinjac

open ByteMem

/-- The strings of a `struct passwd`. -/
inductive PwString
  | name
  | passwd
  | gecos
  | dir
  | shell
deriving DecidableEq, Repr

/-- `struct passwd`: its pointers, `none` for `NULL`, and its numbers. -/
structure RawPasswd where
  str : PwString → Option Nat
  pwUid : UInt32
  pwGid : UInt32

/-- `sizeof(struct passwd)`: five pointers and two `uint32_t`. -/
def sizeofPasswd : Nat := 48

/-- Bytes below the address `top`, and the structures at their
addresses. -/
structure PwMem where
  byte : Nat → UInt8
  top : Nat
  passwd : Nat → RawPasswd

namespace PwMem

/-- `strlen`. -/
def strlen (m : PwMem) (a : Nat) : Nat :=
  (List.range (m.top - a)).findIdx fun i => m.byte (a + i) == nul

/-- `memcpy` between strings. -/
def memcpy (m : PwMem) (dest src n : Nat) : PwMem :=
  { m with byte := store m.byte dest (load m.byte src n) }

/-- `bzero`. -/
def bzero (m : PwMem) (a n : Nat) : PwMem :=
  { m with byte := store m.byte a (List.replicate n 0) }

/-- `memcpy` of a whole structure. -/
def copyStruct (m : PwMem) (dest src : Nat) : PwMem :=
  { m with passwd := fun q =>
      if q = dest then m.passwd src else m.passwd q }

/-- `p->pw_x = a`. -/
def setStr (m : PwMem) (p : Nat) (x : PwString) (a : Nat) : PwMem :=
  { m with passwd := fun q =>
      if q = p then
        { m.passwd q with str := fun y =>
            if y = x then some a else (m.passwd q).str y }
      else m.passwd q }

/-- `if (pw->pw_x) xsize = strlen(pw->pw_x) + 1`, and 0 if not. -/
def stringSize (m : PwMem) (pw : Nat) (x : PwString) : Nat :=
  match (m.passwd pw).str x with
  | none => 0
  | some a => strlen m a + 1

/-- `total`, after the first pass. -/
def total (m : PwMem) (pw : Nat) : Nat :=
  sizeofPasswd + stringSize m pw .name + stringSize m pw .passwd
    + stringSize m pw .gecos + stringSize m pw .dir
    + stringSize m pw .shell

end PwMem

/-- Where the second pass stands. -/
structure Dup where
  mem : PwMem
  cp : Nat
  written : List Region

/-- `if (pw->pw_x) { memcpy(cp, pw->pw_x, xsize); newpw->pw_x = cp;
cp += xsize; }` -/
def Dup.copy (pw newpw : Nat) (x : PwString) (size : Nat) (d : Dup) :
    Dup :=
  match (d.mem.passwd pw).str x with
  | none => d
  | some a =>
      { mem := (d.mem.memcpy d.cp a size).setStr newpw x d.cp
        cp := d.cp + size
        written := d.written ++ [⟨d.cp, size⟩] }

namespace PwMem

/-- `pw_dup`: the address of the copy and the state it leaves, or `NULL`. -/
def pwDup (m : PwMem) (malloc : Nat → Option Nat) (pw : Nat) :
    Option (Nat × Dup) :=
  let nsize := stringSize m pw .name
  let psize := stringSize m pw .passwd
  let gsize := stringSize m pw .gecos
  let dsize := stringSize m pw .dir
  let ssize := stringSize m pw .shell
  match malloc (total m pw) with
  | none => none
  | some newpw =>
      let d : Dup :=
        { mem := m.copyStruct newpw pw
          cp := newpw + sizeofPasswd
          written := [⟨newpw, sizeofPasswd⟩] }
      let d := d.copy pw newpw .name nsize
      let d := d.copy pw newpw .passwd psize
      let d := d.copy pw newpw .gecos gsize
      let d := d.copy pw newpw .dir dsize
      let d := d.copy pw newpw .shell ssize
      some (newpw, d)

/-- `bzero(pwd->pw_passwd, strlen(pwd->pw_passwd))`, where there is a
password. -/
def bzeroPasswd (m : PwMem) (pwd : Nat) : PwMem :=
  match (m.passwd pwd).str .passwd with
  | none => m
  | some a => m.bzero a (strlen m a)

end PwMem

end Tinjac
