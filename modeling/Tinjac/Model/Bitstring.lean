/-
`include/bitstring.h` on the bitmap area of `struct _entry`.

# Memory

The five bitmaps of an entry are neighbours in one structure, and the
range macros take an inclusive `stop` from their caller, so a bitmap is
a byte offset into the area (`name`) rather than an array of its own: a
write past its last byte lands in the next bitmap, as it does in the
source. The macros below are the ones of the header, with its byte and
mask arithmetic done in `int` and truncated on the store.

`touched` is a history variable: the bit indices, each with the bitmap
it was given for, that `bit_set`, `bit_nset` and `bit_nclear` wrote. No
definition reads it.
-/
import Tinjac.Model.Macros

namespace Tinjac

/-- The bitmap area of an entry. -/
structure Bitmaps where
  byte : Nat → UInt8
  touched : List (Nat × Nat)

namespace Bitmaps

/-- What `calloc` leaves. -/
def zero : Bitmaps := { byte := fun _ => 0, touched := [] }

/-- Store one byte. -/
def store (m : Bitmaps) (k v : Nat) : Bitmaps :=
  { m with byte := fun j => if j = k then UInt8.ofNat v else m.byte j }

/-- Record that a macro wrote these bits of a bitmap. -/
def touch (m : Bitmaps) (name : Nat) (bits : List Nat) : Bitmaps :=
  { m with touched := m.touched ++ bits.map fun i => (name, i) }

end Bitmaps

open Bitmaps

/-- `_bit_byte`. -/
def bitByte (bit : Nat) : Nat := bit >>> 3

/-- `_bit_mask`. -/
def bitMask (bit : Nat) : Nat := 1 <<< (bit &&& 0x7)

/-- `bit_test`. -/
def bitTest (m : Bitmaps) (name bit : Nat) : Bool :=
  ((m.byte (name + bitByte bit)).toNat &&& bitMask bit) != 0

/-- `bit_set`. -/
def bitSet (m : Bitmaps) (name bit : Nat) : Bitmaps :=
  let k := name + bitByte bit
  (m.store k ((m.byte k).toNat ||| bitMask bit)).touch name [bit]

/-- The bytes strictly between two bytes of a bitmap, each set to `v`:
the `while (++_startbyte < _stopbyte)` loop of both range macros. -/
def fillBetween (m : Bitmaps) (name startbyte stopbyte v : Nat) : Bitmaps :=
  (List.range' (startbyte + 1) (stopbyte - startbyte - 1)).foldl
    (fun m k => m.store (name + k) v) m

/-- The bit indices a range macro writes. -/
def bitRange (start stop : Nat) : List Nat :=
  List.range' start (stop + 1 - start)

/-- `bit_nclear`: clear bits `start ... stop`. -/
def bitNclear (m : Bitmaps) (name start stop : Nat) : Bitmaps :=
  let startbyte := bitByte start
  let stopbyte := bitByte stop
  let byte (m : Bitmaps) (k : Nat) := (m.byte (name + k)).toNat
  let m' :=
    if startbyte = stopbyte then
      m.store (name + startbyte)
        (byte m startbyte &&& ((0xff >>> (8 - (start &&& 0x7)))
          ||| (0xff <<< ((stop &&& 0x7) + 1))))
    else
      let m := m.store (name + startbyte)
        (byte m startbyte &&& (0xff >>> (8 - (start &&& 0x7))))
      let m := fillBetween m name startbyte stopbyte 0
      m.store (name + stopbyte)
        (byte m stopbyte &&& (0xff <<< ((stop &&& 0x7) + 1)))
  m'.touch name (bitRange start stop)

/-- `bit_nset`: set bits `start ... stop`. -/
def bitNset (m : Bitmaps) (name start stop : Nat) : Bitmaps :=
  let startbyte := bitByte start
  let stopbyte := bitByte stop
  let byte (m : Bitmaps) (k : Nat) := (m.byte (name + k)).toNat
  let m' :=
    if startbyte = stopbyte then
      m.store (name + startbyte)
        (byte m startbyte ||| ((0xff <<< (start &&& 0x7))
          &&& (0xff >>> (7 - (stop &&& 0x7)))))
    else
      let m := m.store (name + startbyte)
        (byte m startbyte ||| (0xff <<< (start &&& 0x7)))
      let m := fillBetween m name startbyte stopbyte 0xff
      m.store (name + stopbyte)
        (byte m stopbyte ||| (0xff >>> (7 - (stop &&& 0x7))))
  m'.touch name (bitRange start stop)

/-- `bit_clear`. -/
def bitClear (m : Bitmaps) (name bit : Nat) : Bitmaps :=
  let k := name + bitByte bit
  (m.store k ((m.byte k).toNat &&& (0xff ^^^ bitMask bit))).touch name [bit]

/-- The inner loop of both search macros, which shifts a byte as long as
its lowest bit is `low`. -/
def bitShift (low : Nat) : Nat → Nat → Nat → Option Nat
  | 0, _, _ => none
  | fuel + 1, stopbyte, value =>
      if stopbyte &&& 0x1 = low then
        bitShift low fuel (stopbyte >>> 1) (value + 1)
      else some value

/-- The outer loop of both, over this many bytes from `byte` on: a byte
that is `passed` has none of the bits that are looked for. -/
def bitSearch (m : Bitmaps) (name passed low : Nat) :
    Nat → Nat → Option Int
  | 0, _ => some (-1)
  | bytes + 1, byte =>
      let b := (m.byte (name + byte)).toNat
      if b ≠ passed then
        (bitShift low 9 b (byte <<< 3)).map fun value => (value : Int)
      else bitSearch m name passed low bytes (byte + 1)

/-- `bit_ffc`: find the first bit clear. -/
def bitFfc (m : Bitmaps) (name nbits : Nat) : Option Int :=
  bitSearch m name 0xff 1 (bitByte nbits + 1) 0

/-- `bit_ffs`: find the first bit set. -/
def bitFfs (m : Bitmaps) (name nbits : Nat) : Option Int :=
  bitSearch m name 0 0 (bitByte nbits + 1) 0

end Tinjac
