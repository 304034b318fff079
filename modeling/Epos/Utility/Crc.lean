import Mathlib.Data.Nat.Notation

/-!
# CRC-16

`CRC::crc16` of `utility/crc.h`. Shifts and exclusive ors are made in `int`; the assignments to
`crc` keep the low 16 bits, which depend on those of the operands only.
-/

namespace Epos

namespace CRC

/-- `(unsigned short)(*ptr++)`, where a signed `char` is extended with its sign. -/
def unsignedShort (signed : Bool) (c : BitVec 8) : BitVec 16 :=
  if signed then c.signExtend 16 else c.setWidth 16

/-- The body of the inner loop. -/
def shift (crc : BitVec 16) : BitVec 16 :=
  if crc &&& 0x8000#16 ≠ 0#16 then (crc <<< 1) ^^^ 0x1021#16 else crc <<< 1

/-- `do ... while(--i)`, with `i` rounds to go. -/
def shifts : (i : Nat) → BitVec 16 → BitVec 16
  | 0, crc => crc
  | i + 1, crc => shifts i (shift crc)

/-- The loop over the bytes from `ptr` on. -/
def crc16Loop (signed : Bool) : BitVec 16 → (ptr : List (BitVec 8)) → BitVec 16
  | crc, [] => crc
  | crc, c :: ptr => crc16Loop signed (shifts 8 (crc ^^^ (unsignedShort signed c <<< 8))) ptr

/-- `crc16(ptr, size)` for the `size` bytes at `ptr`. -/
def crc16 (signed : Bool) (ptr : List (BitVec 8)) : BitVec 16 := crc16Loop signed 0#16 ptr

end CRC

end Epos
