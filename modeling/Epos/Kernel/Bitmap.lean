import Mathlib.Algebra.Group.Nat.Defs
import Mathlib.Data.List.Basic

/-!
# Bitmaps

`utility/bitmap.h`. An access to a word that `_map` does not have makes an operation
fail. Shifts of an `int` and `- 1` are those of the processor.
-/

namespace Epos

/-- `Bitmap<BITS>`. -/
structure Bitmap where
  bits : Nat
  map : List (BitVec 32)
  deriving DecidableEq, Repr

namespace Bitmap

/-- A new bitmap of so many bits. `SIZE` is computed in an `unsigned int`. -/
def init (bits : Nat) : Bitmap where
  bits := bits
  map := List.replicate ((bits + 31) % 2 ^ 32 / 32) 0

/-- `1 << (index & mask)`. -/
def bit (index : Nat) : BitVec 32 := 1#32 <<< (index % 32)

def set (b : Bitmap) (index : Nat) : Option (Bool × Bitmap) :=
  if index < b.bits then do
    let word ← b.map[index / 32]?
    if word &&& bit index = 0 then
      some (true, { b with map := b.map.set (index / 32) (word ||| bit index) })
    else some (false, b)
  else some (false, b)

def reset (b : Bitmap) (index : Nat) : Option (Bool × Bitmap) :=
  if index < b.bits then do
    let word ← b.map[index / 32]?
    if word &&& bit index ≠ 0 then
      some (true, { b with map := b.map.set (index / 32) (word &&& ~~~bit index) })
    else some (false, b)
  else some (false, b)

/-- The loop of `full` over `n` words from the word `i` on. -/
def fullWords (b : Bitmap) (i : Nat) : Nat → Option Bool
  | 0 => some true
  | n + 1 => do
    let word ← b.map[i]?
    if word = BitVec.allOnes 32 then b.fullWords (i + 1) n else some false

def full (b : Bitmap) (upto : Nat) : Option Bool := do
  let whole ← b.fullWords 0 (upto / 32)
  if whole ∧ upto % 32 ≠ 0 then
    let word ← b.map[upto / 32]?
    some (word ||| ~~~(bit upto - 1) == BitVec.allOnes 32)
  else some whole

/-- The loop of `empty` over `n` words from the word `i` on. -/
def emptyWords (b : Bitmap) (i : Nat) : Nat → Option Bool
  | 0 => some true
  | n + 1 => do
    let word ← b.map[i]?
    if word = 0 then b.emptyWords (i + 1) n else some false

def empty (b : Bitmap) (upto : Nat) : Option Bool := do
  let whole ← b.emptyWords 0 (upto / 32)
  if whole ∧ upto % 32 ≠ 0 then
    let word ← b.map[upto / 32]?
    some (word &&& (bit upto - 1) == 0)
  else some whole

end Bitmap

end Epos
