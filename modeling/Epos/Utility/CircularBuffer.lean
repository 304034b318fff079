import Mathlib.Algebra.GroupWithZero.Nat
import Mathlib.Algebra.Ring.Int.Defs
import Mathlib.Data.Fin.Basic
import Mathlib.Logic.Function.Basic

/-!
# Circular buffers

`Circular_Buffer` of `utility/buffer.h`. An array has at least one element and at most half of the
address space, so that no sum of two indices wraps around. `_size` is an `unsigned int` that is
compared with zero only.
-/

namespace Epos

/-- What the code asks of `T`: zero converts to it, and it converts to `bool`, zero to false. -/
class Element (α : Type*) extends Zero α where
  truth : α → Bool
  truth_zero : truth 0 = false

instance : Element Int where
  truth x := x ≠ 0
  truth_zero := rfl

/-- `Circular_Buffer<T, N_ELEMENTS>`. -/
structure Circular_Buffer (α : Type*) (N_ELEMENTS : Nat) where
  size : Int
  head : Fin N_ELEMENTS
  tail : Fin N_ELEMENTS
  data : Fin N_ELEMENTS → α

namespace Circular_Buffer

variable {α : Type*} [Element α] {N : Nat} [NeZero N]

/-- The default constructor, which leaves `_data` as it finds the memory. -/
def init (memory : Fin N → α) : Circular_Buffer α N where
  size := 0
  head := 0
  tail := 0
  data := memory

def empty (b : Circular_Buffer α N) : Bool := b.size = 0

def full (b : Circular_Buffer α N) : Bool := b.tail + 1 = b.head

/-- `operator[]`. -/
def get (b : Circular_Buffer α N) (i : Nat) : α := b.data (b.head + Fin.ofNat N i)

/-- `head()`. -/
def first (b : Circular_Buffer α N) : α := b.data b.head

/-- `tail()`. -/
def last (b : Circular_Buffer α N) : α := b.data b.tail

/-- Where `insert` writes. -/
def slot (b : Circular_Buffer α N) : Fin N := if b.empty then b.tail else b.tail + 1

def insert (b : Circular_Buffer α N) (o : α) : Circular_Buffer α N where
  head := if b.full then b.head + 1 else b.head
  tail := b.slot
  size := if Element.truth (b.data b.slot) then b.size else b.size + 1
  data := Function.update b.data b.slot o

def remove (b : Circular_Buffer α N) : α × Circular_Buffer α N :=
  if Element.truth b.first then
    (b.first, { b with data := Function.update b.data b.head 0, size := b.size - 1 })
  else (0, b)

end Circular_Buffer

end Epos
