import Epos.Kernel.GroupingLists
import Epos.Kernel.Heap

/-!
# `Simple_Heap::alloc` in 32 bits

The request is rounded up, the header is added and the address is computed in unsigned
numbers of 32 bits, over the `Grouping_List<char>` of the heap.
-/

namespace Epos

/-- `Grouping_List<char>`. -/
def charSizes : GroupingSizes := ⟨1, elementBytes, by decide⟩

/-- `while((bytes % sizeof(void *))) ++bytes;`, of as many steps. -/
def alignBytes : Nat → Nat → Nat
  | 0, bytes => bytes
  | k + 1, bytes => if bytes % wordBytes ≠ 0 then alignBytes k ((bytes + 1) % 2 ^ 32) else bytes

/-- The bytes that `alloc(bytes)` searches for. -/
def HeapConfig.requestBytes (c : HeapConfig) (bytes : Nat) : Nat :=
  let bytes := if c.unaligned then bytes else alignBytes wordBytes bytes
  let bytes := if c.typed then (bytes + wordBytes) % 2 ^ 32 else bytes
  let bytes := (bytes + wordBytes) % 2 ^ 32
  if bytes < elementBytes then elementBytes else bytes

/-- The free chunks, and the words in the headers of the blocks. -/
structure WrappingHeap (α : Type*) where
  list : LinkedGroupingList α
  word : Nat → Nat

namespace WrappingHeap

variable {α : Type*} [DecidableEq α] (c : HeapConfig) (h : WrappingHeap α)

/-- What `alloc` does with the element that the search returned. -/
def header (g : LinkedGroupingList α) (bytes : Nat) : Option α → Option Nat × WrappingHeap α
  | none => (none, { h with list := g })
  | some e =>
    let addr := (g.object e + g.size e) % 2 ^ 32
    let (addr, word) :=
      if c.typed then ((addr + wordBytes) % 2 ^ 32, Function.update h.word addr c.this)
      else (addr, h.word)
    (some ((addr + wordBytes) % 2 ^ 32),
      { list := g, word := Function.update word addr bytes })

def alloc (bytes : Nat) : Option (Option Nat × WrappingHeap α) :=
  if bytes = 0 then some (none, h)
  else
    let bytes := c.requestBytes bytes
    match h.list.searchDecrementing charSizes bytes with
    | some (.taken e, g) => some (h.header c g bytes e)
    | _ => none

end WrappingHeap

end Epos
