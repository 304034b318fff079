import Epos.ForStd.Span
import Epos.ForStd.TransitionSystem
import Epos.Kernel.GroupingList
import Mathlib.Algebra.Group.Nat.Defs

/-!
# `Simple_Heap`

A heap over one region of memory, on a machine with addresses of 32 bits. What is in the
region is kept by address: the list elements at the start of the free chunks, and the
words of the headers in front of what `alloc` returns.
-/

namespace Epos

/-- `sizeof(Element)`. -/
def elementBytes : Nat := 16

/-- `sizeof(int)` and `sizeof(void *)`. -/
def wordBytes : Nat := 4

/-- How heaps are configured, and where the heap object is. -/
structure HeapConfig where
  typed : Bool
  unaligned : Bool
  this : Nat

structure SimpleHeap where
  list : GroupingList
  word : Nat → Nat

namespace HeapConfig

variable (c : HeapConfig)

/-- The room for the heap pointer and for the size. -/
def headerBytes : Nat := if c.typed then wordBytes + wordBytes else wordBytes

/-- What `alloc(bytes)` takes from the heap. -/
def blockBytes (bytes : Nat) : Nat :=
  let bytes := if c.unaligned then bytes else bytes + (wordBytes - bytes % wordBytes) % wordBytes
  max (bytes + c.headerBytes) elementBytes

end HeapConfig

namespace SimpleHeap

/-- `alloc(bytes)`, which returns a null pointer if there is no memory. -/
def alloc (c : HeapConfig) (h : SimpleHeap) (bytes : Nat) : Option (Option Nat × SimpleHeap) :=
  if bytes = 0 then some (none, h)
  else do
    let bytes := c.blockBytes bytes
    let (e, g) ← h.list.searchDecrementing (some elementBytes) bytes
    match e with
    | none => some (none, h)
    | some e =>
      -- What is taken is the end of the chunk: the element at its start stays.
      let addr := e + g.size e
      let (addr, word) :=
        if c.typed then (addr + wordBytes, Function.update h.word addr c.this) else (addr, h.word)
      some (some (addr + wordBytes), { list := g, word := Function.update word addr bytes })

/-- `free(ptr, bytes)`. -/
def freeBytes (h : SimpleHeap) (ptr bytes : Nat) : Option SimpleHeap :=
  if ptr ≠ 0 ∧ elementBytes ≤ bytes then
    ((h.list.construct ptr bytes).insertMerging ptr).map fun g => { h with list := g }
  -- There is no room for an element in the chunk.
  else some h

/-- There is one heap only, so that the header has to name it. -/
def typedFree (c : HeapConfig) (h : SimpleHeap) (ptr : Nat) : Option SimpleHeap :=
  let addr := ptr - wordBytes
  let bytes := h.word addr
  let addr := addr - wordBytes
  if h.word addr = c.this then h.freeBytes addr bytes else none

def untypedFree (h : SimpleHeap) (ptr : Nat) : Option SimpleHeap :=
  let addr := ptr - wordBytes
  h.freeBytes addr (h.word addr)

/-- `operator delete`. -/
def free (c : HeapConfig) (h : SimpleHeap) (ptr : Nat) : Option SimpleHeap :=
  if c.typed then h.typedFree c ptr else h.untypedFree ptr

/-- `h'` is `h` after writes that leave the heap object, the headers of the blocks and
    what is apart from the blocks alone. -/
structure Overwritten (c : HeapConfig) (blocks : List Span) (h h' : SimpleHeap) : Prop where
  header : h'.list.list.header = h.list.list.header
  groupedSize : h'.list.groupedSize = h.list.groupedSize
  elements : ∀ e, (∀ b ∈ blocks, b.Apart ⟨e, elementBytes⟩) →
    h'.list.list.links.prev e = h.list.list.links.prev e ∧
    h'.list.list.links.next e = h.list.list.links.next e ∧ h'.list.size e = h.list.size e
  words : ∀ b ∈ blocks, ∀ a, b.start ≤ a → a + wordBytes ≤ b.start + c.headerBytes →
    h'.word a = h.word a

end SimpleHeap

/-! ## Runs -/

/-- A heap and the blocks, headers included, that are allocated. -/
structure HeapState where
  heap : Option SimpleHeap
  blocks : List Span := []

inductive HeapAction where
  | alloc (bytes : Nat)
  | free (ptr : Nat)
  /-- Whatever the program does with its memory. -/
  | overwrite (h : SimpleHeap)

namespace HeapState

def step (c : HeapConfig) (σ : HeapState) : HeapAction → HeapState
  | .alloc bytes =>
    match σ.heap.bind (·.alloc c bytes) with
    | some (some ptr, h) =>
      { heap := some h, blocks := ⟨ptr - c.headerBytes, c.blockBytes bytes⟩ :: σ.blocks }
    | some (none, h) => { σ with heap := some h }
    | none => { σ with heap := none }
  | .free ptr =>
    { heap := σ.heap.bind (·.free c ptr)
      blocks := σ.blocks.eraseP (·.start + c.headerBytes = ptr) }
  | .overwrite h => { σ with heap := some h }

/-- The size computed by `alloc` does not wrap, what is freed is a live block, and the
    program writes to its own memory. -/
def CanAct (c : HeapConfig) (σ : HeapState) : HeapAction → Prop
  | .alloc bytes => elementBytes + c.blockBytes bytes < 2 ^ 32
  | .free ptr => ∃ b ∈ σ.blocks, b.start + c.headerBytes = ptr
  | .overwrite h' => ∃ h, σ.heap = some h ∧ h.Overwritten c σ.blocks h'

end HeapState

/-- The heap that `Simple_Heap(addr, bytes)` makes in any memory. -/
def heapOver (c : HeapConfig) (addr bytes : Nat) : TransitionSystem HeapState HeapAction where
  Init σ :=
    0 < addr ∧ elementBytes ≤ bytes ∧ addr + bytes ≤ 2 ^ 32 ∧ σ.blocks = [] ∧
      ∃ links size word, σ.heap =
        (SimpleHeap.mk ⟨⟨links, {}⟩, size, 0⟩ word).freeBytes addr bytes
  Enabled := HeapState.CanAct c
  next := HeapState.step c

end Epos
