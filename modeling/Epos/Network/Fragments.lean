import Epos.Kernel.Bitmap
import Epos.Kernel.SimpleList
import Epos.Network.Checksum

/-!
# Fragments of datagrams

`IP::alloc` on the side of the sender, with the `alloc` of the NIC, and `Fragmented` on
the side of the receiver. The buffers of a NIC are linked into the list of a
`Fragmented` through their `link()`s, `next` here.
-/

namespace Epos

/-- The buffers of a NIC. -/
abbrev Buf := Nat

namespace IP

/-! ## Sending -/

/-- `max_data` in `PCNet32::alloc`, with `sizeof(Header)` as `always`. -/
def maxData : Nat := frameSize - headerSize

/-- The loop of `PCNet32::alloc`: the sizes of the buffers for `size` bytes. -/
def bufferSizes (size : Nat) : List Nat :=
  if size = 0 then []
  else (if maxData < size then frameSize else size + headerSize) :: bufferSizes (size - maxData)
termination_by size
decreasing_by
  have hpos : 0 < maxData := by decide
  omega

/-- `PCNet32::alloc` for `once + payload` bytes: the sizes of the buffers in the pool.
    An empty pool has no head to return. -/
def nicAlloc (txBufs once payload : Nat) : Option (List Nat) :=
  let total := (payload + once) % 2 ^ 32
  if txBufs < total / maxData ∨ 2 ^ 31 ≤ total ∨ total = 0 then none
  else some (bufferSizes total)

/-- The loop of `alloc`, where `header` has been copied to every packet. -/
def setupHeaders (header : Packet) : Nat → List Nat → List Packet
  | _, [] => []
  | offset, size :: rest =>
    let packet := header.setFlags (if rest = [] then 0 else Header.MF)
    let packet := packet.setLength size
    let packet := packet.setOffset offset
    packet.sum :: setupHeaders header (offset + mfs) rest

/-- `alloc` with a header that has its addresses, `id` and protocol. -/
def alloc (header : Packet) (txBufs once payload : Nat) : Option (List Packet) :=
  (nicAlloc txBufs once payload).map (setupHeaders header 0)

/-! ## Receiving -/

/-- `Key`, as `update` makes it: the address becomes a `bool` before it is shifted. -/
def key (netmask : Address) (packet : Packet) : Nat :=
  (if (packet.from.and netmask.not).toBool then 1 else 0) <<< 16 ||| packet.id

/-- `MAX_FRAGMENTS`. -/
def maxFragments : Nat := (mtu + mfs - 1) / mfs

/-- The bit of the bitmap that stands for a packet. -/
def Packet.index (packet : Packet) : Nat := packet.offset / mfs

structure Fragmented where
  frags : Nat := maxFragments
  bitmap : Bitmap := .init maxFragments
  list : ListHeader Buf := {}

/-- A `Fragmented` with the links of the buffers. -/
structure Gathering extends Fragmented where
  next : Buf → Option Buf

namespace Gathering

/-- `insert(buf)`, where `packet` is what the buffer holds. -/
def insert (g : Gathering) (packet : Buf → Packet) (buf : Buf) : Option Gathering := do
  -- a fragment that came before is not inserted again
  let (fresh, bitmap) ← g.bitmap.set (packet buf).index
  let q : SimpleList Buf := { next := g.next, header := g.list }
  let q ← if fresh then q.insertTail buf else some q
  some
    { frags :=
        -- the last fragment tells how many there are
        if (packet buf).flags &&& Header.MF = 0 then ((packet buf).offset + mfs) / mfs
        else g.frags
      bitmap := bitmap
      list := q.header
      next := q.next }

/-- One `insert` after the other. -/
def insertAll (packet : Buf → Packet) : List Buf → Gathering → Option Gathering
  | [], g => some g
  | buf :: rest, g => (g.insert packet buf).bind (insertAll packet rest)

def reassembled (g : Gathering) : Option Bool := g.bitmap.full g.frags

/-- The first loop of `reorder`: the next element of `_list` goes behind `tmp` if it is
    the one with the index `i`, and behind `_list` otherwise. -/
def sortWithin (packet : Buf → Packet) :
    Nat → Nat → (Buf → Option Buf) → ListHeader Buf → ListHeader Buf →
      Option ((Buf → Option Buf) × ListHeader Buf × ListHeader Buf)
  | 0, _, _, _, _ => none
  | fuel + 1, i, next, list, tmp =>
    let q : SimpleList Buf := { next := next, header := list }
    if q.empty then some (next, list, tmp)
    else do
      let (x, q) ← q.removeHead
      let buf ← x
      -- `tmp` collects the elements in order, the others go to the end
      if (packet buf).index = i then
        let t ← SimpleList.insertTail { next := q.next, header := tmp } buf
        sortWithin packet fuel (i + 1) t.next q.header t.header
      else
        let q ← q.insertTail buf
        sortWithin packet fuel i q.next q.header tmp

/-- The second loop of `reorder`. -/
def moveWithin :
    Nat → (Buf → Option Buf) → ListHeader Buf → ListHeader Buf →
      Option ((Buf → Option Buf) × ListHeader Buf)
  | 0, _, _, _ => none
  | fuel + 1, next, list, tmp =>
    let t : SimpleList Buf := { next := next, header := tmp }
    if t.empty then some (next, list)
    else do
      let (x, t) ← t.removeHead
      let buf ← x
      let q ← SimpleList.insertTail { next := t.next, header := list } buf
      moveWithin fuel q.next q.header t.header

/-- `reorder()` with a bound on the rounds of its loops. -/
def reorderWithin (fuel : Nat) (g : Gathering) (packet : Buf → Packet) : Option Gathering :=
  if 1 < g.list.size then do
    let (next, list, tmp) ← sortWithin packet fuel 0 g.next g.list {}
    let (next, list) ← moveWithin fuel next list tmp
    some { g with list := list, next := next }
  else some g

/-- What sorting takes at most: it goes through the list once for each fragment. -/
def reorderFuel : Nat := maxFragments * maxFragments + 1

def reorder (g : Gathering) (packet : Buf → Packet) : Option Gathering :=
  g.reorderWithin reorderFuel packet

end Gathering

end IP

end Epos
