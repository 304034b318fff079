import Epos.ForStd.TransitionSystem
import Epos.Kernel.SimpleHash
import Epos.Network.Fragments

/-!
# Reassembly

`IP::update` and the timeout of a `Fragmented`, on what they share with the NIC: the
buffers with their locks and links, the live `Fragmented` objects and the table
`_reassembling`. A freed object keeps its link until its memory is taken again.
-/

namespace Epos

namespace IP

/-- The addresses of `Fragmented` objects. -/
abbrev Frag := Nat

/-- An `IP` with its NIC: `RX_BUFS`, and `NODES` as the size of the table. -/
structure Host where
  address : Address
  netmask : Address
  broadcast : Address
  rxBufs : Nat
  nodes : Nat
  nodes_pos : 0 < nodes

/-- `listening` tells whether `notify` finds an observer of a protocol. The pools that
    observers have and have not freed are `passed`, which is not stored. -/
structure Reassembly where
  packet : Buf → Packet
  next : Buf → Option Buf
  locked : Buf → Bool
  frags : Frag → Option Fragmented
  reassembling : SimpleHash Frag
  listening : UInt8 → Bool
  passed : List Buf

/-- The loop of `PCNet32::free`, from a link on. -/
def freeFrom (next : Buf → Option Buf) : Nat → Option Buf → (Buf → Bool) → Option (Buf → Bool)
  | _, none, locked => some locked
  | 0, some _, _ => none
  | fuel + 1, some buf, locked =>
    freeFrom next fuel (next buf) (Function.update locked buf false)

/-- The packet is for another host or has a wrong checksum. -/
def Host.refuses (host : Host) (packet : Packet) : Bool :=
  packet.to ≠ host.address && packet.to ≠ host.broadcast || !packet.check

def Packet.fragmented (packet : Packet) : Bool :=
  packet.flags &&& Header.MF ≠ 0 || packet.offset ≠ 0

namespace Reassembly

variable (host : Host) (s : Reassembly)

/-- `free(buf)`, which gives the buffers back to the NIC. -/
def free (buf : Buf) : Option Reassembly :=
  (freeFrom s.next host.rxBufs (some buf) s.locked).map fun locked => { s with locked := locked }

/-- `if(!notify(prot, pool)) free(pool)`. -/
def deliver (prot : UInt8) (pool : Buf) : Option Reassembly :=
  if s.listening prot then some { s with passed := pool :: s.passed } else s.free host pool

/-- A new `Fragmented` at the address `frag`, inserted into the table. -/
def create (frag : Frag) (key : Nat) : Option Reassembly :=
  ((s.reassembling.construct frag key).insert frag).map fun table =>
    { s with frags := Function.update s.frags frag (some {}), reassembling := table }

/-- `insert(buf)` and what follows it in `update`. -/
def gather (frag : Frag) (buf : Buf) : Option Reassembly := do
  let object ← s.frags frag
  let g ← Gathering.insert { object with next := s.next } s.packet buf
  let reassembled ← g.reassembled
  if reassembled then
    let g ← g.reorder s.packet
    let pool ← g.list.head
    -- The links of the pool are the buffers' own, and outlive the object.
    let table ← s.reassembling.remove frag
    let s :=
      { s with
        next := g.next
        frags := Function.update s.frags frag none
        reassembling := table }
    s.deliver host (s.packet buf).protocol pool
  else
    some
      { s with
        next := g.next
        frags := Function.update s.frags frag (some g.toFragmented) }

/-- `update`, where `frag` is what `new` returns. -/
def update (buf : Buf) (frag : Frag) : Option Reassembly :=
  let packet := s.packet buf
  if host.refuses packet then s.free host buf
  else if packet.fragmented then do
    let el ← s.reassembling.searchKey (key host.netmask packet)
    -- a datagram that is under reassembly, or a first fragment
    match el with
    | some el => s.gather host el buf
    | none =>
      let s ← s.create frag (key host.netmask packet)
      s.gather host frag buf
  -- a datagram that came in one piece
  else s.deliver host packet.protocol buf

/-- `Fragmented::timeout`. -/
def timeout (frag : Frag) : Option Reassembly := do
  let object ← s.frags frag
  let pool ← object.list.head
  let s ← s.free host pool
  -- The object is deleted, and nothing takes its link out of the table.
  some { s with frags := Function.update s.frags frag none }

end Reassembly

/-! ## The system -/

/-- The NIC hands over a frame in the buffer `buf`, an alarm goes off, an observer frees
    a pool, or observers come and go. -/
inductive ReassemblyAction where
  | frame (buf : Buf) (packet : Packet) (frag : Frag)
  | timeout (frag : Frag)
  | free (pool : Buf)
  | listen (prot : UInt8) (on : Bool)

/-- There is no state after an access to a null pointer or a freed object, or when a loop
    does not end. -/
def Reassembly.step (host : Host) (s : Reassembly) : ReassemblyAction → Option Reassembly
  | .frame buf packet frag =>
    let s :=
      { s with
        packet := Function.update s.packet buf packet
        locked := Function.update s.locked buf true }
    s.update host buf frag
  -- the handler is the one of this object, which is deleted
  | .timeout frag => s.timeout host frag
  | .free pool => { s with passed := s.passed.erase pool }.free host pool
  | .listen prot on => some { s with listening := Function.update s.listening prot on }

/-- The NIC writes to buffers that have been returned to it, `new` returns memory that is
    not in use, and only a live object has an alarm. -/
def Reassembly.Enabled (host : Host) (s : Reassembly) : ReassemblyAction → Prop
  | .frame buf _ frag => buf < host.rxBufs ∧ s.locked buf = false ∧ s.frags frag = none
  | .timeout frag => s.frags frag ≠ none
  | .free pool => pool ∈ s.passed
  | .listen _ _ => True

/-- One `IP`, any frames, alarms and observers, from the empty table on. -/
def reassembly (host : Host) : TransitionSystem (Option Reassembly) ReassemblyAction where
  Init σ := ∃ packet next rank listening, σ = some
    { packet := packet
      next := fun _ => none
      locked := fun _ => false
      frags := fun _ => none
      reassembling :=
        { vector := .init host.nodes
          synonyms := { next := next, header := {}, rank := rank } }
      listening := listening
      passed := [] }
  Enabled σ a := ∃ s, σ = some s ∧ s.Enabled host a
  next σ a := σ.bind (·.step host a)

end IP

end Epos
