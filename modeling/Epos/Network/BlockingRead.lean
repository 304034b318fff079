import Epos.Network.Receive

/-!
# Blocking reads

`read` and `read_all` of `Communicator_Common<Channel, false>`, in `communicator.h`, over a TCP
connection. `updated()` blocks until there is a segment, so a call that has consumed all segments
waits. What is written behind `d` is given with its places.
-/

namespace Epos

namespace Communicator

/-- `sizeof(IP::Header) + sizeof(Header)` of TCP. -/
def HEADERS_SIZE : Nat := IP.headerSize + TCP.headerSize

/-- A segment, held in one or several buffers. -/
abbrev Pool := ReceivedPool TCP.headerSize

/-- What a call has come to: the result unless it still waits, as 32 bits, the writes one after
    the other, and the number of segments that it has consumed. -/
structure Outcome where
  returned : Option Nat := none
  writes : List (UInt8 × Nat) := []
  consumed : Nat := 0

/-- A segment that has been consumed before, with what it wrote from an offset on. -/
def Outcome.after (offset : Nat) (writes : List (UInt8 × Nat)) (o : Outcome) : Outcome where
  returned := o.returned
  writes := writes.map (fun w => (w.1, offset + w.2)) ++ o.writes
  consumed := o.consumed + 1

/-- The loop of `read`, where `data` has been moved by `offset`. -/
def readLoop (size : Nat) : List Pool → (offset received : Nat) → Outcome
  | [], _, _ => {}
  | buf :: rest, offset, received =>
    let segment := TCP.Connection.read buf size
    let received := (received + segment.1) % 2 ^ 32
    let next : Outcome :=
      if received ≤ size then readLoop size rest (offset + segment.1) received
      else { returned := some size }
    next.after offset segment.2

/-- `read(d, size)`. -/
def read (segments : List Pool) (size : Nat) : Outcome := readLoop size segments 0 0

/-- The number of bytes that `read_all` asks a segment for. `size()` of a pool is the one of its
    first buffer. -/
def coppied (buf : Pool) (size received : Nat) : Nat :=
  let full := subUnsigned buf.head.size HEADERS_SIZE
  if (received + full) % 2 ^ 32 > size then subUnsigned size received else full

/-- The loop of `read_all`. -/
def readAllLoop (size : Nat) : List Pool → (received r : Nat) → Outcome
  | [], received, r => if received < size then {} else { returned := some r }
  | buf :: rest, received, r =>
    if received < size then
      let coppied := coppied buf size received
      let segment := TCP.Connection.read buf coppied
      let next := readAllLoop size rest ((received + coppied) % 2 ^ 32) ((r + segment.1) % 2 ^ 32)
      next.after received segment.2
    else { returned := some r }

/-- `read_all(d, size)`. -/
def read_all (segments : List Pool) (size : Nat) : Outcome := readAllLoop size segments 0 0

end Communicator

end Epos
