import Epos.Network.Checksum

/-!
# Copying what has been received

`UDP::receive` and `TCP::Connection::read` with what they write to the buffer of the caller.
The two loops differ in the size of the header in front of the data.
-/

namespace Epos

/-- The writes of `memcpy(data + offset, src, len)`: the bytes with their places. -/
def memcpy (offset : Nat) (src : Bytes) (len : Nat) : List (UInt8 × Nat) :=
  (src.take len).zipIdx offset

/-- The loop over the rest of the buffers' data, each with its length, where `size` bytes have
    been counted: what is counted in the end, and the writes. -/
def copyBuffers (s : Nat) : List (Bytes × Nat) → Nat → Nat → Nat × List (UInt8 × Nat)
  | [], _, size => (size, [])
  | (src, len) :: rest, offset, size =>
    if size ≤ s then
      let copied := copyBuffers s rest (offset + len) ((size + len) % 2 ^ 32)
      (copied.1, memcpy offset src len ++ copied.2)
    else (size, [])

/-- What `update` hands over: every buffer has its headers, and `size()` is an `unsigned int`. -/
structure ReceivedPool (headerSize : Nat) where
  head : IP.Buffer
  rest : List IP.Buffer
  le_head : IP.headerSize + headerSize ≤ head.size
  le_rest : ∀ buf ∈ rest, IP.headerSize ≤ buf.size
  lt_head : head.size < 2 ^ 32
  lt_rest : ∀ buf ∈ rest, buf.size < 2 ^ 32

namespace ReceivedPool

variable {headerSize : Nat}

/-- `data` and `len` of each round. -/
def parts (pool : ReceivedPool headerSize) : List (Bytes × Nat) :=
  (pool.head.packet.data.shift headerSize,
      subUnsigned (subUnsigned pool.head.size IP.headerSize) headerSize) ::
    pool.rest.map fun buf => (buf.packet.data, subUnsigned buf.size IP.headerSize)

end ReceivedPool

/-- `UDP::receive(pool, d, s)`. -/
def UDP.receiveTo (pool : ReceivedPool UDP.headerSize) (s : Nat) : Nat × List (UInt8 × Nat) :=
  let copied := copyBuffers s pool.parts 0 0
  (if (message pool.head.packet).check then copied.1 else 0, copied.2)

/-- `TCP::Connection::read(pool, d, s)`. -/
def TCP.Connection.read (pool : ReceivedPool TCP.headerSize) (s : Nat) :
    Nat × List (UInt8 × Nat) :=
  copyBuffers s pool.parts 0 0

end Epos
