import Epos.Network.Fragments

/-!
# Checksums of datagrams that are sent in fragments

The loop of `UDP::send` over the buffers of a datagram, which adds the data of one buffer
after the other to the sum in the header.
-/

namespace Epos

namespace UDP

/-- `sizeof(Data)`. -/
def mtu : Nat := IP.mtu - headerSize

/-- How many bytes of data each buffer gets. The first one has the header as well. -/
def chunkSizes (size : Nat) : List Nat :=
  match IP.bufferSizes (size + headerSize) with
  | [] => []
  | buf :: rest => (buf - headerSize - IP.headerSize) :: rest.map (· - IP.headerSize)

namespace Message

/-- `message->sum_data(data, size); data += size` for one buffer after the other. -/
def sumChunks : Nat → Bytes → List Nat → Nat
  | checksum, _, [] => checksum
  | checksum, data, size :: rest =>
    sumChunks (sumData checksum data size) (data.shift size) rest

/-- The message when `send` has summed it up. -/
def sumAll (m : Message) (src dst : IP.Address) (data : Bytes) (sizes : List Nat) : Message :=
  m.sumTrailer (sumChunks (m.sumHeader src dst) data sizes)

end Message

end UDP

end Epos
