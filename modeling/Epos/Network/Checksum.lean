import Epos.Network.Packet

/-!
# Checksums

How IP, UDP and TCP sum up what they send, and how they check what they receive. UDP
keeps the sum of the parts of a message in the checksum field of its header, in 16
bits, until the last part has been added.
-/

namespace Epos

/-! ## Adding up -/

namespace Checksum

/-- `for(i = 0; i < size; i += 2) sum += (ptr[i] << 8) | ptr[i + 1]` in `n` rounds. -/
def addWords (ptr : Bytes) : Nat → Nat → Nat
  | 0, sum => sum
  | n + 1, sum => (addWords ptr n sum + ptr.word (2 * n)) % 2 ^ 32

/-- The last one of an odd number of bytes is added twice, the first time in a word with
    the byte behind it. -/
def addBytes (ptr : Bytes) (size sum : Nat) : Nat :=
  let sum := addWords ptr ((size + 1) / 2) sum
  if size % 2 = 1 then (sum + (ptr (size - 1)).toNat) % 2 ^ 32 else sum

/-- `while(sum >> 16) sum = (sum & 0xffff) + (sum >> 16)`. -/
def fold (sum : Nat) : Nat :=
  if sum >>> 16 = 0 then sum else fold ((sum &&& 0xffff) + sum >>> 16)
termination_by sum
decreasing_by
  rename_i h
  rw [Nat.shiftRight_eq_div_pow] at h ⊢
  rw [show (0xffff : Nat) = 2 ^ 16 - 1 from rfl, Nat.and_two_pow_sub_one_eq_mod]
  omega

/-- `~sum` as an `unsigned short`. -/
def complement (sum : Nat) : Nat := (2 ^ 32 - 1 - sum) % 2 ^ 16

end Checksum

open Checksum

namespace IP

/-- `Pseudo_Header`. -/
def pseudoHeader (src dst : Address) (prot : UInt8) (size : Nat) : List UInt8 :=
  List.ofFn src ++ List.ofFn dst ++ [0, prot, UInt8.ofNat (size >>> 8), UInt8.ofNat size]

def checksum (data : Bytes) (size : Nat) : Nat := complement (fold (addBytes data size 0))

/-- `Header::sum`. -/
def Packet.sum (p : Packet) : Packet :=
  let p := p.setChecksum 0
  p.setChecksum (IP.checksum p.bytes (p.ihl * 4))

/-- `Header::check`. -/
def Packet.check (p : Packet) : Bool := IP.checksum p.bytes (p.ihl * 4) != 0xffff

end IP

/-! ## UDP -/

namespace UDP

/-- `IP::UDP`. -/
def protocol : UInt8 := 0x11

namespace Message

variable (m : Message)

def setChecksum (v : Nat) : Message := ⟨m.bytes.store 6 v⟩

/-- `sum_header`: the sum so far. -/
def sumHeader (src dst : IP.Address) : Nat :=
  let m := m.setChecksum 0
  let sum := addWords (.ofList (IP.pseudoHeader src dst protocol m.length)) 6 0
  addWords m.bytes 4 sum % 2 ^ 16

/-- `sum_data`, with the sum so far in the checksum field. -/
def sumData (checksum : Nat) (data : Bytes) (size : Nat) : Nat :=
  addBytes data size checksum % 2 ^ 16

/-- `sum_trailer`. -/
def sumTrailer (checksum : Nat) : Message := m.setChecksum (complement (fold checksum))

/-- With `Traits<UDP>::checksum`. -/
def check : Bool := IP.checksum m.bytes m.length != 0xffff

end Message

/-- The loop of `receive` over the buffers' lengths. -/
def copied (s : Nat) : List Nat → Nat → Nat
  | [], size => size
  | len :: rest, size => if size ≤ s then copied s rest ((size + len) % 2 ^ 32) else size

/-- `receive(pool, d, s)`, without the bytes that are copied to `d`. -/
def receive (pool : List IP.Buffer) (s : Nat) : Nat :=
  match pool with
  | [] => 0
  | head :: rest =>
    let len (buf : IP.Buffer) := subUnsigned buf.size IP.headerSize
    let size := copied s (subUnsigned (len head) headerSize :: rest.map len) 0
    if (message head.packet).check then size else 0

end UDP

/-! ## TCP -/

namespace TCP

/-- `IP::TCP`. -/
def protocol : UInt8 := 0x06

namespace Segment

variable (g : Segment)

def setChecksum (v : Nat) : Segment := ⟨g.bytes.store 16 v⟩

/-- `sum`, with `data` as null where `none`. -/
def sum (src dst : IP.Address) (data : Option Bytes) (size : Nat) : Segment :=
  let g := g.setChecksum 0
  let sum := addWords (.ofList (IP.pseudoHeader src dst protocol (headerSize + size))) 6 0
  let sum := addWords g.bytes 10 sum
  let sum := match data with
    | some ptr => addBytes ptr size sum
    | none => sum
  g.setChecksum (complement (fold sum))

def check (length : Nat) : Bool := IP.checksum g.bytes length != 0xffff

end Segment

/-- `TCP::update` frees the pool without looking for a connection. -/
def drops (pool : IP.Buffer) : Bool :=
  let size := subUnsigned (subUnsigned pool.size IP.headerSize) headerSize
  size != 0 && !(segment pool.packet).check size

end TCP

end Epos
