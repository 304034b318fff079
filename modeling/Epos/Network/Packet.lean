import Mathlib.Algebra.Group.Nat.Defs
import Mathlib.Algebra.GroupWithZero.Nat
import Mathlib.Data.Fintype.Pi
import Mathlib.Logic.Function.Basic

/-!
# Packets

The bytes of IP packets, UDP messages and TCP segments as they stand in memory, with
the accessors of their headers. Fields of two bytes are in network order, whatever
the order of the CPU. `unsigned int` and `unsigned long` have 32 bits.
-/

namespace Epos

/-- `a - b` on `unsigned int`. -/
def subUnsigned (a b : Nat) : Nat := (a + 2 ^ 32 - b) % 2 ^ 32

theorem subUnsigned_lt (a b : Nat) : subUnsigned a b < 2 ^ 32 := Nat.mod_lt _ (by decide)

theorem subUnsigned_of_le {a b : Nat} (hle : b ≤ a) (ha : a < 2 ^ 32) :
    subUnsigned a b = a - b := by
  unfold subUnsigned
  omega

theorem subUnsigned_self (n : Nat) : subUnsigned n n = 0 := by
  unfold subUnsigned
  rw [Nat.add_sub_cancel_left]
  exact Nat.mod_self _

/-- The bytes from an address on. -/
abbrev Bytes := Nat → UInt8

namespace Bytes

/-- `(ptr[i] << 8) | ptr[i + 1]`, which is `ntohs` of the two bytes. -/
def word (ptr : Bytes) (i : Nat) : Nat := (ptr i).toNat <<< 8 ||| (ptr (i + 1)).toNat

/-- The two bytes get `htons(v)`. -/
def store (ptr : Bytes) (i v : Nat) : Bytes :=
  Function.update (Function.update ptr i (UInt8.ofNat (v >>> 8))) (i + 1) (UInt8.ofNat v)

/-- `ptr + i`. -/
def shift (ptr : Bytes) (i : Nat) : Bytes := fun j => ptr (i + j)

def take (ptr : Bytes) (n : Nat) : List UInt8 := (List.range n).map ptr

theorem length_take (ptr : Bytes) (n : Nat) : (ptr.take n).length = n := by
  unfold take
  rw [List.length_map, List.length_range]

theorem take_add (ptr : Bytes) (n k : Nat) :
    ptr.take (n + k) = ptr.take n ++ (ptr.shift n).take k := by
  unfold take
  rw [List.range_add, List.map_append, List.map_map]
  rfl

/-- Where an object of these bytes stands. -/
def ofList (l : List UInt8) : Bytes := fun i => l.getD i 0

end Bytes

/-! ## `NIC_Common::Address` -/

abbrev Address (n : Nat) := Fin n → UInt8

namespace Address

variable {n : Nat}

def null : Address n := fun _ => 0

def and (a b : Address n) : Address n := fun i => a i &&& b i

def or (a b : Address n) : Address n := fun i => a i ||| b i

def not (a : Address n) : Address n := fun i => ~~~(a i)

/-- `operator bool()`. -/
def toBool (a : Address n) : Bool := decide (∃ i, a i ≠ 0)

end Address

/-! ## IP -/

namespace IP

abbrev Address := Epos.Address 4

-- for the literals that index an address
instance neZeroFour : NeZero 4 := ⟨by decide⟩

/-- `sizeof(Header)`. -/
def headerSize : Nat := 20

/-- `IP::MTU`. -/
def mtu : Nat := 65535 - headerSize

/-- `Ethernet::MTU`. -/
def frameSize : Nat := 1500

/-- `IP::MFS`. -/
def mfs : Nat := (frameSize - headerSize) / 8 * 8

namespace Header

/-- The flag `More Fragments`. -/
def MF : Nat := 1

end Header

structure Packet where
  bytes : Bytes

/-- A buffer that has been received, with the `size()` that `update` has given it. -/
structure Buffer where
  packet : Packet
  size : Nat

namespace Packet

variable (p : Packet)

/-- The header length in words of 32 bits. -/
def ihl : Nat := (p.bytes 0).toNat % 16

def length : Nat := p.bytes.word 2

def id : Nat := p.bytes.word 4

/-- The offset in bytes; the header has it in units of eight. -/
def offset : Nat := (p.bytes.word 6 &&& 0x1fff) <<< 3

def flags : Nat := p.bytes.word 6 >>> 13

def protocol : UInt8 := p.bytes 9

def checksum : Nat := p.bytes.word 10

/-- `&_data`. -/
def data : Bytes := p.bytes.shift headerSize

def setLength (length : Nat) : Packet := ⟨p.bytes.store 2 length⟩

/-- `offset(off)`, where `off` is an `unsigned short`. -/
def setOffset (off : Nat) : Packet :=
  ⟨p.bytes.store 6 (p.flags <<< 13 ||| (off % 2 ^ 16) >>> 3)⟩

def setFlags (flg : Nat) : Packet := ⟨p.bytes.store 6 (flg <<< 13 ||| p.offset >>> 3)⟩

def setChecksum (v : Nat) : Packet := ⟨p.bytes.store 10 v⟩

end Packet

def Packet.from (p : Packet) : Address := fun i => p.bytes (12 + i)

def Packet.to (p : Packet) : Address := fun i => p.bytes (16 + i)

/-- The bytes of a buffer behind the header. -/
def Buffer.payload (buf : Buffer) : List UInt8 := buf.packet.data.take (buf.size - headerSize)

end IP

/-! ## UDP and TCP -/

namespace UDP

/-- `sizeof(Header)`. -/
def headerSize : Nat := 8

/-- A message with its header. -/
structure Message where
  bytes : Bytes

def Message.length (m : Message) : Nat := m.bytes.word 4

def message (p : IP.Packet) : Message := ⟨p.data⟩

end UDP

namespace TCP

/-- `sizeof(Header)`. -/
def headerSize : Nat := 20

/-- A segment with its header. -/
structure Segment where
  bytes : Bytes

def segment (p : IP.Packet) : Segment := ⟨p.data⟩

end TCP

end Epos
