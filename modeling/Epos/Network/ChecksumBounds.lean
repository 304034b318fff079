import Epos.Network.Checksum

/-!
# Checksums of buffers with an end

The loops of `Network/Checksum.lean` again, with memory that ends where the buffer does. A
byte behind the buffer gives nothing.
-/

namespace Epos

namespace Checksum

/-- `(ptr[i] << 8) | ptr[i + 1]`. -/
def wordIn (ptr : List UInt8) (i : Nat) : Option Nat := do
  let high ← ptr[i]?
  let low ← ptr[i + 1]?
  some (high.toNat <<< 8 ||| low.toNat)

/-- `addWords`. -/
def addWordsIn (ptr : List UInt8) : Nat → Nat → Option Nat
  | 0, sum => some sum
  | n + 1, sum => do
    let sum ← addWordsIn ptr n sum
    let word ← wordIn ptr (2 * n)
    some ((sum + word) % 2 ^ 32)

/-- `addBytes` for all bytes of the buffer. -/
def addBytesIn (ptr : List UInt8) (sum : Nat) : Option Nat := do
  let sum ← addWordsIn ptr ((ptr.length + 1) / 2) sum
  if ptr.length % 2 = 1 then do
    let last ← ptr[ptr.length - 1]?
    some ((sum + last.toNat) % 2 ^ 32)
  else some sum

end Checksum

open Checksum

/-- `IP::checksum(data, size)`. -/
def IP.checksumIn (data : List UInt8) : Option Nat :=
  (addBytesIn data 0).map fun sum => complement (fold sum)

/-- `if(data)` in `TCP::Segment::sum`. -/
def TCP.Segment.addDataIn (data : Option (List UInt8)) (sum : Nat) : Option Nat :=
  match data with
  | some ptr => addBytesIn ptr sum
  | none => some sum

/-- `TCP::Segment::sum`, with `data` as null where `none`. -/
def TCP.Segment.sumIn (g : Segment) (src dst : IP.Address) (data : Option (List UInt8)) :
    Option Segment := do
  let g := g.setChecksum 0
  let size := (data.getD []).length
  let sum ← addWordsIn (IP.pseudoHeader src dst protocol (headerSize + size)) 6 0
  let sum ← addWordsIn (g.bytes.take headerSize) 10 sum
  let sum ← addDataIn data sum
  some (g.setChecksum (complement (fold sum)))

end Epos
