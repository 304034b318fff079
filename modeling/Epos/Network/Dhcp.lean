import Mathlib.Data.Fin.VecNotation
import Epos.Network.Packet

/-!
# DHCP options

`parse_options` of the DHCP client. The options area of a packet ends with its last byte; a
read behind it gives nothing.
-/

namespace Epos

namespace DHCP

/-- `MAX_OPTIONS_LENGTH`. -/
def maxOptionsLength : Nat := 306

/-- `_options`. -/
structure Options where
  bytes : List UInt8
  length : bytes.length = maxOptionsLength

/-- What `parse_options` writes: the addresses that it gets pointers to, and `_lease_time`. -/
structure Config where
  netmask : IP.Address
  broadcast : IP.Address
  gateway : IP.Address
  nameserver : IP.Address
  leaseTime : Nat

/-- The four bytes as `_lease_time`. -/
def seconds (a : IP.Address) : Nat :=
  (a 0).toNat <<< 24 &&& 0xff000000 ||| (a 1).toNat <<< 16 &&& 0x00ff0000 |||
    (a 2).toNat <<< 8 &&& 0x0000ff00 ||| (a 3).toNat &&& 0x000000ff

namespace Options

variable (opt : Options)

/-- `opt[i]`. -/
def get (i : Nat) : Option UInt8 := opt.bytes[i]?

/-- `opt[i]` to `opt[i + 3]`. -/
def getFour (i : Nat) : Option IP.Address := do
  let a ← opt.get i
  let b ← opt.get (i + 1)
  let c ← opt.get (i + 2)
  let d ← opt.get (i + 3)
  some ![a, b, c, d]

/-! ## The cases of the `switch` -/

/-- The case of a known tag at `i`, with the test of its length and what gets the four bytes
    behind it: `i` at the end of the case, and what has been written. -/
def known (valid : UInt8 → Bool) (store : IP.Address → Config → Config) (i : Nat) (c : Config) :
    Option (Nat × Config) := do
  let i := i + 1
  let len ← opt.get i
  let c ← if valid len then (opt.getFour (i + 1)).map (store · c) else some c
  some (i + len.toNat, c)

def netmask := opt.known (· == 4) fun a c => { c with netmask := a }

def gateway := opt.known (4 ≤ ·) fun a c => { c with gateway := a }

def nameserver := opt.known (4 ≤ ·) fun a c => { c with nameserver := a }

def broadcast := opt.known (· == 4) fun a c => { c with broadcast := a }

def leaseTime := opt.known (· == 4) fun a c => { c with leaseTime := seconds a }

/-- The body of the loop. -/
def body (i : Nat) (c : Config) : Option (Nat × Config) := do
  let tag ← opt.get i
  -- padding: the index stays, and the loop increments it
  if tag = 0 then some (i, c)
  else if tag = 1 then opt.netmask i c
  else if tag = 3 then opt.gateway i c
  else if tag = 6 then opt.nameserver i c
  else if tag = 28 then opt.broadcast i c
  else if tag = 51 then opt.leaseTime i c
  -- the end: the code writes 255 and then increments it like any other index
  else if tag = 255 then some (255, c)
  else do
    -- an option that is not known is passed over by its length
    let len ← opt.get (i + 1)
    some (i + (len.toNat + 1), c)

/-- The loop with a bound on its rounds, from `i` on. It gives nothing if they are not enough,
    and `some none` if it reads behind the area. -/
def parseLoop : Nat → Nat → Config → Option (Option Config)
  | 0, _, _ => none
  | n + 1, i, c =>
    if i < maxOptionsLength then
      match opt.body i c with
      | some (i, c) => parseLoop n (i + 1) c
      | none => some none
    else some (some c)

/-- `parse_options`. -/
def parse (n : Nat) (c : Config) : Option (Option Config) := opt.parseLoop n 0 c

end Options

end DHCP

end Epos
