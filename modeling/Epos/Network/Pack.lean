import Epos.Utility.Poly1305

/-!
# Protection of messages

`pack`, `unpack`, `otp` and `verify_auth_request` of `TSTP::Security`, in
`network/tstp/security.cc`. A message is the memory from `msg` on: what is protected, and the MAC
behind it. `Node_Id`, `Master_Secret` and `OTP` have 16 bytes, so all of `mi` comes from the loop
over both. The stamp and the cipher are parameters; `verify` of `Poly1305` stamps again and
compares.
-/

namespace Epos

namespace TSTP.Security

namespace Pack

open Poly1305 (Block Memory)

/-- `unsigned long long`, in microseconds. -/
abbrev Time := UInt64

/-- `KEY_EXPIRY / 2`. -/
def POLY_TIME_WINDOW : Time := 1 * 60 * 1000 * 1000 / 2

/-- `sizeof(Master_Secret)`. -/
def SECRET_SIZE : Nat := 16

/-- The stamp for the key of a peer, a nonce and a message of 16 bytes, the cipher for a message
    and a key, and the constant of the class. -/
structure Crypto where
  stamp : (id ms nonce message : Block) → Block
  encrypt : (message key : Block) → Block
  decrypt : (message key : Block) → Block
  use_encryption : Bool

/-- What a `Peer` gives. -/
structure Peer where
  id : Block
  master_secret : Block

/-! ## Memory -/

/-- The 16 bytes from an offset on. -/
def load (msg : Memory) (offset : Nat) : Block := fun i => msg (offset + i)

/-- 16 bytes are copied. -/
def store (msg : Memory) (offset : Nat) (block : Block) : Memory := fun i =>
  if h : offset ≤ i ∧ i - offset < 16 then block ⟨i - offset, h.2⟩ else msg i

/-- The time in the first bytes, the lowest in front, and zeros. -/
def nonce (t : Time) : Block := fun i =>
  if i.val < 8 then (t >>> (8 * UInt64.ofNat i.val)).toUInt8 else 0

/-- `mi = ms ^ _id`. -/
def mi (id ms : Block) : Block := fun i => id i ^^^ ms i

namespace Crypto

variable (c : Crypto)

/-- `verify(mac, nonce, message, 16)`. -/
def verify (id ms mac nonce message : Block) : Bool :=
  (List.finRange 16).all fun i => c.stamp id ms nonce message i == mac i

/-! ## Messages -/

/-- `pack(msg, peer)`. -/
def pack (msg : Memory) (peer : Peer) (now : Time) : Memory :=
  let t := now / POLY_TIME_WINDOW
  let ms := peer.master_secret
  let id := peer.id
  let msg := store msg SECRET_SIZE (c.stamp id ms (nonce t) (load msg 0))
  if c.use_encryption then
    let key := c.stamp id ms (nonce t) (mi id ms)
    store msg 0 (c.encrypt (load msg 0) key)
  else msg

/-- One of the three tries of `unpack`: whether the message verifies, and what it is then. -/
def attempt (peer : Peer) (original_msg mac : Block) (reception_time : Time) (msg : Memory) :
    Bool × Memory :=
  let ms := peer.master_secret
  let id := peer.id
  let key := c.stamp id ms (nonce reception_time) (mi id ms)
  let msg := if c.use_encryption then store msg 0 (c.decrypt original_msg key) else msg
  (c.verify id ms mac (nonce reception_time) (load msg 0), msg)

/-- `unpack(peer, msg, mac, reception_time)`, with what it leaves in `msg`. -/
def unpack (peer : Peer) (msg : Memory) (mac : Block) (reception_time : Time) : Bool × Memory :=
  let original_msg := load msg 0
  -- the window of the reception time, then the one before it, then the one after
  let reception_time := reception_time / POLY_TIME_WINDOW
  let (verified, msg) := c.attempt peer original_msg mac reception_time msg
  if verified then (true, msg)
  else
    let reception_time := reception_time - 1
    let (verified, msg) := c.attempt peer original_msg mac reception_time msg
    if verified then (true, msg)
    else
      let reception_time := reception_time + 2
      let (verified, msg) := c.attempt peer original_msg mac reception_time msg
      if verified then (true, msg) else (false, store msg 0 original_msg)

/-! ## One-time passwords -/

/-- `otp(master_secret, id)`. -/
def otp (master_secret id : Block) (now : Time) : Block :=
  let t := now / POLY_TIME_WINDOW
  c.stamp id master_secret (nonce t) (mi id master_secret)

/-- `verify_auth_request(master_secret, id, otp)`. -/
def verify_auth_request (master_secret id otp : Block) (now : Time) : Bool :=
  let t := now / POLY_TIME_WINDOW
  if c.verify id master_secret otp (nonce t) (mi id master_secret) then true
  else
    let t := t - 1
    if c.verify id master_secret otp (nonce t) (mi id master_secret) then true
    else
      let t := t + 2
      if c.verify id master_secret otp (nonce t) (mi id master_secret) then true else false

end Crypto

end Pack

end TSTP.Security

end Epos
