import Epos.Utility.Bignum

/-!
# Poly1305

`Poly1305<Cipher>` of `utility/poly1305.h`. Digits are stored with the lowest byte first, so
they can be written byte by byte. The cipher is a parameter.
-/

namespace Epos

namespace Poly1305

open Bignum (Digit Word)

/-- `unsigned char[16]`. -/
abbrev Block := Fin 16 → UInt8

/-- The bytes from an address on. -/
abbrev Memory := Nat → UInt8

def Block.memory (block : Block) : Memory := fun i => if h : i < 16 then block ⟨i, h⟩ else 0

/-! ## Digits and bytes -/

/-- `reinterpret_cast<Digit *>`. -/
def ofMemory (m : Memory) : Word := fun i =>
  (m (4 * i)).toUInt32 + (m (4 * i + 1)).toUInt32 <<< 8 + (m (4 * i + 2)).toUInt32 <<< 16 +
    (m (4 * i + 3)).toUInt32 <<< 24

/-- `reinterpret_cast<unsigned char *>`. -/
def bytes (w : Word) : Memory := fun i =>
  if i % 4 = 0 then (w (i / 4)).toUInt8
  else if i % 4 = 1 then (w (i / 4) >>> 8).toUInt8
  else if i % 4 = 2 then (w (i / 4) >>> 16).toUInt8
  else (w (i / 4) >>> 24).toUInt8

def setByte (w : Word) (i : Nat) (v : UInt8) : Word := ofMemory (Function.update (bytes w) i v)

/-- The inner loop of `Bignum(bytes, len)` for the digit `i` after some passes. -/
def readDigit (m : Memory) (len i : Nat) : Nat → Digit
  | 0 => 0
  | k + 1 =>
    if 4 * i + k < len then
      readDigit m len i k + (m (4 * i + k)).toUInt32 <<< (8 * UInt32.ofNat k)
    else readDigit m len i k

/-- `Bignum(bytes, len)`. -/
def read (m : Memory) (len : Nat) : Word := fun i => readDigit m len i 4

/-! ## Keys -/

/-- The bytes that `clamp` takes bits from, and the bits that it leaves. -/
def clampMasks : List (Nat × UInt8) :=
  [(3, 15), (7, 15), (11, 15), (15, 15), (4, 252), (8, 252), (12, 252)]

/-- `clamp()`. -/
def clamp (r : Word) : Word :=
  clampMasks.foldl (fun r (i, mask) => setByte r i (bytes r i &&& mask)) r

/-- `Poly1305`: `_k` and `_r`. -/
structure State where
  k : Word := Bignum.ofNat 0
  r : Word := Bignum.ofNat 0

/-- `Poly1305(k, r)`. -/
def init (k r : Block) : State := { k := read k.memory 16, r := clamp (read r.memory 16) }

/-- `k(k1)`. -/
def State.setK (self : State) (k1 : Block) : State := { self with k := read k1.memory 16 }

/-- `r(r1)`. -/
def State.setR (self : State) (r1 : Block) : State :=
  { self with r := clamp (read r1.memory 16) }

/-! ## Stamps -/

variable (passes : Nat) (encrypt : Block → Block → Block)

/-- The loop of `stamp`; `none` if a multiplication needs more passes. -/
def absorb (r cr : Word) (message : Memory) (message_len : Int) : Option Word :=
  if 0 < message_len then do
    let len := (min 16 message_len).toNat
    let c := setByte (read message len) len 1
    let cr := Bignum.addAssign Bignum.bignum17 cr c
    let cr ← Bignum.mulAssign Bignum.bignum17 passes cr r
    absorb r cr (fun i => message (i + 16)) (message_len - 16)
  else some cr
termination_by message_len.toNat

/-- `stamp(out, nonce, message, message_len)`. -/
def stamp (self : State) (nonce : Block) (message : Memory) (message_len : Int) : Option Block := do
  let cr ← absorb passes self.r (Bignum.ofNat 0) message message_len
  let ciphertext := encrypt nonce fun i => bytes self.k i
  let out := (Bignum.simpleAdd (fun _ => 0) (ofMemory ciphertext.memory) cr 4).1
  some fun i => bytes out i

/-- `verify(mac, nonce, message, message_len)`: the length is an `unsigned int`, and an `int`
    for `stamp`. -/
def verify (self : State) (mac nonce : Block) (message : Memory) (message_len : UInt32) :
    Option Bool := do
  let my_mac ← stamp passes encrypt self nonce message message_len.toInt32.toInt
  some ((List.finRange 16).all fun i => my_mac i == mac i)

end Poly1305

end Epos
