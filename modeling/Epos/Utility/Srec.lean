import Epos.ForStd.MarkedLoop
import Mathlib.Logic.Function.Basic

/-!
# S-records

`SREC` of `utility/srec.h` and `utility/srec.cc`. An image is the memory from `this` on: the
loops do not look for its end. What is left open is marked by `none`: a loop that has not come to
an end within the given time, and a write outside of `srec_t::data`. `load_segment()` returns its
copies with its result; they do not overlap the image.
-/

namespace Epos.SREC

def ascii (c : Char) : BitVec 8 := BitVec.ofNat 8 c.toNat

def ctab : List (BitVec 8) := List.flatten [
  [-1, -1, -1, -1, -1, -1, -1, -1,  -1, -1, -1, -1, -1, -1, -1, -1],
  [-1, -1, -1, -1, -1, -1, -1, -1,  -1, -1, -1, -1, -1, -1, -1, -1],
  [-1, -1, -1, -1, -1, -1, -1, -1,  -1, -1, -1, -1, -1, -1, -1, -1],
  [ 0,  1,  2,  3,  4,  5,  6,  7,   8,  9, -1, -1, -1, -1, -1, -1],
  [-1, 10, 11, 12, 13, 14, 15, -1,  -1, -1, -1, -1, -1, -1, -1, -1],
  [-1, -1, -1, -1, -1, -1, -1, -1,  -1, -1, -1, -1, -1, -1, -1, -1],
  [-1, 10, 11, 12, 13, 14, 15, -1,  -1, -1, -1, -1, -1, -1, -1, -1],
  [-1, -1, -1, -1, -1, -1, -1, -1,  -1, -1, -1, -1, -1, -1, -1, -1],
  [-1, -1, -1, -1, -1, -1, -1, -1,  -1, -1, -1, -1, -1, -1, -1, -1],
  [-1, -1, -1, -1, -1, -1, -1, -1,  -1, -1, -1, -1, -1, -1, -1, -1],
  [-1, -1, -1, -1, -1, -1, -1, -1,  -1, -1, -1, -1, -1, -1, -1, -1],
  [-1, -1, -1, -1, -1, -1, -1, -1,  -1, -1, -1, -1, -1, -1, -1, -1],
  [-1, -1, -1, -1, -1, -1, -1, -1,  -1, -1, -1, -1, -1, -1, -1, -1],
  [-1, -1, -1, -1, -1, -1, -1, -1,  -1, -1, -1, -1, -1, -1, -1, -1],
  [-1, -1, -1, -1, -1, -1, -1, -1,  -1, -1, -1, -1, -1, -1, -1, -1],
  [-1, -1, -1, -1, -1, -1, -1, -1,  -1, -1, -1, -1, -1, -1, -1, -1]]

def ltab : List Nat := [4, 4, 6, 8, 0, 4, 0, 8, 6, 4]

structure Srec_t where
  type : BitVec 8
  addr : BitVec 32
  count : BitVec 8
  data : Fin 256 → BitVec 8

/-- What a character stands for. -/
def digit (c : BitVec 8) : BitVec 8 := ctab.getD c.toNat (-1)

/-- The position is an `unsigned char`. -/
def C1 (l : Nat → BitVec 8) (p : BitVec 8) : BitVec 32 := (digit (l p.toNat)).signExtend 32

def C2 (l : Nat → BitVec 8) (p : BitVec 8) : BitVec 32 := C1 l p <<< 4 ||| C1 l (p + 1)

/-- An `unsigned char value` that is `C2` at an `int` position. -/
def value (l : Nat → BitVec 8) (pos : Nat) : BitVec 8 := (C2 l (BitVec.ofNat 8 pos)).setWidth 8

namespace Srec_t

/-- `data[i] = value`. -/
def write (srec : Srec_t) (i : Nat) (value : BitVec 8) : Option Srec_t :=
  if h : i < 256 then some { srec with data := Function.update srec.data ⟨i, h⟩ value }
  else none

/-- The first `count` bytes of `data`. -/
def bytes (srec : Srec_t) : List (BitVec 8) := (List.ofFn srec.data).take srec.count.toNat

end Srec_t

/-! ## Decoding a line -/

/-- How often `for(pos = 0; pos < stop; pos += 2)` goes around. -/
def rounds (stop : Int) : Nat := (stop.toNat + 1) / 2

/-- The line ends here. -/
def lineEnd (line : Nat → BitVec 8) (i : Nat) : Bool :=
  line i = 0 ∨ line i = ascii '\n' ∨ line i = ascii '\r'

/-- The loop over the address after `n` rounds: `addr` and `sum`. -/
def addrLoop (line : Nat → BitVec 8) (sum : BitVec 32) : Nat → BitVec 32 × BitVec 32
  | 0 => (0, sum)
  | n + 1 =>
    let (addr, sum) := addrLoop line sum n
    let value := value line (2 * n)
    (addr <<< 8 ||| value.setWidth 32, sum + value.setWidth 32)

/-- The loop over the data after `n` rounds. -/
def dataLoop (line : Nat → BitVec 8) (srec : Srec_t) (sum : BitVec 32) :
    Nat → Option (Srec_t × BitVec 32)
  | 0 => some (srec, sum)
  | n + 1 =>
    (dataLoop line srec sum n).bind fun (srec, sum) =>
      let value := value line (2 * n)
      (srec.write (2 * n / 2) value).map fun srec => (srec, sum + value.setWidth 32)

/-- `srec_decode()` from the length of the line on. -/
def decodeLine (srec : Srec_t) (line : Nat → BitVec 8) (len : Nat) : Option (Bool × Srec_t) :=
  let srec := { srec with type := (C1 line 1).setWidth 8 }
  if 9 < srec.type then some (false, srec)
  else
    -- The sum starts with the count, and the four characters that have been read come off the line.
    let count := C2 line 2
    let alen := ltab.getD srec.type.toNat 0
    let len : Int := len - 4
    let line := fun i => line (4 + i)
    let (addr, sum) := addrLoop line count (alen / 2)
    let len := len - alen
    let line := fun i => line (alen + i)
    -- The last two characters are the checksum, wherever the count says that the data ends.
    let n := rounds (len - 2)
    (dataLoop line { srec with addr } sum n).map fun (srec, sum) =>
      let sum := sum + C2 line (BitVec.ofNat 8 (2 * n))
      (sum &&& 0xff = 0xff,
        { srec with count := (count - BitVec.ofNat 32 (alen / 2) - 1).setWidth 8 })

def srec_decode (time : Nat) (srec : Srec_t) (line : Nat → BitVec 8) :
    Option (Bool × Srec_t) :=
  (MarkedLoop.search (lineEnd line) time 0).bind (decodeLine srec line)

/-! ## Walking through an image -/

/-- `s_image[p] == 'S'`. -/
def starts (s_image : Nat → BitVec 8) (p : Nat) : Bool := s_image p = ascii 'S'

/-- `&s_image[p]`. -/
def line (s_image : Nat → BitVec 8) (p : Nat) : Nat → BitVec 8 := fun i => s_image (p + i)

/-- The record at `p` ends the image. -/
def terminates (s_image : Nat → BitVec 8) (p : Nat) : Bool :=
  s_image (p + 1) = ascii '7' ∨ s_image (p + 1) = ascii '8' ∨ s_image (p + 1) = ascii '9'

/-- The record at `p` is a header or a number of records. -/
def skipped (s_image : Nat → BitVec 8) (p : Nat) : Bool :=
  s_image (p + 1) = ascii '0' ∨ s_image (p + 1) = ascii '5'

/-- The record at `p` has data. -/
def carries (s_image : Nat → BitVec 8) (p : Nat) : Bool :=
  s_image (p + 1) = ascii '1' ∨ s_image (p + 1) = ascii '2' ∨ s_image (p + 1) = ascii '3'

/-- The body of the loop in `entry()`. -/
def entryBody (s_image : Nat → BitVec 8) (time : Nat) (srec : Srec_t) (pos : Nat) :
    Option (Srec_t ⊕ BitVec 32) :=
  if terminates s_image pos then
    (srec_decode time srec (line s_image pos)).map fun (_, srec) => .inr srec.addr
  else some (.inl srec)

def entry (s_image : Nat → BitVec 8) (srec : Srec_t) (time : Nat) : Option (BitVec 32) :=
  MarkedLoop.run (starts s_image) (entryBody s_image) (fun _ => 0) time srec 0

section Segment

variable {σ : Type*} (s_image : Nat → BitVec 8) (load : σ → Srec_t → σ)

/-- The body that `segment_size()` and `load_segment()` share. The loop ends with a flag that is
    false for `return(-1)`. -/
def segmentBody (time : Nat) (s : σ × Srec_t) (pos : Nat) :
    Option ((σ × Srec_t) ⊕ (σ × Bool)) :=
  if terminates s_image pos then some (.inr (s.1, true))
  else if skipped s_image pos then some (.inl s)
  else if carries s_image pos then
    (srec_decode time s.2 (line s_image pos)).map fun (ok, srec) =>
      if ok then .inl (load s.1 srec, srec) else .inr (s.1, false)
  else some (.inr (s.1, false))

def segmentLoop (time : Nat) (s : σ) (srec : Srec_t) : Option (σ × Bool) :=
  MarkedLoop.run (starts s_image) (segmentBody s_image load) (fun s => (s.1, true)) time (s, srec) 0

end Segment

def segments : Int := 1

def segment_size (s_image : Nat → BitVec 8) (srec : Srec_t) (i : Int) (time : Nat) :
    Option Int :=
  if i > segments then some (-1)
  else
    (segmentLoop s_image (fun seg_size srec => seg_size + srec.count.toNat) time 0 srec).map
      fun (seg_size, ok) => if ok then (seg_size : Nat) else -1

/-- A destination and the bytes that `memcpy` writes there. -/
abbrev Copy := BitVec 32 × List (BitVec 8)

/-- What `load_segment()` does with a record: `seg_size` and the copies up to now. -/
def load (addr : BitVec 32) (s : Nat × List Copy) (srec : Srec_t) : Nat × List Copy :=
  let (seg_size, copies) := s
  let dst := if addr ≠ 0 then addr + BitVec.ofNat 32 seg_size else srec.addr
  (seg_size + srec.count.toNat, copies ++ [(dst, srec.bytes)])

def load_segment (s_image : Nat → BitVec 8) (srec : Srec_t) (i : Int) (addr : BitVec 32)
    (time : Nat) : Option (Int × List Copy) :=
  if i > segments then some (-1, [])
  else
    (segmentLoop s_image (load addr) time (0, []) srec).map
      fun ((seg_size, copies), ok) => (if ok then (seg_size : Int) else -1, copies)

end Epos.SREC
