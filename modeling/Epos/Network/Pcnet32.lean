import Mathlib.Data.Fin.Basic
import Mathlib.Logic.Function.Basic

/-!
# Transmit buffers of the NIC

`PCNet32::alloc` of `machine/pc/pc_pcnet32.cc`. A status has `OWN` up to some test, when the device
has released the buffer; every test takes one step. While `alloc` runs, no one else locks or
unlocks a buffer or sends one. The loops take fuel. What goes into the headers of the frames is
left out.
-/

namespace Epos

namespace PCNet32

/-- `Traits<PCNet32>::SEND_BUFFERS`. -/
abbrev TX_BUFS : Nat := 64

/-- `Ethernet::MTU`. -/
def MTU : UInt32 := 1500

/-- The test from which on `_tx_ring[i].status` does not have `OWN`. -/
abbrev Device := Fin TX_BUFS → Nat

/-- `_tx_cur` and the locks of `_tx_buffer`. -/
structure Ring where
  tx_cur : Fin TX_BUFS := 0
  locked : Fin TX_BUFS → Bool := fun _ => false

/-- A buffer of a pool and its `size()`. -/
abbrev Filled := Fin TX_BUFS × UInt32

/-- The loops that wait for the next buffer and seize it. A `lock()` that fails does not go on to
    the buffer behind. -/
def seize (release : Device) (locked : Fin TX_BUFS → Bool) :
    (time : Nat) → (i : Fin TX_BUFS) → (fuel : Nat) → Option (Nat × Fin TX_BUFS)
  | _, _, 0 => none
  | time, i, fuel + 1 =>
    if time < release i then seize release locked (time + 1) (i + 1) fuel
    else if locked i then seize release locked (time + 1) i fuel
    else some (time + 1, i)

/-- The ring once a buffer is locked. -/
def Ring.seized (r : Ring) (i : Fin TX_BUFS) : Ring where
  tx_cur := i + 1
  locked := Function.update r.locked i true

/-- The size for `fill`, where `size` bytes are left. -/
def fragment (max_data : Int32) (always : UInt32) (size : Int32) : UInt32 :=
  if size > max_data then MTU else size.toUInt32 + always

/-- The loop of `alloc`: `pool` and the ring. -/
def allocLoop (release : Device) (max_data : Int32) (always : UInt32) :
    (time : Nat) → Ring → (size : Int32) → (fuel : Nat) → Option (List Filled × Ring)
  | _, _, _, 0 => none
  | time, r, size, fuel + 1 =>
    if size > 0 then
      (seize release r.locked time r.tx_cur fuel).bind fun s =>
        (allocLoop release max_data always s.1 (r.seized s.2) (size - max_data) fuel).map
          fun pool => ((s.2, fragment max_data always size) :: pool.1, pool.2)
    else some ([], r)

/-- What `alloc` comes to. Both a division by zero and `pool.head()->object()` of an empty pool
    trap. -/
inductive Result where
  | refused
  | trap
  | pool (buffers : List Filled)
  deriving DecidableEq

/-- `max_data`. -/
def max_data (always : UInt32) : Int32 := (MTU - always).toInt32

/-- The guard lets the sizes pass. -/
def admits (once always payload : UInt32) : Bool :=
  max_data always ≠ 0 &&
    (payload + once) / (max_data always).toUInt32 ≤ UInt32.ofNat TX_BUFS

/-- `alloc(dst, prot, once, always, payload)`. -/
def alloc (release : Device) (r : Ring) (once always payload : UInt32) (fuel : Nat) :
    Option (Result × Ring) :=
  if max_data always = 0 then some (.trap, r)
  else if (payload + once) / (max_data always).toUInt32 > UInt32.ofNat TX_BUFS then
    some (.refused, r)
  else
    (allocLoop release (max_data always) always 0 r (once + payload).toInt32 fuel).map fun pool =>
      (if pool.1.isEmpty then .trap else .pool pool.1, pool.2)

end PCNet32

end Epos
