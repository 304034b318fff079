import Epos.Network.Mac

/-!
# The MAC and its radio

What the handlers of `TSTP::MAC<Radio, true>` copy to the radio and what they transmit. The radio
holds one frame, which stays there until the next one is copied, so a frame is copied by the
handler before the one that transmits it.
-/

namespace Epos

namespace TSTP.MAC

/-- What the radio can hold. -/
inductive Contents (Frame : Type) where
  | microframe (mf : Microframe)
  | frame (frame : Frame)

/-- The buffer of the radio, and what has been put on the air, the oldest first. -/
structure Radio (Frame : Type) where
  nic : Option (Contents Frame) := none
  air : List (Contents Frame) := []

namespace Radio

variable {Frame : Type} (radio : Radio Frame)

def copy_to_nic (contents : Contents Frame) : Radio Frame := { radio with nic := some contents }

/-- `transmit_no_cca()`, and `transmit()` where it finds the channel free. -/
def transmit : Radio Frame := { radio with air := radio.air ++ radio.nic.toList }

end Radio

/-- The MAC of a node with its radio. -/
structure Station (Addr Frame : Type) where
  mac : State Addr Frame
  radio : Radio Frame

namespace Station

variable {Addr Frame : Type} [DecidableEq Addr] (env : Env Frame) (st : Station Addr Frame)

/-- The first microframe is copied where there is a message to transmit. -/
def update_tx_schedule (i : Inputs) : Except (Fault Addr) (Station Addr Frame) := do
  let mac ← st.mac.update_tx_schedule env i
  if mac.tx_pending.isSome then
    .ok { mac, radio := st.radio.copy_to_nic (.microframe mac.mf) }
  else .ok { st with mac }

def cca (i : Inputs) : Station Addr Frame :=
  let mac := st.mac.cca env i
  if i.cca && i.transmit then
    { mac, radio := st.radio.transmit.copy_to_nic (.microframe mac.mf) }
  else { st with mac }

def tx_mf : Except (Fault Addr) (Station Addr Frame) := do
  let radio := st.radio.transmit
  let mac ← st.mac.tx_mf env
  if st.mac.mf.dec_count.1 > 0 then
    .ok { mac, radio := radio.copy_to_nic (.microframe mac.mf) }
  else do
    let (_, b) ← mac.pending
    .ok { mac, radio := radio.copy_to_nic (.frame b.frame) }

def tx_data (i : Inputs) : Except (Fault Addr) (Station Addr Frame) := do
  let radio := if st.mac.tx_pending.isSome then st.radio.transmit else st.radio
  let mac ← st.mac.tx_data env i
  .ok { mac, radio }

def run (i : Inputs) : Handler → Except (Fault Addr) (Station Addr Frame)
  | .update_tx_schedule => st.update_tx_schedule env i
  | .cca => .ok (st.cca env i)
  | .rx_mf => .ok { st with mac := st.mac.rx_mf env i.now }
  | .rx_data => .ok { st with mac := st.mac.rx_data env i.now }
  | .tx_mf => st.tx_mf env
  | .tx_data => st.tx_data env i

/-- The timer calls its handler. -/
def timer (i : Inputs) : Except (Fault Addr) (Station Addr Frame) :=
  match st.mac.timer with
  | none => .ok st
  | some (_, handler) => { st with mac := { st.mac with timer := none } }.run env i handler

/-- One interrupt of the timer after the other. -/
def interrupts : List Inputs → Station Addr Frame → Except (Fault Addr) (Station Addr Frame)
  | [], st => .ok st
  | i :: is, st => do
    let st ← st.timer env i
    interrupts is st

end Station

end TSTP.MAC

end Epos
