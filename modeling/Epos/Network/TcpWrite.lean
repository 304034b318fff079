import Epos.Network.Tcp

/-!
# Writing to a connection

`TCP::Connection::write` with `dsend`, statement by statement where a segment may arrive in
between: at the head of the loop, in front of its increment, and around `_stream.wait()`.
Pointers into the data are offsets from its beginning.
-/

namespace Epos

namespace TCP

open TCP.Flags

namespace Connection

variable (c : Connection)

/-- `_current->header()->acknowledgment()`. -/
def currentAck : Nat :=
  match c.current with
  | some g => g.acknowledgment
  | none => 0

/-- `_sequence` for the next segment with data. -/
def dsendStart : Nat := if c.retransmitting then c.sequence else c.next

/-- `dsend(data, size)` for at most `MSS` bytes, which are in one packet. -/
def dsend (ok : Bool) (data : Bytes) (size : Nat) : Connection :=
  { c with
    sequence :=
      if ok && c.retransmitting then (c.dsendStart + size) % 2 ^ 32 else c.dsendStart
    sent :=
      if ok then c.sent ++ [⟨c.dsendStart, c.acknowledgment, ACK, data.take size⟩] else c.sent
    next := if ok && !c.retransmitting then (c.next + size) % 2 ^ 32 else c.next }

/-- `_peer_window - (sequence() - _current->header()->acknowledgment())`. -/
def allowance : Nat := subUnsigned c.peerWindow (subUnsigned c.sequence c.currentAck)

/-- `_state == ESTABLISHED || _state == CLOSE_WAIT`. -/
def isOpen : Bool := c.state == .ESTABLISHED || c.state == .CLOSE_WAIT

end Connection

/-- Where a `write` is; it returns -1 with `none`. -/
inductive Point where
  | head
  | increment
  | entering
  | blocked
  | woken
  | returned (r : Option Nat)
  deriving DecidableEq

/-- The arguments and the locals of `write`. -/
structure Write where
  d : Bytes
  size : Nat
  data : Nat := 0
  allowed : Nat := WINDOW
  left : Nat := size
  acknowledged : Nat := 0
  initialSeq : Nat
  tries : Nat := 0
  oldAck : Nat := 0
  point : Point := .head

namespace Write

variable (w : Write) (c : Connection)

/-- The condition of the loop. -/
def continues : Bool := w.tries < RETRIES && w.acknowledged != w.size && c.isOpen

/-- `allowed = (allowed > MSS) ? MSS : allowed`. -/
def clipped : Nat := if mss < w.allowed then mss else w.allowed

/-- `payload`. -/
def payload : Nat := if w.left < w.clipped then w.left else w.clipped

/-- The branch of the loop that sends. -/
def sends : Bool := w.continues c && w.clipped != 0 && w.left != 0

/-- Behind the loop. -/
def leave : Connection × Write :=
  ({ c with streaming := false, retransmitting := false },
    { w with point := .returned (if w.tries = RETRIES ∨ !c.isOpen then none else some w.size) })

/-- The head of the loop and its body up to the increment or to the wait. -/
def head (ok : Bool) : Connection × Write :=
  if !w.continues c then w.leave c
  else
    let c := { c with streaming := true }
    let payload := w.payload
    -- Otherwise the window is full or all of the data has been sent.
    if w.clipped ≠ 0 ∧ w.left ≠ 0 then
      let c := c.dsend ok (w.d.shift w.data) payload
      let w := { w with allowed := w.clipped }
      if !ok then (c, { w with point := .returned none })
      else
        (if c.sequence = c.next then { c with retransmitting := false } else c,
          { w with data := w.data + payload, left := w.left - payload, point := .increment })
    else (c, { w with allowed := w.clipped, oldAck := c.currentAck, point := .entering })

/-- The increment of the loop. -/
def increment : Write :=
  { w with
    acknowledged := subUnsigned c.currentAck w.initialSeq
    allowed := c.allowance
    point := .head }

/-- Behind `_stream.wait()`. -/
def wake : Connection × Write :=
  -- Nothing has been acknowledged meanwhile: everything from there on is sent again.
  if c.currentAck = w.oldAck then
    ({ c with
        retransmitting := true
        sequence := c.currentAck
        unacknowledged := c.currentAck },
      { w with
        data := w.acknowledged
        left := subUnsigned w.size w.acknowledged
        tries := w.tries + 1
        point := .increment })
  else (c, { w with tries := 0, point := .increment })

/-- What a `write` does next. A wait ends when `_stream` is signalled or its alarm goes off,
    at any time. -/
def step (ok : Bool) : Connection × Write :=
  match w.point with
  | .head => w.head c ok
  | .increment => (c, w.increment c)
  | .entering => (c, { w with point := .blocked })
  | .blocked => (c, { w with point := .woken })
  | .woken => w.wake c
  | .returned _ => (c, w)

end Write

/-- `write(d, size)` when it is called. -/
def Connection.write (c : Connection) (d : Bytes) (size : Nat) : Write :=
  { d := d, size := size, initialSeq := c.sequence }

end TCP

end Epos
