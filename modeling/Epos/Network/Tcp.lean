import Epos.Network.Packet

/-!
# TCP connections

`TCP::Connection`: what it does with a segment that arrives, with its alarm, and in the
calls `listen()`, `connect()` and `close()` up to and after their waits. Sequence numbers
are in the order of the CPU, with 32 bits where the code adds to them or subtracts.

`ok` says whether `IP::alloc` has a buffer for the control segments that a step sends.
`_current` keeps the last segment; that its buffer goes back to the NIC is left out.
-/

namespace Epos

namespace TCP

abbrev Port := BitVec 16

/-- `Traits<TCP>::WINDOW`. -/
def WINDOW : Nat := 4096

/-- `Traits<TCP>::RETRIES`. -/
def RETRIES : Nat := 3

/-- `MSS`. -/
def mss : Nat := IP.mfs - headerSize

abbrev Flags := UInt8

namespace Flags

def FIN : Flags := 0x01
def SYN : Flags := 0x02
def RST : Flags := 0x04
def ACK : Flags := 0x10

end Flags

open TCP.Flags

/-- What the accessors of a segment that has arrived return, with the address of its
    sender. `length` is the size of the first buffer without the headers; `payload` is in
    all buffers of the pool. -/
structure Received where
  source : IP.Address
  fromPort : Port
  toPort : Port
  sequence : Nat
  acknowledgment : Nat
  flags : Flags
  window : Nat
  length : Nat
  payload : List UInt8

/-- `flags() & flag`. -/
def Received.has (g : Received) (flag : Flags) : Bool := g.flags &&& flag != 0

/-- A segment that has been sent. -/
structure Sent where
  sequence : Nat
  acknowledgment : Nat
  flags : Flags
  payload : List UInt8
  deriving DecidableEq, Repr

inductive State where
  | LISTENING
  | SYN_SENT
  | SYN_RECEIVED
  | ESTABLISHED
  | FIN_WAIT1
  | FIN_WAIT2
  | CLOSE_WAIT
  | CLOSING
  | LAST_ACK
  | TIME_WAIT
  | CLOSED
  deriving DecidableEq, Repr

/-- Where a thread waits for `_transition`. -/
inductive Wait where
  | listen
  | accept
  | connect
  | close
  deriving DecidableEq, Repr

/-- `waiting` are the threads blocked on `_transition`, `woken` those that have been
    signalled and not gone on yet; `streamSignal` says that `_stream` has been signalled.
    `delivered` is what `notify()` has handed to the observer, each byte with its sequence
    number, and `sent` what has been sent. -/
structure Connection where
  fromPort : Port
  toPort : Port
  sequence : Nat
  acknowledgment : Nat := 0
  peer : IP.Address
  peerWindow : Nat := 0
  next : Nat
  unacknowledged : Nat
  initial : Nat
  state : State := .CLOSED
  current : Option Received := none
  length : Nat := 0
  valid : Bool := false
  streaming : Bool := false
  retransmitting : Bool := false
  streamSignal : Bool := false
  alarm : Bool := false
  tries : Nat := 0
  observer : Bool := true
  waiting : List Wait := []
  woken : List Wait := []
  delivered : List (Nat × UInt8) := []
  sent : List Sent := []

/-! ## Connection identifiers -/

/-- The static `Connection::id`. The fields are promoted to `int`, which is extended with
    its sign. -/
def connectionId (localPort remotePort : Port) (peer : IP.Address) : BitVec 64 :=
  let tmp : BitVec 64 :=
    ((peer 0).toBitVec.setWidth 32 <<< 24 ||| (peer 1).toBitVec.setWidth 32 <<< 16 |||
      (peer 2).toBitVec.setWidth 32 <<< 8 ||| (peer 3).toBitVec.setWidth 32).signExtend 64
  tmp <<< 32 ||| (remotePort.setWidth 32 <<< 16 ||| localPort.setWidth 32).signExtend 64

namespace Connection

variable (c : Connection)

/-- The member `id()`. -/
def id : BitVec 64 :=
  let tmp : BitVec 64 :=
    ((c.peer 0).toBitVec.setWidth 32 <<< 24 ||| (c.peer 1).toBitVec.setWidth 32 <<< 16 |||
      (c.peer 2).toBitVec.setWidth 32 <<< 8 ||| (c.peer 3).toBitVec.setWidth 32).signExtend 64
  tmp <<< 32 ||| (c.toPort.setWidth 32 <<< 16 ||| c.fromPort.setWidth 32).signExtend 64

/-! ## Sending and signalling -/

def setState (s : State) : Connection := { c with state := s }

/-- `fsend(flags)`. -/
def fsend (ok : Bool) (flags : Flags) : Connection :=
  let sequence := if c.retransmitting then c.sequence else c.next
  { c with
    sequence := sequence
    sent := if ok then c.sent ++ [⟨sequence, c.acknowledgment, flags, []⟩] else c.sent
    next :=
      if ok && (flags &&& FIN != 0 || flags &&& SYN != 0) then (c.next + 1) % 2 ^ 32
      else c.next }

/-- `_transition.signal()`. Without a thread that waits it is lost. -/
def signal : Connection :=
  { c with waiting := c.waiting.tail, woken := c.woken ++ c.waiting.head?.toList }

def setTimeout : Connection := { c with alarm := true }

/-- `_acknowledgment = htonl(acknowledgment() + _length)`. -/
def advance : Connection :=
  { c with acknowledgment := (c.acknowledgment + c.length) % 2 ^ 32 }

/-- `notify(cid, pool)`, with the sequence numbers of the bytes. -/
def notify (g : Received) : Connection :=
  if c.observer then
    { c with delivered := c.delivered ++ g.payload.mapIdx fun i b => (g.sequence + i, b) }
  else c

/-! ## State handlers -/

/-- What `check_sequence()` returns and leaves in `_valid`. -/
def checkSequence (g : Received) : Bool :=
  let rcvNext := c.acknowledgment
  -- The end of the window wraps around, and then nothing is inside of it.
  let inside (n : Nat) : Bool := rcvNext ≤ n && n < (rcvNext + WINDOW) % 2 ^ 32
  if WINDOW = 0 then c.length = 0 && g.sequence = rcvNext
  else if c.length ≠ 0 then inside g.sequence
  else inside g.sequence || inside (subUnsigned (g.sequence + c.length) 1)

def processFin (ok : Bool) (g : Received) : Connection :=
  { c with acknowledgment := (g.sequence + 1) % 2 ^ 32 }.fsend ok ACK

/-- How the handlers from `syn_received()` to `time_wait()` begin. `invalidate` says whether
    they take back `_valid` when they close the connection; `body` is what follows. -/
def inSequence (ok invalidate : Bool) (g : Received) (body : Connection → Connection) :
    Connection :=
  let c := { c with valid := c.checkSequence g }
  -- A reset is not answered.
  if !c.valid then if g.has RST then c else c.fsend ok ACK
  else if g.has RST then { c with valid := !invalidate }.setState .CLOSED
  else if g.has SYN then ({ c with valid := !invalidate }.fsend ok RST).setState .CLOSED
  else body c

/-- `if(_length)` the data is acknowledged. -/
def acknowledgeData (ok : Bool) : Connection := if c.length ≠ 0 then c.advance.fsend ok ACK else c

def listening (ok : Bool) (g : Received) : Connection :=
  if g.has RST || g.has FIN then { c with valid := false }
  else if g.has ACK then { c with valid := false }.fsend ok RST
  else if g.has SYN then
    { c with
      toPort := g.fromPort
      acknowledgment := (g.sequence + 1) % 2 ^ 32 }.signal
  else c

def synSent (ok : Bool) (g : Received) : Connection :=
  if g.has ACK then
    if g.acknowledgment ≤ c.initial ∨ c.next < g.acknowledgment then
      { c with valid := false }.fsend ok RST
    else if c.unacknowledged ≤ g.acknowledgment ∧ g.acknowledgment ≤ c.next then
      if g.has RST then { c with valid := false }.setState .CLOSED
      else if g.has SYN then
        let c :=
          { c with
            acknowledgment := (g.sequence + 1) % 2 ^ 32
            unacknowledged := g.acknowledgment
            peerWindow := g.window }
        -- The first test has excluded that our `SYN` is not acknowledged.
        if c.initial < c.unacknowledged then
          { (c.fsend ok ACK).setState .ESTABLISHED with tries := 0 }.signal
        else (c.fsend ok (SYN ||| ACK)).setState .SYN_RECEIVED
      else c
    else { c with valid := false }.fsend ok RST
  else if !g.has RST && g.has SYN then
    -- Simultaneous SYN
    ({ c with acknowledgment := (g.sequence + 1) % 2 ^ 32 }.fsend ok (SYN ||| ACK)).setState
      .SYN_RECEIVED
  else c.setState .CLOSED  -- `close()` in this state

def synReceived (ok : Bool) (g : Received) : Connection :=
  c.inSequence ok true g fun c =>
    if g.has ACK then
      if c.unacknowledged ≤ g.acknowledgment ∧ g.acknowledgment ≤ c.next then
        ({ c.setState .ESTABLISHED with tries := 0 }.acknowledgeData ok).signal
      else if g.has FIN then (c.processFin ok g).setState .CLOSE_WAIT
      else ({ c with valid := false }.fsend ok RST).setState .CLOSED
    else c

def established (ok : Bool) (g : Received) : Connection :=
  c.inSequence ok true g fun c =>
    if g.has ACK && (c.unacknowledged ≤ g.acknowledgment && g.acknowledgment ≤ c.next) then
      let c := c.acknowledgeData ok
      if g.has FIN then (c.processFin ok g).setState .CLOSE_WAIT else c
    else c

def finWait1 (ok : Bool) (g : Received) : Connection :=
  c.inSequence ok true g fun c =>
    if g.has ACK then
      let c := c.acknowledgeData ok
      -- Our `FIN` has been acknowledged.
      if c.next ≤ g.acknowledgment then
        if g.has FIN then ((c.processFin ok g).setState .TIME_WAIT).setTimeout
        else c.setState .FIN_WAIT2
      else if g.has FIN then (c.processFin ok g).setState .CLOSING
      else c
    else c

def finWait2 (ok : Bool) (g : Received) : Connection :=
  c.inSequence ok true g fun c =>
    if g.has ACK then
      let c := c.acknowledgeData ok
      if g.has FIN then ((c.processFin ok g).setState .TIME_WAIT).setTimeout else c
    else c

def closeWait (ok : Bool) (g : Received) : Connection :=
  c.inSequence ok true g fun c =>
    if g.has ACK ∧ c.unacknowledged < g.acknowledgment ∧ g.acknowledgment ≤ c.next then
      let c := { c with unacknowledged := g.acknowledgment }
      if g.has FIN then c.processFin ok g else c
    else c

/-- Our `FIN` has been acknowledged. -/
def finAcknowledged (g : Received) : Bool :=
  g.has ACK && c.unacknowledged < g.acknowledgment && g.acknowledgment ≤ c.next &&
    c.next ≤ g.acknowledgment

def closing (ok : Bool) (g : Received) : Connection :=
  c.inSequence ok true g fun c =>
    if c.finAcknowledged g then (c.setState .TIME_WAIT).setTimeout else c

def lastAck (ok : Bool) (g : Received) : Connection :=
  c.inSequence ok false g fun c =>
    if c.finAcknowledged g then { c.setState .CLOSED with tries := 0 }.signal else c

def timeWait (ok : Bool) (g : Received) : Connection :=
  c.inSequence ok false g fun c =>
    if g.has ACK ∧ c.unacknowledged < g.acknowledgment ∧ g.acknowledgment ≤ c.next ∧
        g.has FIN then
      (c.processFin ok g).setTimeout
    else c

/-- `(this->*_handler)()`. -/
def handler (ok : Bool) (g : Received) : Connection :=
  match c.state with
  | .LISTENING => c.listening ok g
  | .SYN_SENT => c.synSent ok g
  | .SYN_RECEIVED => c.synReceived ok g
  | .ESTABLISHED => c.established ok g
  | .FIN_WAIT1 => c.finWait1 ok g
  | .FIN_WAIT2 => c.finWait2 ok g
  | .CLOSE_WAIT => c.closeWait ok g
  | .CLOSING => c.closing ok g
  | .LAST_ACK => c.lastAck ok g
  | .TIME_WAIT => c.timeWait ok g
  | .CLOSED => c

/-! ## Arrivals -/

/-- The part of `update` about the sliding window, with `relevant`. -/
def slide (g : Received) : Connection × Bool :=
  if c.streaming then
    if g.acknowledgment ≤ c.sequence then
      -- A segment must acknowledge something in order to be relevant.
      ({ c with unacknowledged := g.acknowledgment }, c.unacknowledged < g.acknowledgment)
    else
      -- During retransmission only.
      ({ c with sequence := g.acknowledgment, unacknowledged := g.acknowledgment }, true)
  else (c, false)

/-- The states in which `update` delivers data. -/
def State.delivers : State → Bool
  | .ESTABLISHED | .SYN_RECEIVED | .FIN_WAIT1 | .FIN_WAIT2 => true
  | _ => false

/-- The first lines of `update`. -/
def arrive (g : Received) : Connection :=
  let c := { c with current := some g, length := g.length, peerWindow := g.window }
  if c.state = .LISTENING then { c with peer := g.source, toPort := g.fromPort } else c

/-- `update(obs, cid, pool)`. -/
def update (ok : Bool) (g : Received) : Connection :=
  let c := c.arrive g
  -- Segments are accepted in order, except when connecting or listening.
  if ¬(c.state = .LISTENING ∨ c.state = .SYN_SENT) ∧ c.acknowledgment < g.sequence then c
  else if c.next < g.acknowledgment then (c.fsend ok RST).setState .CLOSED
  else
    let (c, relevant) := c.slide g
    -- The handler may leave a state that delivers.
    let stateAtArrival := c.state
    let c := c.handler ok g
    if !c.valid then c
    else
      let c := if State.delivers stateAtArrival && c.length != 0 then c.notify g else c
      if c.streaming && relevant then { c with streamSignal := true } else c

/-! ## Calls and the alarm -/

/-- A call up to its first wait. -/
def listen : Connection := c.setState .LISTENING

/-- `listen()` behind its first wait. -/
def accept (ok : Bool) : Connection :=
  { c.fsend ok (SYN ||| ACK) with unacknowledged := c.initial }.setState .SYN_RECEIVED

def connect (ok : Bool) : Connection :=
  let c := (c.setState .SYN_SENT).fsend ok SYN
  { c with unacknowledged := c.sequence }.setTimeout

/-- Whether `close()` waits, and what it does up to there. -/
def close (ok : Bool) : Connection × Bool :=
  if c.state = .CLOSED then (c, false)
  else if c.state = .LISTENING ∨ c.state = .SYN_SENT then (c.setState .CLOSED, false)
  else
    let c :=
      if c.state = .ESTABLISHED ∨ c.state = .SYN_RECEIVED then c.setState .FIN_WAIT1
      else if c.state = .CLOSE_WAIT then c.setState .LAST_ACK
      else c
    ((c.fsend ok (ACK ||| FIN)).setTimeout, true)

/-- `timeout(c)`, when the alarm goes off. -/
def timeout (ok : Bool) : Connection :=
  -- The alarm has gone off and is set again only where something is sent again.
  let c := { c with alarm := false }
  if c.state = .TIME_WAIT then { c.setState .CLOSED with tries := 0 }.signal
  else if c.tries = 3 then (c.setState .CLOSED).signal
  else if c.state = .FIN_WAIT1 ∨ c.state = .LAST_ACK ∨ c.state = .CLOSING then
    ({ c with tries := c.tries + 1, next := subUnsigned c.next 1 }.fsend ok (FIN ||| ACK)).setTimeout
  else if c.state = .SYN_SENT then
    ({ c with tries := c.tries + 1, next := subUnsigned c.next 1 }.fsend ok SYN).setTimeout
  else c

end Connection

end TCP

end Epos
