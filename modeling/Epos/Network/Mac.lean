import Mathlib.Logic.Function.Basic

/-!
# The duty-cycled MAC

`TSTP::MAC<Radio, true>` of `network/tstp/mac.h`: the entry points `send`, `drop`, `pre_notify`
and `post_notify`, and the handlers that the timer of the radio calls, one of which is set at a
time. Each of them runs to its end. Buffers are read through their addresses, and `_tx_pending`
through `pending`, which fails when there is no scheduled buffer behind it. The frames, the
constants of the radio, and what its clock, channel and random numbers say are parameters.
`multichannel` is off, `silence`, `random_backoff` and `drop_expired` are on.
-/

namespace Epos

namespace TSTP.MAC

/-- `unsigned long long`, in counts or in microseconds. -/
abbrev Time_Stamp := UInt64

/-! ## Microframes -/

/-- The packed fields all listen, count, id and hint. -/
structure Microframe where
  al_count_id_hintl : UInt32 := 0
  hinth_crcl : UInt32 := 0

namespace Microframe

/-- `Microframe(all_listen, id, count, hint)`. -/
def new (all_listen : Bool) (id count : UInt16) (hint : UInt32) : Microframe where
  al_count_id_hintl :=
    (if all_listen then (1 : UInt32) else 0) ||| ((count &&& 0x07ff).toUInt32 <<< 1) |||
      ((id &&& 0x0fff).toUInt32 <<< 12) ||| ((hint &&& 0x0ff) <<< 24)
  hinth_crcl := (hint &&& 0xffffff00) >>> 8

def count (mf : Microframe) : UInt16 := ((mf.al_count_id_hintl &&& 0x0ffe) >>> 1).toUInt16

/-- `count(c)`. -/
def setCount (mf : Microframe) (c : UInt16) : Microframe :=
  { mf with
    al_count_id_hintl := (mf.al_count_id_hintl &&& ~~~(0x0ffe : UInt32)) ||| (c.toUInt32 <<< 1) }

/-- The count before, and the microframe. -/
def dec_count (mf : Microframe) : UInt16 × Microframe := (mf.count, mf.setCount (mf.count - 1))

def id (mf : Microframe) : UInt16 := ((mf.al_count_id_hintl &&& 0x00fff000) >>> 12).toUInt16

def all_listen (mf : Microframe) : Bool := mf.al_count_id_hintl &&& 0x01 ≠ 0

def hint (mf : Microframe) : UInt32 :=
  ((mf.al_count_id_hintl &&& 0xff000000) >>> 24) + ((mf.hinth_crcl &&& 0x00ffffff) <<< 8)

/-- `id(id)`. -/
def setId (mf : Microframe) (id : UInt16) : Microframe :=
  { mf with
    al_count_id_hintl :=
      (mf.al_count_id_hintl &&& ~~~(0x00fff000 : UInt32)) |||
        ((id.toUInt32 &&& 0x00000fff) <<< 12) }

/-- `all_listen(all_listen)`. -/
def setAllListen (mf : Microframe) (all_listen : Bool) : Microframe :=
  { mf with
    al_count_id_hintl :=
      if all_listen then mf.al_count_id_hintl ||| 0x01
      else mf.al_count_id_hintl &&& ~~~(0x01 : UInt32) }

/-- `hint(h)`. -/
def setHint (mf : Microframe) (h : UInt32) : Microframe where
  al_count_id_hintl :=
    (mf.al_count_id_hintl &&& ~~~(0xff000000 : UInt32)) ||| ((h &&& 0x0ff) <<< 24)
  hinth_crcl := (mf.hinth_crcl &&& ~~~(0x00ffffff : UInt32)) ||| ((h &&& 0xffffff00) >>> 8)

/-- The functions that change a microframe. -/
inductive Setter where
  | all_listen (all_listen : Bool)
  | id (id : UInt16)
  | count (c : UInt16)
  | dec_count
  | hint (h : UInt32)
  deriving DecidableEq, Repr

def Setter.apply (mf : Microframe) : Setter → Microframe
  | .all_listen listen => mf.setAllListen listen
  | .id n => mf.setId n
  | .count c => mf.setCount c
  | .dec_count => mf.dec_count.2
  | .hint h => mf.setHint h

/-- What the getters return. -/
@[ext] structure Fields where
  all_listen : Bool
  id : UInt16
  count : UInt16
  hint : UInt32
  deriving DecidableEq, Repr

def fields (mf : Microframe) : Fields where
  all_listen := mf.all_listen
  id := mf.id
  count := mf.count
  hint := mf.hint

end Microframe

/-! ## Buffers -/

/-- The frame and the metadata that the MAC uses. -/
structure Buffer (Frame : Type) where
  frame : Frame
  id : UInt32 := 0
  offset : Time_Stamp := 0
  destined_to_me : Bool := false
  downlink : Bool := false
  deadline : Time_Stamp := 0
  is_new : Bool := false
  is_microframe : Bool := false
  relevant : Bool := false
  trusted : Bool := false
  random_backoff_exponent : UInt32 := 0
  microframe_count : UInt32 := 0
  hint : UInt32 := 0
  times_txed : UInt32 := 0
  sfd_time_stamp : Time_Stamp := 0

def CONTROL : UInt8 := 3
def KEEP_ALIVE : UInt8 := 7
def MODEL : UInt8 := 9

/-- The radio and its frames. -/
structure Env (Frame : Type) where
  /-- A node that only listens. -/
  sniffer : Bool
  us2count : Time_Stamp → Time_Stamp
  count2us : Time_Stamp → Time_Stamp
  N_MICROFRAMES : UInt32
  G : UInt32
  OFFSET_LOWER_BOUND : UInt32
  OFFSET_GENERAL_LOWER_BOUND : UInt32
  OFFSET_UPPER_BOUND : UInt32
  OFFSET_GENERAL_UPPER_BOUND : UInt32
  SLEEP_PERIOD : UInt32
  RX_MF_TIMEOUT : UInt32
  RX_DATA_TIMEOUT : UInt32
  DATA_LISTEN_MARGIN : UInt32
  DATA_SKIP_TIME : UInt32
  TIME_BETWEEN_MICROFRAMES : UInt32
  MICROFRAME_TIME : UInt32
  TX_DELAY : UInt32
  Tu : UInt32
  SLEEP_TO_RX_DELAY : UInt32
  RX_TO_TX_DELAY : UInt32
  /-- `data<Microframe>()`, where the size is the one of a microframe. -/
  microframe : Frame → Option Microframe
  type : Frame → UInt8
  subtype : Frame → UInt8
  identify : Frame → Frame
  last_hop : Frame → Time_Stamp → Frame
  /-- `equals(b0, b1)`. -/
  equals : Buffer Frame → Buffer Frame → Bool

/-- What the clock, the channel and `Random` say while a handler runs. -/
structure Inputs where
  now : Time_Stamp := 0
  later : Time_Stamp := 0
  random : UInt32 := 0
  cca : Bool := true
  transmit : Bool := true

/-- The handlers of the timer. -/
inductive Handler where
  | update_tx_schedule
  | cca
  | rx_mf
  | rx_data
  | tx_mf
  | tx_data
  deriving DecidableEq, Repr

/-- What is behind a pointer that is read. -/
inductive Fault (Addr : Type) where
  | null
  | unscheduled (b : Addr)
  | deleted (b : Addr)
  deriving DecidableEq

/-- The attributes of the class, the buffers that are allocated, the timer, and the received
    buffers that `post_notify` has not been called for. -/
structure State (Addr Frame : Type) where
  mf : Microframe := {}
  mf_time : Time_Stamp := 0
  receiving_data_hint : UInt32 := 0
  tx_schedule : List Addr := []
  tx_pending : Option Addr := none
  in_rx_mf : Bool := false
  in_rx_data : Bool := false
  silence_periods : UInt32 := 0
  buffers : Addr → Option (Buffer Frame) := fun _ => none
  timer : Option (Time_Stamp × Handler) := none
  received : List (Buffer Frame) := []

namespace State

variable {Addr Frame : Type} [DecidableEq Addr] (env : Env Frame) (s : State Addr Frame)

/-! ## Pointers -/

/-- A buffer of the schedule is read. -/
def object (b : Addr) : Except (Fault Addr) (Buffer Frame) :=
  match s.buffers b with
  | some buf => .ok buf
  | none => .error (.deleted b)

/-- `_tx_pending` is read. -/
def pending : Except (Fault Addr) (Addr × Buffer Frame) :=
  match s.tx_pending with
  | none => .error .null
  | some p =>
    match s.buffers p with
    | none => .error (.deleted p)
    -- What is allocated there need not be in the schedule.
    | some buf => if p ∈ s.tx_schedule then .ok (p, buf) else .error (.unscheduled p)

/-- A buffer is written. -/
def write (b : Addr) (buf : Buffer Frame) : State Addr Frame :=
  { s with buffers := Function.update s.buffers b (some buf) }

/-- A buffer is removed from the schedule and deleted. -/
def delete (b : Addr) : State Addr Frame :=
  { s with
    tx_schedule := s.tx_schedule.erase b
    buffers := Function.update s.buffers b none }

/-- `Timer::interrupt(when, handler)`. -/
def interrupt (time : Time_Stamp) (handler : Handler) : State Addr Frame :=
  { s with timer := some (time, handler) }

/-- The first buffer of a schedule with an id. -/
def find (id : UInt32) : List Addr → Except (Fault Addr) (Option Addr)
  | [] => .ok none
  | el :: rest => do
    let buf ← s.object el
    if buf.id = id then .ok (some el) else find id rest

/-! ## Sending and dropping -/

def drop (id : UInt32) : Except (Fault Addr) (State Addr Frame) := do
  match ← s.find id s.tx_schedule with
  | none => .ok s
  | some el =>
    .ok { s.delete el with tx_pending := if s.tx_pending = some el then none else s.tx_pending }

/-- The loop of `send` over the messages that are queued. -/
def replace (b : Addr) (buf : Buffer Frame) :
    List Addr → State Addr Frame → Except (Fault Addr) (State Addr Frame)
  | [], s => .ok s
  | el :: rest, s => do
    let queued_buf ← s.object el
    if env.equals queued_buf buf then
      -- The new buffer takes the place of the pending one too.
      let tx_pending := if s.tx_pending = some el then some b else s.tx_pending
      replace b buf rest { s.delete el with tx_pending }
    else replace b buf rest s

/-- The offset of `send`. -/
def clampOffset (buf : Buffer Frame) : Time_Stamp :=
  let offset := env.us2count buf.offset
  if buf.destined_to_me then env.us2count env.OFFSET_LOWER_BOUND.toUInt64
  else if offset < env.us2count env.OFFSET_GENERAL_LOWER_BOUND.toUInt64 then
    env.us2count env.OFFSET_GENERAL_LOWER_BOUND.toUInt64
  else if offset > env.us2count env.OFFSET_GENERAL_UPPER_BOUND.toUInt64 then
    env.us2count env.OFFSET_GENERAL_UPPER_BOUND.toUInt64
  else offset

/-- `send(buf)`, for a buffer of the caller. -/
def send (b : Addr) (buf : Buffer Frame) : Except (Fault Addr) (State Addr Frame) :=
  if env.sniffer then .ok s
  else do
    let buf := { buf with offset := clampOffset env buf }
    let s ← replace env b buf s.tx_schedule (s.write b buf)
    .ok { s with tx_schedule := s.tx_schedule ++ [b] }

/-! ## Receiving -/

/-- The loop of `pre_notify` that clears scheduled messages that are equivalent. -/
def clear (buf : Buffer Frame) :
    List Addr → State Addr Frame → Except (Fault Addr) (State Addr Frame)
  | [], s => .ok s
  | el :: rest, s => do
    let queued_buf ← s.object el
    if env.equals queued_buf buf && !queued_buf.destined_to_me then clear buf rest (s.delete el)
    else clear buf rest s

/-- The metadata of a received microframe. -/
def microframeBuffer (mf : Microframe) (buf : Buffer Frame) : Buffer Frame :=
  { buf with
    id := mf.id.toUInt32
    downlink := mf.all_listen
    is_new := false
    is_microframe := true
    relevant := mf.all_listen
    trusted := false
    hint := mf.hint
    microframe_count := mf.count.toUInt32
    offset := env.OFFSET_GENERAL_UPPER_BOUND.toUInt64
    times_txed := 0 }

/-- What a node that only listens sets. -/
def sniffedBuffer (buf : Buffer Frame) : Buffer Frame :=
  match env.microframe buf.frame with
  | some mf =>
    { buf with
      id := mf.id.toUInt32
      downlink := mf.all_listen
      is_new := false
      is_microframe := true
      microframe_count := mf.count.toUInt32
      offset := env.OFFSET_GENERAL_UPPER_BOUND.toUInt64 }
  | none => { buf with is_microframe := false }

/-- The metadata of received data. -/
def dataBuffer (buf : Buffer Frame) : Buffer Frame :=
  { buf with
    frame := env.identify buf.frame
    hint := s.receiving_data_hint
    is_new := false
    is_microframe := false
    trusted := false
    random_backoff_exponent := 0
    microframe_count := 0
    offset := env.OFFSET_GENERAL_UPPER_BOUND.toUInt64
    times_txed := 0 }

/-- The buffer goes on to the listeners. -/
def notify (buf : Buffer Frame) : State Addr Frame := { s with received := buf :: s.received }

/-- `pre_notify(buf)`. A buffer that is refused is left out. -/
def pre_notify (buf : Buffer Frame) : Except (Fault Addr) (State Addr Frame) :=
  if env.sniffer then .ok (s.notify (sniffedBuffer env buf))
  else if s.in_rx_mf then
    -- State: RX MF (part 2/3)
    match env.microframe buf.frame with
    | some mf =>
      if mf.count.toUInt32 < env.N_MICROFRAMES then
        .ok ({ s with timer := none, in_rx_mf := false }.notify (microframeBuffer env mf buf))
      else .ok s
    | none => .ok s
  else if s.in_rx_data then
    -- State: RX Data (part 2/3)
    match env.microframe buf.frame with
    | some _ => .ok s
    | none => do
      let buf := s.dataBuffer env buf
      let s ← clear env buf s.tx_schedule s
      .ok (s.notify buf)
  else .ok s

/-- When the data of a microframe is expected. -/
def dataTime (buf : Buffer Frame) : Time_Stamp :=
  buf.sfd_time_stamp + env.us2count env.TIME_BETWEEN_MICROFRAMES.toUInt64 +
    buf.microframe_count.toUInt64 *
      env.us2count (env.TIME_BETWEEN_MICROFRAMES + env.MICROFRAME_TIME).toUInt64

/-- If we have a buffer with the same id, we need to receive the data. -/
def isRelevant (buf : Buffer Frame) : Except (Fault Addr) Bool :=
  if buf.relevant then .ok true
  else do
    let queued ← s.find buf.id s.tx_schedule
    .ok queued.isSome

/-- `post_notify(buf)`, with what the listeners made of `relevant`. -/
def post_notify (buf : Buffer Frame) (i : Inputs) : Except (Fault Addr) (State Addr Frame) :=
  if buf.is_microframe && !env.sniffer then do
    let relevant ← s.isRelevant buf
    if relevant then
      -- Sleep until the data comes, or no longer than the radio needs if it is too late for that.
      let margin := env.us2count (env.DATA_LISTEN_MARGIN / 2).toUInt64
      let wakeup := env.us2count (env.DATA_LISTEN_MARGIN / 2 + env.SLEEP_TO_RX_DELAY).toUInt64
      let data_time :=
        if dataTime env buf > i.now + wakeup then dataTime env buf - margin
        else i.later + env.us2count (env.SLEEP_TO_RX_DELAY + 1).toUInt64
      .ok ({ s with receiving_data_hint := buf.hint }.interrupt data_time .rx_data)
    else
      .ok (s.interrupt (dataTime env buf + env.us2count env.DATA_SKIP_TIME.toUInt64)
        .update_tx_schedule)
  else .ok s

/-! ## The handlers of the timer -/

def keepAlive (buf : Buffer Frame) : Bool :=
  env.type buf.frame = CONTROL && env.subtype buf.frame = KEEP_ALIVE

/-- Transmitted less often, or as often and with an earlier deadline. -/
def before (b p : Buffer Frame) : Bool :=
  b.times_txed < p.times_txed || (b.times_txed = p.times_txed && b.deadline < p.deadline)

/-- Whether a message takes the place of the pending one: ACKs are prioritized, and
    non-keepalives over keepalives. -/
def preferred (b p : Buffer Frame) : Bool :=
  if p.destined_to_me then b.destined_to_me && before b p
  else if keepAlive env p then !keepAlive env b || before b p
  else before b p

/-- The loop of `update_tx_schedule`: it fetches the next message and removes expired ones. -/
def fetch (now_us : Time_Stamp) :
    List Addr → State Addr Frame → Except (Fault Addr) (State Addr Frame)
  | [], s => .ok s
  | el :: rest, s => do
    let b ← s.object el
    -- `drop_expired`
    if b.deadline ≤ now_us then fetch now_us rest (s.delete el)
    else if s.tx_pending.isNone then fetch now_us rest { s with tx_pending := some el }
    else do
      let (_, p) ← s.pending
      if preferred env b p then fetch now_us rest { s with tx_pending := some el }
      else fetch now_us rest s

/-- The offset of the contention and the new `random_backoff_exponent`. -/
def backoff (b : Buffer Frame) (random : UInt32) : Time_Stamp × UInt32 :=
  let exponent := b.random_backoff_exponent + 1
  let lim := env.G * exponent
  let lim :=
    if lim.toUInt64 > env.us2count env.OFFSET_UPPER_BOUND.toUInt64 || lim = 0 then
      (env.us2count env.OFFSET_UPPER_BOUND.toUInt64).toUInt32
    else lim
  let lower := env.us2count env.OFFSET_LOWER_BOUND.toUInt64
  let general := env.us2count env.OFFSET_GENERAL_LOWER_BOUND.toUInt64
  let upper := env.us2count env.OFFSET_UPPER_BOUND.toUInt64
  -- The priority of an ACK gets higher with every attempt, that of other messages lower.
  if b.destined_to_me then
    let offset := b.offset - (random % lim).toUInt64
    if offset < lower || offset > general then (lower, exponent - 1) else (offset, exponent)
  else
    let offset := b.offset + (random % lim).toUInt64
    if offset < general then (general, exponent - 1)
    else if offset > upper then (upper, exponent - 1)
    else (offset, exponent)

/-- The transition of `update_tx_schedule` with a message to transmit. -/
def contend (i : Inputs) : Except (Fault Addr) (State Addr Frame) := do
  let (p, b) ← s.pending
  let (offset, random_backoff_exponent) := backoff env b i.random
  let is_model := env.type b.frame = CONTROL && env.subtype b.frame = MODEL
  let mf := Microframe.new ((!b.destined_to_me && b.downlink) || is_model) b.id.toUInt16
    (env.N_MICROFRAMES - 1).toUInt16 b.hint
  let s := s.write p { b with random_backoff_exponent }
  .ok ({ s with mf }.interrupt (i.now + offset - env.us2count env.SLEEP_TO_RX_DELAY.toUInt64) .cca)

/-- The message to transmit next, unless the node has to be silent. -/
def choose (now : Time_Stamp) : Except (Fault Addr) (State Addr Frame) :=
  if s.silence_periods ≠ 0 then .ok { s with silence_periods := s.silence_periods - 1 }
  else fetch env (env.count2us now) s.tx_schedule s

def update_tx_schedule (i : Inputs) : Except (Fault Addr) (State Addr Frame) := do
  let s := { s with timer := none, in_rx_data := false, in_rx_mf := false, tx_pending := none }
  let s ← s.choose env i.now
  if s.tx_pending.isSome then s.contend env i
  else
    -- State: Sleep S
    .ok (s.interrupt (i.now + env.us2count (env.SLEEP_PERIOD - env.SLEEP_TO_RX_DELAY).toUInt64)
      .rx_mf)

def rx_mf (now : Time_Stamp) : State Addr Frame :=
  { s with in_rx_data := false, in_rx_mf := true }.interrupt
    (now + env.us2count env.RX_MF_TIMEOUT.toUInt64) .update_tx_schedule

def rx_data (now : Time_Stamp) : State Addr Frame :=
  { s with in_rx_data := true, in_rx_mf := false }.interrupt
    (now + env.us2count env.RX_DATA_TIMEOUT.toUInt64) .update_tx_schedule

/-- The time of the next transmission. -/
def nextMfTime (time : Time_Stamp) : Time_Stamp :=
  time + env.us2count (env.TIME_BETWEEN_MICROFRAMES + env.MICROFRAME_TIME).toUInt64

def cca (i : Inputs) : State Addr Frame :=
  if i.cca then
    let mf_time := i.now + env.us2count env.RX_TO_TX_DELAY.toUInt64
    if i.transmit then
      -- The first microframe is sent here.
      let mf_time := nextMfTime env mf_time
      { s with mf_time, mf := s.mf.dec_count.2 }.interrupt
        (mf_time - env.us2count env.TX_DELAY.toUInt64) .tx_mf
    else { s with mf_time }.rx_mf env i.later
  else s.rx_mf env i.later

/-- The end of `tx_mf` after the last microframe. `_tx_pending` is not checked. -/
def copyPending : Except (Fault Addr) (State Addr Frame) := do
  let (p, b) ← s.pending
  let time := s.mf_time + env.us2count (env.TX_DELAY + env.Tu).toUInt64
  .ok ((s.write p { b with frame := env.last_hop b.frame time }).interrupt
    (s.mf_time - env.us2count env.TX_DELAY.toUInt64) .tx_data)

def tx_mf : Except (Fault Addr) (State Addr Frame) :=
  let (count, mf) := s.mf.dec_count
  let s := { s with mf_time := nextMfTime env s.mf_time, mf }
  if count > 0 then .ok (s.interrupt (s.mf_time - env.us2count env.TX_DELAY.toUInt64) .tx_mf)
  else s.copyPending env

/-- The end of `tx_data`. -/
def sleep : State Addr Frame :=
  s.interrupt (s.mf_time + env.us2count env.SLEEP_PERIOD.toUInt64) .rx_mf

def tx_data (i : Inputs) : Except (Fault Addr) (State Addr Frame) :=
  if s.tx_pending.isSome then do
    let (p, b) ← s.pending
    let b := { b with times_txed := b.times_txed + 1 }
    let is_keep_alive := keepAlive env b
    let silence_periods :=
      if !is_keep_alive && !b.destined_to_me then
        s.silence_periods + (i.random % b.times_txed + 1)
      else s.silence_periods
    let s := { s.write p b with silence_periods, mf_time := i.now }
    if is_keep_alive || b.destined_to_me then
      -- Keep Alive messages are never ACK'ed or forwarded.
      .ok ({ s.delete p with tx_pending := none }.sleep env)
    else .ok (s.sleep env)
  else .ok ({ s with mf_time := i.now }.sleep env)

def run (i : Inputs) : Handler → Except (Fault Addr) (State Addr Frame)
  | .update_tx_schedule => s.update_tx_schedule env i
  | .cca => .ok (s.cca env i)
  | .rx_mf => .ok (s.rx_mf env i.now)
  | .rx_data => .ok (s.rx_data env i.now)
  | .tx_mf => s.tx_mf env
  | .tx_data => s.tx_data env i

end State

variable {Addr Frame : Type} [DecidableEq Addr] (env : Env Frame)

/-- `constructor_epilogue()`. -/
def constructor_epilogue (i : Inputs) : Except (Fault Addr) (State Addr Frame) :=
  if env.sniffer then .ok {} else ({} : State Addr Frame).update_tx_schedule env i

/-- What can happen, one after the other. -/
inductive Event (Addr Frame : Type) where
  | send (b : Addr) (buf : Buffer Frame)
  | drop (id : UInt32)
  | pre_notify (buf : Buffer Frame)
  /-- For one of the received buffers, with what the listeners made of `relevant`. -/
  | post_notify (n : Nat) (relevant : Bool) (i : Inputs)
  /-- The timer calls its handler. -/
  | timer (i : Inputs)

def State.handle (s : State Addr Frame) :
    Event Addr Frame → Except (Fault Addr) (State Addr Frame)
  | .send b buf => s.send env b buf
  | .drop id => s.drop id
  | .pre_notify buf => s.pre_notify env buf
  | .post_notify n relevant i =>
    match s.received[n]? with
    | none => .ok s
    | some buf =>
      { s with received := s.received.eraseIdx n }.post_notify env { buf with relevant } i
  | .timer i =>
    match s.timer with
    | none => .ok s
    | some (_, handler) => { s with timer := none }.run env i handler

end TSTP.MAC

end Epos
