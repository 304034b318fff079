import Epos.Kernel.SimpleList

/-!
# The peers of the security manager

`TSTP::Security` of `network/tstp/security.h` and `security.cc` up to its lists: the
handlers of `update` for control messages, `add_peer`, and one round of the loop of
`key_manager`, in which interrupts are off. Each peer is an element of one of two lists that
share the `next` fields. Messages are given by the fields that are read. The clock, which
advances while a list is passed through, is a time for each check; regions, the cipher, one-time
passwords and `_dh` are parameters.
-/

namespace Epos

namespace TSTP.Security

/-- `unsigned long long`, in microseconds. -/
abbrev Time := UInt64

def KEY_EXPIRY : Time := 1 * 60 * 1000 * 1000

/-- `_pending_peers` and `_trusted_peers`. -/
inductive PeerList where
  | pending
  | trusted
  deriving DecidableEq, Repr

/-- What reads memory that is not there, and a loop over a list that does not end. -/
inductive Fault (El : Type) where
  | dead (el : El)
  | endless

/-- Regions and cryptography. -/
structure Env (Region Space Bytes Secret Point : Type) where
  contains : Region → Space → Time → Bool
  center : Region → Space
  encrypt : Bytes → Bytes → Bytes
  decrypt : Bytes → Bytes → Bytes
  otp : Secret → Bytes → Time → Bytes
  verify_auth_request : Secret → Bytes → Bytes → Time → Bool
  shared_key : Point → Secret
  /-- `_auth` of this node. -/
  auth : Bytes

structure Peer (Region Bytes Secret : Type) where
  id : Bytes
  auth : Bytes
  valid : Region
  master_secret : Option Secret := none
  auth_time : Time := 0

structure Pending_Key (Point : Type) where
  creation : Time
  public_key : Point

/-- The attributes of the class, the peers that are allocated, by the addresses of their
    elements, and the `last_dh_request` of `key_manager`. -/
structure State (El Region Bytes Secret Point : Type) where
  next : El → Option El := fun _ => none
  header : PeerList → ListHeader El := fun _ => {}
  peers : El → Option (Peer Region Bytes Secret) := fun _ => none
  pending_keys : List (Pending_Key Point) := []
  dh_requests_open : UInt32 := 0
  last_dh_request : Option El := none

variable {El Region Space Bytes Secret Point : Type}

/-- `valid_deploy(where, when)`. -/
def Peer.valid_deploy (env : Env Region Space Bytes Secret Point)
    (peer : Peer Region Bytes Secret) (place : Space) (time : Time) : Bool :=
  env.contains peer.valid place time

/-- `valid_request(auth, where, when)`. -/
def Peer.valid_request [DecidableEq Bytes] (env : Env Region Space Bytes Secret Point)
    (peer : Peer Region Bytes Secret) (auth : Bytes) (place : Space) (time : Time) : Bool :=
  auth = peer.auth && env.contains peer.valid place time

/-- `expired()`. -/
def Pending_Key.expired (key : Pending_Key Point) (time : Time) : Bool :=
  time - key.creation > KEY_EXPIRY

namespace State

/-! ## Lists of peers -/

section Lists

variable (s : State El Region Bytes Secret Point)

def list (w : PeerList) : SimpleList El where
  next := s.next
  header := s.header w

/-- There are fewer elements than addresses. -/
def fuel : Nat := (s.header .pending).size.toNat + (s.header .trusted).size.toNat + 2 ^ 32

/-- A loop over a list that ends at the first peer that passes the test. -/
def search {κ : Type} (test : El → Peer Region Bytes Secret → Option κ) :
    Nat → Option El → Except (Fault El) (Option (El × κ))
  | _, none => .ok none
  | 0, some _ => .error .endless
  | fuel + 1, some el =>
    match s.peers el with
    | none => .error (.dead el)
    | some peer =>
      match test el peer with
      | some k => .ok (some (el, k))
      | none => search test fuel (s.next el)

def searchList {κ : Type} (w : PeerList) (test : El → Peer Region Bytes Secret → Option κ) :
    Except (Fault El) (Option (El × κ)) :=
  s.search test s.fuel (s.header w).head

variable [DecidableEq El]

def setList (w : PeerList) (q : SimpleList El) : State El Region Bytes Secret Point :=
  { s with next := q.next, header := Function.update s.header w q.header }

def remove (w : PeerList) (el : El) : Except (Fault El) (State El Region Bytes Secret Point) :=
  match (s.list w).remove el with
  | some q => .ok (s.setList w q)
  | none => .error .endless

def insert (w : PeerList) (el : El) : Except (Fault El) (State El Region Bytes Secret Point) :=
  match (s.list w).insertTail el with
  | some q => .ok (s.setList w q)
  | none => .error .endless

/-- Out of a list, and into the other one or deleted. -/
def move (w : PeerList) (dest : Option PeerList) (el : El) :
    Except (Fault El) (State El Region Bytes Secret Point) := do
  let s ← s.remove w el
  match dest with
  | some w' => s.insert w' el
  | none => .ok { s with peers := Function.update s.peers el none }

end Lists

variable [DecidableEq El]

/-- A loop over a list that moves every peer that passes the test. It reads `next` before. -/
def sweep (w : PeerList) (dest : Option PeerList) (test : El → Peer Region Bytes Secret → Bool) :
    Nat → Option El → State El Region Bytes Secret Point →
      Except (Fault El) (State El Region Bytes Secret Point)
  | _, none, s => .ok s
  | 0, some _, _ => .error .endless
  | fuel + 1, some el, s =>
    match s.peers el with
    | none => .error (.dead el)
    | some peer => do
      -- `next` is read first, since the element may go to another list
      let next := s.next el
      let s ← if test el peer then s.move w dest el else .ok s
      sweep w dest test fuel next s

def sweepList (s : State El Region Bytes Secret Point) (w : PeerList) (dest : Option PeerList)
    (test : El → Peer Region Bytes Secret → Bool) :
    Except (Fault El) (State El Region Bytes Secret Point) :=
  sweep w dest test s.fuel (s.header w).head s

/-! ## Messages -/

variable (env : Env Region Space Bytes Secret Point) (s : State El Region Bytes Secret Point)

/-- `add_peer(peer_id, id_len, valid_region)`, with the element of the peer that is allocated. -/
def add_peer (el : El) (peer_id : Bytes) (valid_region : Region) :
    Except (Fault El) (State El Region Bytes Secret Point) :=
  let peer := { id := peer_id, auth := env.encrypt peer_id peer_id, valid := valid_region }
  { s with peers := Function.update s.peers el (some peer) }.insert .pending el

/-- `_pending_keys.insert(pk->link())`. -/
def insertKey (key : Point) (creation : Time) : State El Region Bytes Secret Point :=
  { s with pending_keys := s.pending_keys ++ [{ creation, public_key := key }] }

/-- The check of `DH_REQUEST` and `DH_RESPONSE`. -/
def deployed (origin : Space) (now : El → Time) (el : El) (peer : Peer Region Bytes Secret) :
    Option Unit :=
  if peer.valid_deploy env origin (now el) then some () else none

/-- `DH_REQUEST`, for a node that is the sink or not. -/
def dhRequest (sink : Bool) (origin : Space) (key : Point) (now : El → Time) (creation : Time) :
    Except (Fault El) (State El Region Bytes Secret Point) :=
  if sink then .ok s
  else do
    match ← s.searchList .pending (deployed env origin now) with
    | some _ => .ok (s.insertKey key creation)
    | none =>
      match ← s.searchList .trusted (deployed env origin now) with
      | some (el, _) =>
        -- A trusted peer that asks for a new key is pending again.
        let s ← s.move .trusted (some .pending) el
        .ok (s.insertKey key creation)
      | none => .ok s

/-- `DH_RESPONSE`. -/
def dhResponse (origin : Space) (key : Point) (now : El → Time) (creation : Time) :
    Except (Fault El) (State El Region Bytes Secret Point) :=
  if s.dh_requests_open = 0 then .ok s
  else do
    match ← s.searchList .pending (deployed env origin now) with
    | some _ =>
      .ok { s.insertKey key creation with dh_requests_open := s.dh_requests_open - 1 }
    | none => .ok s

/-- The loop over the pending keys, up to the first one that passes the test. -/
def searchKey (test : Nat → Pending_Key Point → Bool) : Option (Nat × Pending_Key Point) :=
  s.pending_keys.zipIdx.findSome? fun (pk, i) => if test i pk then some (i, pk) else none

/-- The peer is trusted from now on, with the master secret of the key, which is deleted. -/
def trust (el : El) (i : Nat) (pk : Pending_Key Point) (time : Time) :
    Except (Fault El) (State El Region Bytes Secret Point) := do
  match s.peers el with
  | none => .error (.dead el)
  | some peer =>
    let peer :=
      { peer with master_secret := some (env.shared_key pk.public_key), auth_time := time }
    let s ← { s with peers := Function.update s.peers el (some peer) }.move .pending
      (some .trusted) el
    .ok { s with pending_keys := s.pending_keys.eraseIdx i }

section Authentication

variable [DecidableEq Bytes]

/-- The checks of `AUTH_REQUEST`. -/
def requested (origin : Space) (auth otp : Bytes) (now : El → Time) (nowKey : El → Nat → Time)
    (el : El) (peer : Peer Region Bytes Secret) : Option (Nat × Pending_Key Point) :=
  if peer.valid_request env auth origin (now el) then
    s.searchKey fun i pk =>
      env.verify_auth_request (env.shared_key pk.public_key) peer.id otp (nowKey el i)
  else none

/-- The check of `AUTH_GRANTED`. -/
def granted (auth : Bytes) (nowKey : El → Nat → Time) (el : El)
    (peer : Peer Region Bytes Secret) : Option (Nat × Pending_Key Point) :=
  s.searchKey fun i pk =>
    env.decrypt auth (env.otp (env.shared_key pk.public_key) peer.id (nowKey el i)) = env.auth

/-- `AUTH_REQUEST`. -/
def authRequest (origin : Space) (auth otp : Bytes) (now : El → Time)
    (nowKey : El → Nat → Time) (time : Time) :
    Except (Fault El) (State El Region Bytes Secret Point) := do
  match ← s.searchList .pending (s.requested env origin auth otp now nowKey) with
  | some (el, i, pk) => s.trust env el i pk time
  | none => .ok s

/-- `AUTH_GRANTED`, for a node that is the sink or not. -/
def authGranted (sink : Bool) (auth : Bytes) (nowKey : El → Nat → Time)
    (time : Time) : Except (Fault El) (State El Region Bytes Secret Point) :=
  if sink then .ok s
  else do
    match ← s.searchList .pending (s.granted env auth nowKey) with
    | some (el, i, pk) => s.trust env el i pk time
    | none => .ok s

end Authentication

/-! ## `key_manager` -/

/-- The times at which one round checks keys and peers, loop by loop. The first two loops over
    peers pass through different lists. -/
structure Clock (El : Type) where
  keys : Nat → Time
  cleanup : El → Time
  expiry : El → Time
  send : El → Time

/-- Cleanup of expired pending keys. -/
def cleanupKeys (now : Nat → Time) : State El Region Bytes Secret Point :=
  { s with
    pending_keys := (s.pending_keys.zipIdx.filter fun (pk, i) => !pk.expired (now i)).map Prod.fst }

/-- `valid_deploy(valid().center, now)`. -/
def valid (now : El → Time) (el : El) (peer : Peer Region Bytes Secret) : Bool :=
  peer.valid_deploy env (env.center peer.valid) (now el)

/-- `TSTP::now() - p->authentication_time() > KEY_EXPIRY`. -/
def keyExpired (now : El → Time) (el : El) (peer : Peer Region Bytes Secret) : Bool :=
  now el - peer.auth_time > KEY_EXPIRY

/-- The element from which on a peer is looked for. -/
def firstCandidate : Except (Fault El) (Option El) :=
  match s.last_dh_request with
  | none => .ok (s.header .pending).head
  | some last =>
    -- The peer that was asked last may have been deleted since.
    if (s.peers last).isNone then .error (.dead last)
    else .ok ((s.next last).or (s.header .pending).head)

/-- A request is sent to at most one peer, which is remembered. -/
def sendRequest (now : El → Time) : Except (Fault El) (State El Region Bytes Secret Point) := do
  let el ← s.firstCandidate
  -- From the candidate to the end of its list, without a second pass from the head.
  let found ← s.search (fun el peer => if valid env now el peer then some () else none) s.fuel el
  .ok
    { s with
      last_dh_request := found.map Prod.fst
      dh_requests_open := if found.isSome then s.dh_requests_open + 1 else s.dh_requests_open }

/-- One round. -/
def keyManager (clock : Clock El) : Except (Fault El) (State El Region Bytes Secret Point) := do
  let s := s.cleanupKeys clock.keys
  let s ← s.sweepList .trusted none fun el peer => !valid env clock.cleanup el peer
  let s ← s.sweepList .pending none fun el peer => !valid env clock.cleanup el peer
  let s ← s.sweepList .trusted (some .pending) (keyExpired clock.expiry)
  s.sendRequest env clock.send

end State

/-- What can happen, one after the other. -/
inductive Event (El Region Space Bytes Point : Type) where
  | addPeer (el : El) (peer_id : Bytes) (valid_region : Region)
  | dhRequest (sink : Bool) (origin : Space) (key : Point) (now : El → Time) (creation : Time)
  | dhResponse (origin : Space) (key : Point) (now : El → Time) (creation : Time)
  | authRequest (origin : Space) (auth otp : Bytes) (now : El → Time)
      (nowKey : El → Nat → Time) (time : Time)
  | authGranted (sink : Bool) (auth : Bytes) (nowKey : El → Nat → Time) (time : Time)
  | keyManager (clock : State.Clock El)

variable [DecidableEq El] [DecidableEq Bytes]

def State.handle (env : Env Region Space Bytes Secret Point)
    (s : State El Region Bytes Secret Point) :
    Event El Region Space Bytes Point → Except (Fault El) (State El Region Bytes Secret Point)
  | .addPeer el peer_id valid_region => s.add_peer env el peer_id valid_region
  | .dhRequest sink origin key now creation => s.dhRequest env sink origin key now creation
  | .dhResponse origin key now creation => s.dhResponse env origin key now creation
  | .authRequest origin auth otp now nowKey time =>
    s.authRequest env origin auth otp now nowKey time
  | .authGranted sink auth nowKey time => s.authGranted env sink auth nowKey time
  | .keyManager clock => s.keyManager env clock

end TSTP.Security

end Epos
