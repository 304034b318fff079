import Epos.Kernel.Observer
import Epos.Network.Tcp

/-!
# Connections and the segments for them

`TCP::attach` and `TCP::detach` with `TCP::_observed`, in which a connection stands under its
identifier. The link by which it stands there is a part of the connection, as the alarm's
handler is; what the heap leaves in the memory of a deleted one is not known.
-/

namespace Epos

namespace TCP

namespace Connection

/-- `Connection(from, to)` with the random number, and the observer of `attach`. -/
def create (fromPort toPort : Port) (peer : IP.Address) (n : Nat) : Connection where
  fromPort := fromPort
  toPort := toPort
  sequence := n
  peer := peer
  next := n
  unacknowledged := n
  initial := n

/-- `~Connection` up to the wait in `close()`. -/
def destroy (c : Connection) (ok : Bool) : Connection := ({ c with alarm := false }.close ok).1

/-- The rank of a connection, which is compared as an `unsigned long long`. -/
def key (c : Connection) : Int := c.id.toNat

end Connection

/-- Where a call is: in `attach` in front of its last test, or in the destructor that `attach`
    or `detach` has called. -/
inductive Channel.Call where
  | attaching
  | refusing
  | detaching
  deriving DecidableEq

/-- `TCP::_observed`, the connections at all addresses, and those that have been made and not
    deleted. -/
structure Channel (α : Type*) where
  observed : Option (SimpleOrderedList α)
  conn : α → Connection
  live : List α := []
  call : α → Option Channel.Call := fun _ => none

/-- The links that `Simple_List::remove(e)` reads in its loop, from `p` on. -/
def pathTo {α : Type*} [DecidableEq α] (next : α → Option α) (e : α) : Nat → α → List α
  | 0, _ => []
  | fuel + 1, p =>
    match next p with
    | some x => if x ≠ e then p :: pathTo next e fuel x else [p]
    | none => [p]

/-- The links that `Simple_List::remove(e)` reads; in the end it is that of `e`. -/
def removeReads {α : Type*} [DecidableEq α] (q : SimpleList α) (e : α) : List α :=
  if q.last then []
  else
    match q.header.head with
    | none => []
    | some x => if x = e then [e] else pathTo q.next e q.findFuel x ++ [e]

namespace Channel

variable {α : Type*} [DecidableEq α] (σ : Channel α)

/-- What `attach` does up to `connect()` or `listen()`; the arrival of a segment; the alarm;
    whatever else happens to a connection, in `connect()`, `listen()`, `write()` and `close()`
    for instance; the test at the end of `attach`; `detach` up to the wait in the destructor;
    and the rest of `attach` or `detach` behind it. -/
inductive Action (α : Type*) where
  | attach (o : α) (fromPort toPort : Port) (peer : IP.Address) (n : Nat)
  | segment (o : α) (ok : Bool) (g : Received)
  | alarm (o : α) (ok : Bool)
  | other (o : α) (c : Connection)
  | test (o : α) (ok : Bool)
  | detach (o : α) (ok : Bool)
  | delete (o : α) (next : Option α) (rank : Int)

/-- `TCP::_observed.detach(this, id())` and `TCP::_observed.attach(this, id())` with the new
    peer in between. -/
def register (o : α) (g : Received) : Option (SimpleOrderedList α) :=
  let c := σ.conn o
  if c.state = .LISTENING then
    (σ.observed.bind (·.detach o)).bind (ObservedClass.conditional.attach · o (c.arrive g).key)
  else σ.observed

/-- The list behind `delete conn`, with anything in the link. -/
def overwritten (o : α) (next : Option α) (rank : Int) : Option (SimpleOrderedList α) :=
  σ.observed.map fun q =>
    { q with next := Function.update q.next o next, rank := Function.update q.rank o rank }

/-- Nothing comes between `delete conn` and `_observed.detach(conn, id)` in `detach`. -/
def step : Action α → Channel α
  | .attach o fromPort toPort peer n =>
    let c := Connection.create fromPort toPort peer n
    { observed := σ.observed.bind (ObservedClass.conditional.attach · o c.key)
      conn := Function.update σ.conn o c
      live := o :: σ.live
      call := Function.update σ.call o (some .attaching) }
  | .segment o ok g =>
    { σ with
      observed := σ.register o g
      conn := Function.update σ.conn o ((σ.conn o).update ok g) }
  | .alarm o ok => { σ with conn := Function.update σ.conn o ((σ.conn o).timeout ok) }
  -- what other calls do with the connection, whose ports and peer they leave
  | .other o c =>
    let old := σ.conn o
    { σ with
      conn := Function.update σ.conn o
        { c with fromPort := old.fromPort, toPort := old.toPort, peer := old.peer } }
  | .test o ok =>
    if (σ.conn o).state = .ESTABLISHED then { σ with call := Function.update σ.call o none }
    else
      { σ with
        conn := Function.update σ.conn o ((σ.conn o).destroy ok)
        call := Function.update σ.call o (some .refusing) }
  | .detach o ok =>
    { σ with
      conn := Function.update σ.conn o ({ σ.conn o with observer := false }.destroy ok)
      call := Function.update σ.call o (some .detaching) }
  | .delete o next rank =>
    -- `delete` comes first, so `detach` reads what is there afterwards
    let observed := σ.overwritten o next rank
    { observed := if σ.call o = some .detaching then observed.bind (·.detach o) else observed
      conn := σ.conn
      live := σ.live.erase o
      call := Function.update σ.call o none }

/-- The links that a step reads: at most those of the whole list, and behind a `delete` those
    that `_observed.detach` reads. -/
def reads : Action α → List α
  | .delete o next rank =>
    if σ.call o = some .detaching then
      (σ.overwritten o next rank).elim [] fun q => removeReads q.toSimpleList o
    else []
  | _ =>
    σ.observed.elim [] fun q => (ObservedClass.visit q.next q.findFuel q.header.head).getD []

end Channel

/-- New connections are made at free addresses, and an alarm goes off if it has been set. -/
def channel (α : Type*) [DecidableEq α] : TransitionSystem (Channel α) (Channel.Action α) where
  Init σ := (∃ next rank, σ.observed = some { next := next, header := {}, rank := rank }) ∧
    σ.live = [] ∧ ∀ o, (σ.conn o).alarm = false
  Enabled σ a :=
    match a with
    | .attach o .. => o ∉ σ.live
    | .segment o .. | .other o _ => o ∈ σ.live
    | .alarm o _ => (σ.conn o).alarm = true
    | .test o _ => o ∈ σ.live ∧ σ.call o = some .attaching
    | .detach o _ => o ∈ σ.live ∧ σ.call o = none
    | .delete o .. => o ∈ σ.live ∧ (σ.call o = some .refusing ∨ σ.call o = some .detaching)
  next := Channel.step

end TCP

end Epos
