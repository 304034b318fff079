import Epos.ForStd.TransitionSystem
import Mathlib.Logic.Function.Basic

/-!
# Recursive spin locks

`Spin` of `utility/spin.h`, one access to `_level` or `_owner` at a time. A thread is inside
of `acquire()` or `release()` or outside of both; what it has read from `_level` in the middle
of `_level++` or `--_level` is its own. The trace messages only read and are left out.
-/

namespace Epos.Util

/-- `CPU::cas`: the value it returns and the value it leaves. -/
def cas (value compare replacement : Int32) : Int32 × Int32 :=
  let old := value
  (old, if value = compare then replacement else value)

structure Spin where
  level : Int32
  owner : Int32
  deriving DecidableEq

namespace Spin

/-- The constructor. -/
def init : Spin where
  level := 0
  owner := 0

def taken (s : Spin) : Bool := s.owner ≠ 0

/-- `This_Thread::id()` as the `int` that `acquire()` makes of it. -/
structure Ids (ι : Type*) where
  id : ι → Int32
  ne_zero : ∀ t, id t ≠ 0
  injective : Function.Injective id

/-- The access that a thread makes next. -/
inductive Point where
  | outside
  /-- `CPU::cas` in the loop of `acquire()`. -/
  | cas
  /-- `_level++` in `acquire()`. -/
  | incRead
  | incWrite (level : Int32)
  /-- `--_level` in `release()`. -/
  | decRead
  | decWrite (level : Int32)
  /-- `<= 0`, which reads the volatile `_level` again. -/
  | test
  /-- `_level = 0`. -/
  | clearLevel
  /-- `_owner = 0`. -/
  | clearOwner
  deriving DecidableEq

/-- The lock and its threads. `unmatched` counts the calls of `acquire()` that returned less the
    calls of `release()` that returned. -/
structure State (ι : Type*) extends Spin where
  point : ι → Point
  unmatched : ι → Nat

inductive Action (ι : Type*) where
  | acquire (t : ι)
  | release (t : ι)
  | access (t : ι)
  deriving DecidableEq

namespace State

variable {ι : Type*} [DecidableEq ι]

def init : State ι where
  toSpin := Spin.init
  point _ := .outside
  unmatched _ := 0

def goto (s : State ι) (t : ι) (p : Point) : State ι :=
  { s with point := Function.update s.point t p }

/-- `t` returns, with `n` calls of `acquire()` unmatched. -/
def ret (s : State ι) (t : ι) (n : Nat) : State ι :=
  { s with
    point := Function.update s.point t .outside
    unmatched := Function.update s.unmatched t n }

def access (ids : Ids ι) (s : State ι) (t : ι) : State ι :=
  match s.point t with
  | .outside => s
  | .cas =>
    let me := ids.id t
    let (old, owner) := Util.cas s.owner 0 me
    -- the loop goes on until the owner was already the caller itself
    { s with owner }.goto t (if old ≠ me then .cas else .incRead)
  | .incRead => s.goto t (.incWrite s.level)
  | .incWrite level => { s with level := level + 1 }.ret t (s.unmatched t + 1)
  | .decRead => s.goto t (.decWrite s.level)
  | .decWrite level => { s with level := level - 1 }.goto t .test
  | .test => if s.level ≤ 0 then s.goto t .clearLevel else s.ret t (s.unmatched t - 1)
  | .clearLevel => { s with level := 0 }.goto t .clearOwner
  | .clearOwner => { s with owner := 0 }.ret t (s.unmatched t - 1)

def next (ids : Ids ι) (s : State ι) : Action ι → State ι
  | .acquire t => s.goto t .cas
  | .release t => s.goto t .decRead
  | .access t => s.access ids t

/-- A thread makes one call after the other, and calls `release()` only after an `acquire()` of
    its own that no `release()` has matched. -/
def Enabled (s : State ι) : Action ι → Prop
  | .acquire t => s.point t = .outside
  | .release t => s.point t = .outside ∧ 0 < s.unmatched t
  | .access t => s.point t ≠ .outside

instance (s : State ι) : (a : Action ι) → Decidable (s.Enabled a)
  | .acquire _ => inferInstanceAs (Decidable (_ = _))
  | .release _ => inferInstanceAs (Decidable (_ ∧ _))
  | .access _ => inferInstanceAs (Decidable (_ ≠ _))

end State

variable {ι : Type*} [DecidableEq ι]

/-- Any interleaving of the threads' calls and accesses. -/
def system (ids : Ids ι) : TransitionSystem (State ι) (Action ι) where
  Init s := s = State.init
  Enabled s a := s.Enabled a
  next s a := s.next ids a

instance (ids : Ids ι) (s : State ι) (a : Action ι) : Decidable ((system ids).Enabled s a) :=
  inferInstanceAs (Decidable (s.Enabled a))

end Spin

end Epos.Util
