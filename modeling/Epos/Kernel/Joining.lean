import Epos.Kernel.Thread

/-!
# The status of a joined thread

`exit()` leaves its status on the stack of its thread, and `join()` reads it there when it returns.
The kernel is run with those words of the stacks, and it is counted how many times a thread is put
back into a ready list for the `join()` that it has called last.
-/

namespace Epos

/-- The threads that join each other: `_stack` and the counts. -/
structure Joining extends Kernel where
  stack : Tid → Int
  puts : Tid → Nat := fun _ => 0

/-- `exit()` has not resumed `t` from its `join()` yet. -/
def Kernel.parked (k : Kernel) (t : Tid) : Bool :=
  match k.call t with
  | some (.join u) => k.joining u = some t
  | _ => false

namespace Joining

variable (status : Tid → Int) (σ : Joining)

/-- The counts after `t` has been put back. -/
def put (t : Tid) : Tid → Nat := Function.update σ.puts t (σ.puts t + 1)

/-- `exit(status)`. -/
def exit (t : Tid) : Joining where
  toKernel := σ.toKernel.exit t
  stack := Function.update σ.stack t (status t)
  puts :=
    match σ.joining t with
    | some j => σ.put j
    | none => σ.puts

/-- `u.join()`. -/
def join (t u : Tid) : Joining :=
  { σ with
    toKernel := σ.toKernel.join t u
    puts := if σ.state u = some .finishing then σ.puts else Function.update σ.puts t 0 }

/-- `u.resume()`. -/
def resume (c : Nat) (u : Tid) : Joining :=
  { σ with
    toKernel := σ.toKernel.resume c u
    puts := if σ.state u = some .suspended ∧ σ.parked u then σ.put u else σ.puts }

def step : Action → Joining
  | .exit t => σ.exit status t
  | .join t u => σ.join t u
  | .resume c u => σ.resume c u
  | a => { σ with toKernel := σ.toKernel.step a }

/-- Threads are resumed in any state. -/
def CanAct : Action → Prop
  | .resume c _ => c < σ.cores
  | a => σ.toKernel.CanAct a

end Joining

end Epos
