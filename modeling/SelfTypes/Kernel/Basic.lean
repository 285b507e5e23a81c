import SelfTypes.Trace

/-!
# The kernel's state

Reduction and comparison of terms share a supply of fresh variables, a budget of reduction steps
and a trace. A step that exceeds the budget fails, and what was done before stays done: the state
is there after a failure too.

Reduction need not end when the budget is unlimited. Functions that reduce therefore take a bound
on the depth of their calls, and reaching it is an outcome of its own, `Halt.unfinished`. An
answer found within one bound is the answer within every larger one.
-/

namespace SelfTypes

/-! ## Fuel -/

/-- The failure of a step that the budget of `limit` steps does not allow. -/
structure OutOfFuel where
  limit : Nat
  deriving DecidableEq, Inhabited

/-- The wording of an exhausted budget. -/
def OutOfFuel.message (e : OutOfFuel) : String :=
  s!"ran out of fuel after {e.limit} reduction steps"

/-- A budget of reduction steps, unlimited if it has no limit, and the steps taken. -/
structure Fuel where
  limit : Option Nat
  used : Nat := 0
  deriving DecidableEq, Inhabited

/-- One more step, if the budget allows it. -/
def Fuel.burn (f : Fuel) : Except OutOfFuel Fuel :=
  match f.limit with
  | none => .ok { f with used := f.used + 1 }
  | some limit => if f.used < limit then .ok { f with used := f.used + 1 } else .error ⟨limit⟩

/-! ## Outcomes -/

/-- Why a computation stopped without a value. -/
inductive Halt (ε : Type) where
  /-- It failed. -/
  | failed (e : ε)
  /-- Its calls went deeper than it was allowed to follow them. -/
  | unfinished
  deriving DecidableEq, Inhabited

/-! ## State and actions -/

/-- The state of the kernel. -/
structure Kernel where
  supply : Supply
  fuel : Fuel
  trace : Trace := []
  deriving DecidableEq, Inhabited

/-- Computations of the kernel; the state outlives a failure. -/
abbrev KernelM := EStateM (Halt OutOfFuel) Kernel

namespace Kernel

/-- The state before any work: variables come from `supply`, and `fuel` limits the steps. -/
def start (supply : Supply) (fuel : Option Nat) : Kernel :=
  { supply, fuel := ⟨fuel, 0⟩ }

/-- The reduction steps taken so far. -/
def spent (k : Kernel) : Nat :=
  k.fuel.used

/-- Stops where calls would go too deep. -/
def giveUp {α : Type} : KernelM α := fun k =>
  .error .unfinished k

/-- Records an event. -/
def note (e : Event) : KernelM Unit := fun k =>
  .ok () { k with trace := e :: k.trace }

/-- Takes one step of the budget. -/
def burn : KernelM Unit := fun k =>
  match k.fuel.burn with
  | .ok fuel => .ok () { k with fuel }
  | .error e => .error (.failed e) k

/-- A variable that was not issued before, displayed under the given name. -/
def fresh (name : BinderName) : KernelM Var := fun k =>
  .ok ⟨k.supply.issue.1, name⟩ { k with supply := k.supply.issue.2 }

end Kernel

end SelfTypes
