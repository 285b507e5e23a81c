import SelfTypes.Kernel.Basic
import SelfTypes.Table
import SelfTypes.Term.Scope

/-!
# Weak head reduction

`Kernel.reduce` brings the head of a term to light. Annotations and locations at the head are
dropped; a defined global is replaced by its body, a local definition and an applied function are
contracted, each for one step of the budget. A global without definition stays as it is, and so
do arguments and the inside of binders.
-/

namespace SelfTypes.Kernel

/-- The weak head normal form of a term. -/
def reduce (table : Table) : (depth : Nat) → Term → KernelM Term
  | 0, _ => giveUp
  | depth + 1, t =>
    match t with
    | .ann _ e _ => reduce table depth e
    | .loc _ e => reduce table depth e
    | .ref name =>
      match table.find? name with
      | none => pure t
      | some d => do
        burn
        note (.unfolding name)
        reduce table depth d.body
    | .letIn _ _ e b => do
      burn
      reduce table depth (b.instantiate [e])
    | .app f a er => do
      -- the argument is passed on as it is
      let head ← reduce table depth f
      match head with
      | .lam _ _ b => do
        burn
        reduce table depth (b.instantiate [a])
      | _ => pure (.app head a er)
    | .bound _ | .var _ | .typ | .all .. | .lam .. => pure t

end SelfTypes.Kernel
