import SelfTypes.Kernel.Reduction

/-!
# Definitional equality

Two terms are equal when their weak head normal forms have the same head and equal parts; bodies
of binders are compared with the same fresh variables in them. Equality of recursive types has no
end of unfolding, so a pair of normal forms that is being compared already counts as equal where
it turns up again among its own parts.
-/

namespace SelfTypes.Kernel

/-- Compares two weak head normal forms: the same head, and parts that `compare` finds equal.
Names of binders do not count, and neither does the name of a variable. -/
def congruent (compare : Term → Term → KernelM Bool) : Term → Term → KernelM Bool
  | .bound i, .bound j => pure (i == j)
  | .var x, .var y => pure (x.id == y.id)
  | .ref m, .ref n => pure (m == n)
  | .typ, .typ => pure true
  | .all s n a b, .all _ _ a' b' => do
    if ← compare a a' then
      let self ← fresh s
      let arg ← fresh n
      let args := [.var self, .var arg]
      compare (b.instantiate args) (b'.instantiate args)
    else
      pure false
  | .lam n er b, .lam _ er' b' =>
    if er = er' then do
      let arg ← fresh n
      compare (b.instantiate [.var arg]) (b'.instantiate [.var arg])
    else
      pure false
  | .app f a er, .app f' a' er' =>
    if er = er' then do
      if ← compare f f' then
        compare a a'
      else
        pure false
    else
      pure false
  | _, _ => pure false

/-- Decides equality of two terms, given the pairs of normal forms that are being compared. -/
def equalUnder (table : Table) :
    (depth : Nat) → (assumed : List (Term × Term)) → Term → Term → KernelM Bool
  | 0, _, _, _ => giveUp
  | depth + 1, assumed, a, b =>
    -- equal terms take no step
    if a = b then
      pure true
    else do
      let a ← reduce table depth a
      let b ← reduce table depth b
      -- a pair that is being compared further out counts as equal
      if a = b ∨ (a, b) ∈ assumed then
        pure true
      else
        note (.comparison a b)
        congruent (equalUnder table depth ((a, b) :: assumed)) a b

/-- Decides equality of two terms. -/
def equal (table : Table) (depth : Nat) (a b : Term) : KernelM Bool :=
  equalUnder table depth [] a b

end SelfTypes.Kernel
