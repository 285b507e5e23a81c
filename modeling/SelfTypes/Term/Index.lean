import SelfTypes.Term.Scope

/-!
# The range of indices

An index is a machine word, so there is a largest one. Opening a scope raises no index. Closing one
raises the indices that point out of the term, and there is no closed body if one of them would
leave the range.
-/

namespace SelfTypes

/-- The number of indices: an index is a word of 64 bits. -/
def indexCount : Nat := Nat.pow 2 64

namespace Term

/-- The least number that every index of a term is below, whatever binders it stands under. -/
def indexBound : Term → Nat
  | bound i => i + 1
  | var _ | ref _ | typ => 0
  | all _ _ a b => max a.indexBound b.indexBound
  | lam _ _ b => b.indexBound
  | app f a _ => max f.indexBound a.indexBound
  | letIn _ _ e b => max e.indexBound b.indexBound
  | ann _ e t => max e.indexBound t.indexBound
  | loc _ e => e.indexBound

/-- Whether every index of a term is in range. -/
def isInRange (t : Term) : Bool :=
  t.indexBound ≤ indexCount

/-- The body of a new scope over the variables `ids`, if its indices are in range. -/
def abstractOver? (ids : List VarId) (body : Term) : Option Term :=
  let closed := body.abstractOver ids
  if closed.isInRange then some closed else none

end Term

end SelfTypes
