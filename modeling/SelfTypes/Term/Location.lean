import SelfTypes.Term.Basic

/-!
# Source locations in terms

Locations wrap terms and carry no meaning. `Term.peel` removes those at the head of a term,
`Term.unlocate` removes all of them.
-/

namespace SelfTypes.Term

/-- A term without the locations at its head. -/
def peel : Term → Term
  | loc _ e => peel e
  | t => t

/-- A term without any location, under binders as well. -/
def unlocate : Term → Term
  | bound i => bound i
  | var x => var x
  | ref n => ref n
  | typ => typ
  | all s n a b => all s n a.unlocate b.unlocate
  | lam n er b => lam n er b.unlocate
  | app f a er => app f.unlocate a.unlocate er
  | letIn n d e b => letIn n d e.unlocate b.unlocate
  | ann d e t => ann d e.unlocate t.unlocate
  | loc _ e => e.unlocate

end SelfTypes.Term
