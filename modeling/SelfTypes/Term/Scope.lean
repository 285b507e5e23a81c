import SelfTypes.Term.Basic

/-!
# Scopes

Opening and closing the body of a binder. Both walk a term, keep count of the binders passed on
the way, and replace leaves:

* `Term.instantiate args body` puts terms in the place of the outermost indices of `body`;
* `Term.abstractOver ids body` puts indices in the place of free variables.

The values of a scope are listed outermost first, so the last of them has index 0.
-/

namespace SelfTypes.Term

/-! ## Replacing leaves -/

/-- Rebuilds a term that stands below `depth` binders from what the two functions make of its
indices and of its free variables; both are told the number of binders above the leaf. -/
def mapLeaves (onBound : Nat → Nat → Term) (onVar : Nat → Var → Term) : Nat → Term → Term
  | depth, bound i => onBound depth i
  | depth, var x => onVar depth x
  | _, ref n => ref n
  | _, typ => typ
  | depth, all s n a b =>
    all s n (mapLeaves onBound onVar depth a) (mapLeaves onBound onVar (depth + 2) b)
  | depth, lam n er b => lam n er (mapLeaves onBound onVar (depth + 1) b)
  | depth, app f a er => app (mapLeaves onBound onVar depth f) (mapLeaves onBound onVar depth a) er
  | depth, letIn n d e b =>
    letIn n d (mapLeaves onBound onVar depth e) (mapLeaves onBound onVar (depth + 1) b)
  | depth, ann d e t => ann d (mapLeaves onBound onVar depth e) (mapLeaves onBound onVar depth t)
  | depth, loc s e => loc s (mapLeaves onBound onVar depth e)

/-! ## Opening a scope -/

/-- What an index below `depth` inner binders becomes when a scope is opened with the given
values, listed innermost first: inner indices stay, those of the scope give way to its values,
and those beyond it lose the binders that are gone. -/
def openIndex (values : List Term) (depth i : Nat) : Term :=
  if i < depth then bound i
  else match values[i - depth]? with
    | some t => t
    | none => bound (i - values.length)

/-- Opens a scope with as many binders as there are arguments, outermost binder first. Arguments
are not adjusted to the binders they are put under, so they must be locally closed. -/
def instantiate (args : List Term) (body : Term) : Term :=
  mapLeaves (openIndex args.reverse) (fun _ x => var x) 0 body

/-! ## Closing a scope -/

/-- What a free variable below `depth` inner binders becomes when a scope over `ids`, outermost
binder first, is closed. -/
def closeVar (ids : List VarId) (depth : Nat) (x : Var) : Term :=
  match ids.idxOf? x.id with
  | some pos => bound (depth + ids.length - 1 - pos)
  | none => var x

/-- What an index below `depth` inner binders becomes when a scope of `arity` binders is put
around the term: one that points out of the term passes the new binders too. -/
def closeIndex (arity depth i : Nat) : Term :=
  if i < depth then bound i else bound (i + arity)

/-- The body of a new scope that binds the variables `ids`, outermost binder first. -/
def abstractOver (ids : List VarId) (body : Term) : Term :=
  mapLeaves (closeIndex ids.length) (closeVar ids) 0 body

end SelfTypes.Term
