import SelfTypes.Term.Index

/-!
# Drafts

A draft is a term in the making, in which a binder may name its parameter and the body may refer
to the parameter by that name, or to one of the same name further out. `Draft.toTerm` works the
indices out: the parameter stands for a placeholder variable while the body is built, and the
finished body is closed over it. Binders and indices may also be written as they are; an index that
points out of the body of a named binder is thereby moved past that binder.
-/

namespace SelfTypes

/-- A term with named parameters. -/
inductive Draft where
  /-- A finished term. -/
  | done (t : Term)
  /-- The parameter of the innermost named binder of that name around it, once `skip` of these are
  passed over. -/
  | param (name : BinderName) (skip : Nat := 0)
  /-- A self type over a body that is already written with indices. -/
  | all (selfName name : BinderName) (bind body : Draft)
  /-- A function over a body that is already written with indices. -/
  | lam (name : BinderName) (erased : Bool) (body : Draft)
  /-- An application. -/
  | app (func arg : Draft) (erased : Bool)
  /-- A local definition over a body that is already written with indices. -/
  | letIn (name : BinderName) (dup : Bool) (expr body : Draft)
  /-- An ascription. -/
  | ann (done : Bool) (expr ty : Draft)
  /-- A located draft. -/
  | loc (span : Span) (expr : Draft)
  /-- A self type whose body refers to both parameters by name; the argument hides an equal
  self name. -/
  | allNamed (selfName name : BinderName) (bind body : Draft)
  /-- A self type whose body refers to the argument by name and to the self value not at all. -/
  | piNamed (name : BinderName) (bind body : Draft)
  /-- A function whose body refers to the parameter by name. -/
  | lamNamed (name : BinderName) (erased : Bool) (body : Draft)
  /-- A local definition whose body refers to the defined value by name. -/
  | letNamed (name : BinderName) (dup : Bool) (expr body : Draft)
  deriving Inhabited

/-- Why a draft has no term. -/
inductive DraftError where
  /-- It refers to a parameter by a name that no binder around the reference has. -/
  | unknownParameter
  /-- An index that points out of it would leave the range of indices. -/
  | indexOverflow
  deriving DecidableEq, Inhabited

namespace Draft

/-- The group of the placeholder variables, which no run issues variables in. -/
def placeholderGroup : Nat := Nat.pow 2 64 - 1

/-- A draft applied to arguments in turn, each with its erasure flag. -/
def apps (func : Draft) (args : List (Draft × Bool)) : Draft :=
  args.foldl (fun f a => .app f a.1 a.2) func

/-- The parameters a draft may refer to by name, innermost first. -/
abbrev Scope := List (BinderName × VarId)

/-- The parameter of the given name that is left after `skip` of that name are passed over. -/
def Scope.parameter? (scope : Scope) (name : BinderName) (skip : Nat) : Option VarId :=
  (scope.filter (·.1 = name))[skip]?.map Prod.snd

/-- Computations with a supply of placeholders, which may come to nothing. -/
abbrev BuildM := StateT Supply Option

/-- A placeholder that was not issued before. -/
def issue : BuildM VarId := fun supply =>
  some supply.issue

/-- The term of a draft. `scope` lists the parameters in reach, innermost first. There is no term if
a parameter is out of reach. -/
def build (scope : Scope) : Draft → BuildM Term
  | done t => return t
  | param name skip => do
    let id ← scope.parameter? name skip
    return .var ⟨id, name⟩
  | all s n a b => return .all s n (← build scope a) (← build scope b)
  | lam n er b => return .lam n er (← build scope b)
  | app f a er => return .app (← build scope f) (← build scope a) er
  | letIn n d e b => return .letIn n d (← build scope e) (← build scope b)
  | ann d e t => return .ann d (← build scope e) (← build scope t)
  | loc s e => return .loc s (← build scope e)
  | allNamed s n a b => do
    let bind ← build scope a
    let self ← issue
    let arg ← issue
    -- the argument is further in, and hides an equal self name
    let body ← build ((n, arg) :: (s, self) :: scope) b
    return .all s n bind (body.abstractOver [self, arg])
  | piNamed n a b => do
    let bind ← build scope a
    let self ← issue
    let arg ← issue
    let body ← build ((n, arg) :: scope) b
    return .pi n bind (body.abstractOver [self, arg])
  | lamNamed n er b => do
    let arg ← issue
    let body ← build ((n, arg) :: scope) b
    return .lam n er (body.abstractOver [arg])
  | letNamed n d e b => do
    let expr ← build scope e
    let arg ← issue
    let body ← build ((n, arg) :: scope) b
    return .letIn n d expr (body.abstractOver [arg])

/-- The term of a draft that stands on its own. Closing never makes an index smaller, so the
indices were in range at every step if they are in range at the end. -/
def toTerm (d : Draft) : Except DraftError Term :=
  match build [] d { group := placeholderGroup } with
  | none => .error .unknownParameter
  | some (t, _) => if t.isInRange then .ok t else .error .indexOverflow

end Draft

end SelfTypes
