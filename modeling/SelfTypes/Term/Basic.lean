import SelfTypes.Identifier

/-!
# Terms

The typed terms of the calculus. Bound variables are indices that count binders outwards from
their occurrence, free variables carry identifiers. A self type `%s(x: A) -> B` binds two values
in `B`: the value the type is ascribed to, at index 1, and the argument, at index 0. The other
binders bind one value.
-/

namespace SelfTypes

/-- A range of offsets in some text. -/
structure Span where
  start : Nat
  stop : Nat
  deriving DecidableEq, Inhabited

namespace Span

/-- A span is displayed as its two ends. -/
def text (s : Span) : String :=
  s!"{s.start}..{s.stop}"

/-- The diagnostic spelling of a span. -/
def bracketed (s : Span) : String :=
  s!"<{s.text}>"

end Span

/-- Terms and types, which are one class. -/
inductive Term where
  /-- An index: a reference to an enclosing binder. -/
  | bound (index : Nat)
  /-- A free variable. -/
  | var (x : Var)
  /-- A global definition, by name. -/
  | ref (name : DefName)
  /-- The universe. -/
  | typ
  /-- The self type `%selfName(name: bind) -> body`; `body` is under two binders. -/
  | all (selfName name : BinderName) (bind body : Term)
  /-- A function, whose parameter may be erased; `body` is under one binder. -/
  | lam (name : BinderName) (erased : Bool) (body : Term)
  /-- An application, which may pass its argument as an erased one. -/
  | app (func arg : Term) (erased : Bool)
  /-- A local definition, kept as a binding when it may be duplicated; `body` is under one
  binder. -/
  | letIn (name : BinderName) (dup : Bool) (expr body : Term)
  /-- A term with its type; `done` marks a pair that has been checked already. -/
  | ann (done : Bool) (expr ty : Term)
  /-- A term with the place it was read from. -/
  | loc (span : Span) (expr : Term)
  deriving DecidableEq, Inhabited

namespace Term

/-- A function applied to arguments in turn, each with its erasure flag. -/
def apps (func : Term) (args : List (Term × Bool)) : Term :=
  args.foldl (fun f a => .app f a.1 a.2) func

/-- A self type whose body has no name for the value it is ascribed to. The body is still under
two binders. -/
def pi (name : BinderName) (bind body : Term) : Term :=
  .all "_" name bind body

end Term

end SelfTypes
