import SelfTypes.Identifier
import SelfTypes.Primitive

/-!
# Code

What is left of a typed term at run time: untyped terms with named binders, in which types,
erased parameters and proofs are `null` or gone, and native values are marked where they meet
functions.
-/

namespace SelfTypes

/-- A term at run time. -/
inductive Code where
  /-- A local variable, bound by the nearest binder of that name. -/
  | var (name : BinderName)
  /-- A global definition. -/
  | ref (name : DefName)
  /-- Anything without content at run time. -/
  | nul
  /-- A function. -/
  | lam (name : BinderName) (body : Code)
  /-- An application. -/
  | app (func arg : Code)
  /-- A value computed once and shared by the body. -/
  | letIn (name : BinderName) (expr body : Code)
  /-- A native value that is about to be applied as a function. -/
  | elim (prim : Primitive) (value : Code)
  /-- A function that is turned into a native value. -/
  | inst (prim : Primitive) (func : Code)
  /-- A character. -/
  | chr (c : Char)
  /-- A string. -/
  | str (s : String)
  deriving DecidableEq, Inhabited

namespace Code

/-- The number of nodes with the given property. -/
def count (p : Code → Bool) : Code → Nat
  | var n => (p (var n)).toNat
  | ref n => (p (ref n)).toNat
  | nul => (p nul).toNat
  | lam n b => (p (lam n b)).toNat + b.count p
  | app f a => (p (app f a)).toNat + (f.count p + a.count p)
  | letIn n e b => (p (letIn n e b)).toNat + (e.count p + b.count p)
  | elim q v => (p (elim q v)).toNat + v.count p
  | inst q f => (p (inst q f)).toNat + f.count p
  | chr c => (p (chr c)).toNat
  | str s => (p (str s)).toNat

end Code

end SelfTypes
