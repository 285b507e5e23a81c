import SelfTypes.Context
import SelfTypes.Code.Basic
import SelfTypes.Elaboration.Failure
import SelfTypes.Kernel.Classification
import SelfTypes.Term.Literal

/-!
# Elaboration

The elaborator finds the types of terms and checks terms against types, and gives the code of
what it accepts. It works in two modes: `Elaborator.infer` finds the type of a term, as far as
the term shows one; `Elaborator.check` pushes an expected type inwards. Terms under a binder are
elaborated with a stand-in for the bound variable: the variable, or the defined term, annotated
with its type.

Erasure is decided by the flags of functions and applications alone, and types leave nothing
behind. Where a value of a primitive type is applied, or built from a function, the code marks it.
-/

namespace SelfTypes

/-! ## State and actions -/

/-- The state of the elaborator: that of the kernel and the open tasks, the innermost first. -/
structure Elaborator where
  kernel : Kernel
  stack : List Task := []
  deriving DecidableEq, Inhabited

/-- Computations of the elaborator; the state outlives a failure. -/
abbrev ElaboratorM := EStateM (Halt Failure) Elaborator

/-- What the elaborator works with: the definitions, and whether the type that a term is found to
have is compared with the one it should have. -/
structure Environment where
  table : Table
  subsumption : Bool := true
  deriving Inhabited

/-- The code of a term and its type. -/
structure Elaborated where
  code : Code
  ty : Term
  deriving DecidableEq, Inhabited

namespace Elaborator

/-- The state before any work: variables come from `supply`, and `fuel` limits the reduction
steps. -/
def start (supply : Supply) (fuel : Option Nat) : Elaborator :=
  { kernel := .start supply fuel }

/-- Fails with the tasks that are open. -/
def raise {α : Type} (cause : Cause) : ElaboratorM α := fun e =>
  .error (.failed ⟨cause, e.stack⟩) e

/-- Stops where calls would go too deep. -/
def giveUp {α : Type} : ElaboratorM α := fun e =>
  .error .unfinished e

/-- A computation of the kernel, whose failure is one of the open tasks. -/
def lift {α : Type} (act : KernelM α) : ElaboratorM α := fun e =>
  match act e.kernel with
  | .ok a kernel => .ok a { e with kernel }
  | .error (.failed f) kernel => .error (.failed ⟨.outOfFuel f.limit, e.stack⟩) { e with kernel }
  | .error .unfinished kernel => .error .unfinished { e with kernel }

/-- A computation with one more task open. The task is closed however the computation ends. -/
def within {α : Type} (task : Task) (act : ElaboratorM α) : ElaboratorM α := fun e =>
  match act { e with stack := task :: e.stack } with
  | .ok a e' => .ok a { e' with stack := e.stack }
  | .error h e' => .error h { e' with stack := e.stack }

/-- Records an event. -/
def note (e : Event) : ElaboratorM Unit :=
  lift (Kernel.note e)

/-- The weak head normal form of a term. -/
def reduce (env : Environment) (depth : Nat) (t : Term) : ElaboratorM Term :=
  lift (Kernel.reduce env.table depth t)

/-- Decides equality of two terms. -/
def equal (env : Environment) (depth : Nat) (a b : Term) : ElaboratorM Bool :=
  lift (Kernel.equal env.table depth a b)

/-- The primitive that a type is equal to. -/
def classify (env : Environment) (depth : Nat) (ty : Term) : ElaboratorM (Option Primitive) :=
  lift (Kernel.classify env.table depth ty)

/-- A variable that was not issued before, displayed under the given name. -/
def fresh (name : BinderName) : ElaboratorM Var :=
  lift (Kernel.fresh name)

/-! ## Rules -/

/-- The literal that a term writes, with its type. -/
def literal? (t : Term) : Option Elaborated :=
  match t.decodeChar? with
  | some c => some ⟨.chr c, .ref "Char"⟩
  | none =>
    match t.decodeString? with
    | some s => some ⟨.str s, .ref "String"⟩
    | none => none

/-- A literal is a character or a string that the term writes. -/
theorem exists_of_literal? {t : Term} {r : Elaborated} (h : literal? t = some r) :
    (∃ c, t.decodeChar? = some c ∧ r = ⟨.chr c, .ref "Char"⟩) ∨
      ∃ s, t.decodeString? = some s ∧ r = ⟨.str s, .ref "String"⟩ := by
  unfold literal? at h
  split at h
  · rename_i c hc
    exact .inl ⟨c, hc, (Option.some.inj h).symm⟩
  · split at h
    · rename_i s hs
      exact .inr ⟨s, hs, (Option.some.inj h).symm⟩
    · cases h

/-- Elaborates a local definition, given how its value is inferred and how its body is
elaborated. A value that may be duplicated stays a binding; any other is put in the place of its
variable. -/
def elaborateLet (ctx : Context) (name : BinderName) (dup : Bool) (expr body : Term)
    (inferValue : ElaboratorM Elaborated)
    (elaborateBody : Context → Term → ElaboratorM Elaborated) : ElaboratorM Elaborated := do
  let value ← inferValue
  let x ← fresh name
  let standIn := .ann true (if dup then .var x else expr) value.ty
  let result ← elaborateBody (ctx.extend x value.ty) (body.instantiate [standIn])
  return ⟨if dup then .letIn name value.code result.code else result.code, result.ty⟩

mutual

/-- Finds the type of a term. -/
def infer (env : Environment) : (depth : Nat) → Context → Term → ElaboratorM Elaborated
  | 0, _, _ => giveUp
  | depth + 1, ctx, t => within (.term t .synthesis) do
    note (.inference t)
    match t with
    | .bound i => raise (.danglingIndex i)
    | .var x =>
      match ctx.find? x.id with
      | some ty => return ⟨.var x.name, ty⟩
      | none => raise (.unboundVariable x)
    | .ref name =>
      match env.table.find? name with
      | some d => return ⟨.ref name, d.ty⟩
      | none => raise (.undefinedReference name)
    -- types leave nothing behind
    | .typ | .all .. => return ⟨.nul, .typ⟩
    | .lam .. => raise (.uninferableFunction t)
    | .app f a er => do
      let func ← infer env depth ctx f
      let funcTy ← reduce env depth func.ty
      match funcTy with
      | .all _ _ bind body => do
        let arg ← check env depth ctx a bind
        -- a value of a primitive type is opened up before it is applied
        let prim ← classify env depth funcTy
        let callee := match prim with
          | some p => .elim p func.code
          | none => func.code
        return ⟨if er then callee else .app callee arg.code,
          body.instantiate [.ann true f funcTy, .ann true a bind]⟩
      | _ => raise (.notAFunction t funcTy)
    | .letIn name dup e b => elaborateLet ctx name dup e b (infer env depth ctx e) (infer env depth)
    | .ann _ e ty => check env depth ctx e ty
    | .loc _ e => infer env depth ctx e

/-- Checks a term against a type. -/
def check (env : Environment) : (depth : Nat) → Context → Term → Term → ElaboratorM Elaborated
  | 0, _, _, _ => giveUp
  | depth + 1, ctx, t, ty => within (.term t (.analysis ty)) do
    note (.checking t)
    -- a literal has the type of literals, whatever it is checked against
    match literal? t with
    | some result => return result
    | none => do
      let tyHead ← reduce env depth ty
      -- what stands in the place of a type is not looked at
      if tyHead = .typ then
        return ⟨.nul, .typ⟩
      else
        match t with
        | .lam name er body =>
          match tyHead with
          | .all _ _ bind tyBody => do
            let x ← fresh name
            let arg := .ann true (.var x) bind
            -- the outer binder of the self type stands for the function itself
            let bodyTy := tyBody.instantiate [.ann true t ty, arg]
            let result ← check env depth (ctx.extend x bind) (body.instantiate [arg]) bodyTy
            let func := if er then result.code else .lam name result.code
            match ← classify env depth ty with
            | some p => return ⟨.inst p func, ty⟩
            | none => return ⟨func, ty⟩
          | _ => raise (.notAFunctionType t tyHead)
        | .letIn name dup e b =>
          elaborateLet ctx name dup e b (infer env depth ctx e)
            (fun ctx b => check env depth ctx b ty)
        | .loc _ e => check env depth ctx e ty
        | _ => do
          -- a term without a rule of its own shows its type
          let result ← infer env depth ctx t
          if env.subsumption then
            if ← equal env depth result.ty ty then
              return ⟨result.code, ty⟩
            else
              raise (.mismatch ty result.ty)
          else
            return ⟨result.code, ty⟩

end

/-- Checks a definition against its declared type, both without locations. -/
def definition (env : Environment) (depth : Nat) (name : DefName) : ElaboratorM Code :=
  within (.definition name) do
    match env.table.find? name with
    | none => raise (.undefinedReference name)
    | some d => do
      note (.definition name)
      let result ← check env depth .empty d.body.unlocate d.ty.unlocate
      return result.code

end Elaborator

end SelfTypes
