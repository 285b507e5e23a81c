import SelfTypes.Term.Basic

/-!
# Typing contexts

The free variables of a term with their types, the latest first. A later variable hides an
earlier one of the same identity.
-/

namespace SelfTypes

/-- Free variables and their types, the latest first. -/
structure Context where
  bindings : List (Var × Term) := []
  deriving DecidableEq, Inhabited

namespace Context

/-- The context without variables. -/
def empty : Context := {}

/-- The context with one more variable. -/
def extend (ctx : Context) (x : Var) (ty : Term) : Context :=
  ⟨(x, ty) :: ctx.bindings⟩

/-- The number of bindings. -/
def size (ctx : Context) : Nat :=
  ctx.bindings.length

/-- The type of the latest variable of that identity. -/
def find? (ctx : Context) (id : VarId) : Option Term :=
  (ctx.bindings.find? (·.1.id == id)).map Prod.snd

@[simp] theorem size_extend (ctx : Context) (x : Var) (ty : Term) :
    (ctx.extend x ty).size = ctx.size + 1 := rfl

@[simp] theorem find?_empty (id : VarId) : empty.find? id = none := rfl

theorem find?_extend (ctx : Context) (x : Var) (ty : Term) (id : VarId) :
    (ctx.extend x ty).find? id = if x.id = id then some ty else ctx.find? id := by
  by_cases h : x.id = id <;> simp [find?, extend, h]

end Context

end SelfTypes
