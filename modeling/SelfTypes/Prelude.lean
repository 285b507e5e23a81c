import SelfTypes.Table

/-!
# A prelude of self-typed encodings

Truth values and the unit type, each defined as the type of its own eliminator, and the identity
function. Bodies are written with indices; the comments show them with names.
-/

namespace SelfTypes.Prelude

/-- Functions from `dom` to `cod`, where `cod` does not depend on the argument. -/
def arrow (dom cod : Term) : Term :=
  .pi "x" dom cod

/-- `%self(P: (x: Bool) -> Type) -> (t: P(true)) -> (f: P(false)) -> P(self)` -/
def boolTy : Term :=
  .all "self" "P" (arrow (.ref "Bool") .typ)
    (.pi "t" (.app (.bound 0) (.ref "true") false)
      (.pi "f" (.app (.bound 2) (.ref "false") false)
        (.app (.bound 4) (.bound 5) false)))

/-- `<P> => (t) => (f) => t` -/
def trueTm : Term :=
  .lam "P" true (.lam "t" false (.lam "f" false (.bound 1)))

/-- `<P> => (t) => (f) => f` -/
def falseTm : Term :=
  .lam "P" true (.lam "t" false (.lam "f" false (.bound 0)))

/-- `(b) => b<(x) => Bool>(false)(true)` -/
def notTm : Term :=
  .lam "b" false
    (.apps (.bound 0)
      [(.lam "x" false (.ref "Bool"), true), (.ref "false", false), (.ref "true", false)])

/-- `%self(P: (x: Unit) -> Type) -> (u: P(unit)) -> P(self)` -/
def unitTy : Term :=
  .all "self" "P" (arrow (.ref "Unit") .typ)
    (.pi "u" (.app (.bound 0) (.ref "unit") false)
      (.app (.bound 2) (.bound 3) false))

/-- `<P> => (u) => u` -/
def unitTm : Term :=
  .lam "P" true (.lam "u" false (.bound 0))

/-- `(A: Type) -> (x: A) -> A` -/
def idTy : Term :=
  .pi "A" .typ (.pi "x" (.bound 0) (.bound 2))

/-- `<A> => (x) => x` -/
def idTm : Term :=
  .lam "A" true (.lam "x" false (.bound 0))

/-- The definitions of the prelude. -/
def table : Table :=
  .ofList
    [⟨"Bool", .typ, boolTy⟩,
     ⟨"true", .ref "Bool", trueTm⟩,
     ⟨"false", .ref "Bool", falseTm⟩,
     ⟨"not", arrow (.ref "Bool") (.ref "Bool"), notTm⟩,
     ⟨"Unit", .typ, unitTy⟩,
     ⟨"unit", .ref "Unit", unitTm⟩,
     ⟨"id", idTy, idTm⟩]

end SelfTypes.Prelude
