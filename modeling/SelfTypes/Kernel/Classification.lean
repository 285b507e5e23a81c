import SelfTypes.Kernel.Conversion
import SelfTypes.Primitive

/-!
# Recognising primitive types

A type is primitive if it is equal to the global that a primitive is named after. Types may
unfold to the same type under several names; the first primitive of the registry is then taken.
-/

namespace SelfTypes.Kernel

/-- The first of the given primitives that the type is equal to. -/
def classifyAmong (table : Table) (depth : Nat) (ty : Term) :
    List Primitive → KernelM (Option Primitive)
  | [] => pure none
  | p :: ps => do
    if ← equal table depth (.ref p.name) ty then
      pure (some p)
    else
      classifyAmong table depth ty ps

/-- The primitive that a type is equal to. -/
def classify (table : Table) (depth : Nat) (ty : Term) : KernelM (Option Primitive) :=
  classifyAmong table depth ty Primitive.registry

end SelfTypes.Kernel
