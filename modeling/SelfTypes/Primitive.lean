/-!
# Primitive types

The built-in types whose values have a native form at run time. `Primitive.registry` lists them
in the order in which a type is compared with them.
-/

namespace SelfTypes

/-- A type with a native form at run time. -/
inductive Primitive where
  | unit
  | bool
  | nat
  | bits
  | u16
  | u32
  | u64
  | f64
  | string
  deriving DecidableEq, Inhabited

namespace Primitive

/-- All primitives, in the order in which they are tried. -/
def registry : List Primitive :=
  [unit, bool, nat, bits, u16, u32, u64, f64, string]

/-- The name of the definition a primitive is recognised by. -/
def name : Primitive → String
  | unit => "Unit"
  | bool => "Bool"
  | nat => "Nat"
  | bits => "Bits"
  | u16 => "U16"
  | u32 => "U32"
  | u64 => "U64"
  | f64 => "F64"
  | string => "String"

/-- The word for a primitive in the names of its native operations. -/
def keyword : Primitive → String
  | unit => "unit"
  | bool => "bool"
  | nat => "nat"
  | bits => "bits"
  | u16 => "u16"
  | u32 => "u32"
  | u64 => "u64"
  | f64 => "f64"
  | string => "string"

theorem mem_registry (p : Primitive) : p ∈ registry := by
  cases p <;> decide

end Primitive

end SelfTypes
