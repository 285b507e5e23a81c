import SelfTypes.Proofs.Depth

/-!
# Traces are carried along

What happened before a computation has no influence on it: with older events in its trace, the
kernel or the elaborator does what it does without them, and the older events stay where they are.
-/

namespace SelfTypes

/-! ## The kernel -/

namespace Kernel

/-- The kernel with older events in its trace. -/
def withOlder (older : Trace) (k : Kernel) : Kernel :=
  { k with trace := k.trace ++ older }

theorem carries_burn (older : Trace) : Carries (withOlder older) burn burn := by
  intro k
  have hfuel : (withOlder older k).fuel = k.fuel := rfl
  unfold burn
  rw [hfuel]
  cases k.fuel.burn <;> rfl

theorem isCongruence_carries (older : Trace) : IsCongruence fun _ => Carries (withOlder older) where
  pure _ _ := rfl
  bind := .bind
  giveUp _ := rfl
  note _ _ := rfl
  burn := carries_burn older
  fresh _ _ := rfl

end Kernel

/-! ## The elaborator -/

namespace Elaborator

/-- The elaborator with older events in its trace. -/
def withOlder (older : Trace) (e : Elaborator) : Elaborator :=
  { e with kernel := e.kernel.withOlder older }

theorem carries_within (older : Trace) (task : Task) {α : Type} {x y : ElaboratorM α}
    (hxy : Carries (withOlder older) x y) :
    Carries (withOlder older) (within task x) (within task y) := by
  intro e
  -- the stack and the trace are separate parts of the state, so pushing and prepending commute
  have h := hxy { e with stack := task :: e.stack }
  rw [within_apply, within_apply, EStateM.Result.mapState_mapState]
  refine (congrArg _ h).trans ?_
  rw [EStateM.Result.mapState_mapState]
  rfl

theorem carries_lift (older : Trace) {α : Type} {x y : KernelM α}
    (hxy : Carries (Kernel.withOlder older) x y) : Carries (withOlder older) (lift x) (lift y) := by
  intro e
  rw [lift_apply, lift_apply]
  refine (congrArg _ (hxy e.kernel)).trans ?_
  cases x e.kernel with
  | ok a k => rfl
  | error halt k => cases halt <;> rfl

theorem isCongruence_carries (older : Trace) :
    IsCongruence (fun _ => Carries (Kernel.withOlder older))
      fun _ => Carries (withOlder older) where
  kernel := Kernel.isCongruence_carries older
  pure _ _ := rfl
  bind := .bind
  giveUp _ := rfl
  raise _ _ := rfl
  within task _ _ h := carries_within older task h
  lift h := carries_lift older h

theorem carries_definition (older : Trace) (env : Environment) (d : Nat) (name : DefName) :
    Carries (withOlder older) (definition env d name) (definition env d name) :=
  (isCongruence_carries older).definition env (.refl d) name

end Elaborator

end SelfTypes
