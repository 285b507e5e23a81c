import SelfTypes.Proofs.Elaboration.Congruence

/-!
# Depth

The bound on the depth of calls shows in the ending `unfinished` and nowhere else: an answer found
within one bound is the answer within every larger one. So it makes sense to say that a call
returns something, or that it terminates, without a bound.
-/

namespace SelfTypes

/-! ## The kernel -/

namespace Kernel

theorem refines_giveUp {α : Type} (x : KernelM α) : Refines Kernel.giveUp x := by
  intro k h
  exact absurd rfl (h k)

theorem isCongruence_refines : IsCongruence fun _ => Refines where
  pure _ := .refl _
  bind := .bind
  giveUp := .refl _
  note _ := .refl _
  burn := .refl _
  fresh _ := .refl _

theorem compatible_of_le {d d' : Nat} (h : d ≤ d') :
    Compatible (@Kernel.giveUp) (fun _ => Refines) d d' :=
  .inr ⟨h, fun _ => refines_giveUp⟩

theorem deepens_reduce (table : Table) (t : Term) : Deepens fun d => reduce table d t :=
  fun _ _ h => isCongruence_refines.reduce table (compatible_of_le h) t

theorem deepens_equalUnder (table : Table) (assumed : List (Term × Term)) (a b : Term) :
    Deepens fun d => equalUnder table d assumed a b :=
  fun _ _ h => isCongruence_refines.equalUnder table (compatible_of_le h) assumed a b

theorem deepens_equal (table : Table) (a b : Term) : Deepens fun d => equal table d a b :=
  deepens_equalUnder table [] a b

theorem deepens_classify (table : Table) (ty : Term) : Deepens fun d => classify table d ty :=
  fun _ _ h => isCongruence_refines.classify table (compatible_of_le h) ty

end Kernel

/-! ## The elaborator -/

namespace Elaborator

theorem refines_giveUp {α : Type} (x : ElaboratorM α) : Refines Elaborator.giveUp x := by
  intro e h
  exact absurd rfl (h e)

theorem refines_within {α : Type} (task : Task) {x y : ElaboratorM α} (hxy : Refines x y) :
    Refines (within task x) (within task y) := by
  intro e h
  rw [within_apply] at h ⊢
  rw [within_apply, hxy _ h.of_mapState]

theorem refines_lift {α : Type} {x y : KernelM α} (hxy : Refines x y) :
    Refines (lift x) (lift y) := by
  intro e h
  rw [lift_apply] at h ⊢
  rw [lift_apply, hxy _ (isAnswer_of_liftEnding h)]

theorem isCongruence_refines : IsCongruence (fun _ => Refines) fun _ => Refines where
  kernel := Kernel.isCongruence_refines
  pure _ := .refl _
  bind := .bind
  giveUp := .refl _
  raise _ := .refl _
  within task := refines_within task
  lift := refines_lift

theorem aligned_of_le {d d' : Nat} (h : d ≤ d') :
    Aligned (fun _ => Refines) (fun _ => Refines) d d' :=
  ⟨Kernel.compatible_of_le h, .inr ⟨h, fun _ => refines_giveUp⟩⟩

theorem deepens_reduce (env : Environment) (t : Term) : Deepens fun d => reduce env d t :=
  fun _ _ h => isCongruence_refines.reduce env (aligned_of_le h) t

theorem deepens_equal (env : Environment) (a b : Term) : Deepens fun d => equal env d a b :=
  fun _ _ h => isCongruence_refines.equal env (aligned_of_le h) a b

theorem deepens_classify (env : Environment) (ty : Term) : Deepens fun d => classify env d ty :=
  fun _ _ h => isCongruence_refines.classify env (aligned_of_le h) ty

theorem deepens_infer (env : Environment) (ctx : Context) (t : Term) :
    Deepens fun d => infer env d ctx t :=
  fun _ _ h => isCongruence_refines.infer env (aligned_of_le h) ctx t

theorem deepens_check (env : Environment) (ctx : Context) (t ty : Term) :
    Deepens fun d => check env d ctx t ty :=
  fun _ _ h => isCongruence_refines.check env (aligned_of_le h) ctx t ty

theorem deepens_definition (env : Environment) (name : DefName) :
    Deepens fun d => definition env d name :=
  fun _ _ h => isCongruence_refines.definition env (aligned_of_le h) name

end Elaborator

end SelfTypes
