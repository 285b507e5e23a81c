import SelfTypes.Proofs.Elaboration.Lockstep
import SelfTypes.Proofs.Kernel.Location

/-!
# Elaboration up to locations and variables

Two runs of the elaborator are compared, in tables that differ in locations only, from any two
states. Neither follows the other step by step: they may issue other variables, and one of them may
use up its budget, or reach its bound on depth, where the other goes on. Otherwise they end alike,
with the same code or with failures about terms that correspond to each other (`Concordant`). Main
statement: `Elaborator.concordant_definition`.
-/

namespace SelfTypes

/-! ## Failures -/

section Related

variable {R R' : Term → Term → Prop}

theorem Task.Related.imp {task task' : Task} (h : task.Related R task')
    (hR : ∀ t t', R t t' → R' t t') : task.Related R' task' := by
  cases h with
  | definition name => exact .definition name
  | synthesis ht => exact .synthesis (hR _ _ ht)
  | analysis ht hty => exact .analysis (hR _ _ ht) (hR _ _ hty)

/-- The failures have the same cause and the same open tasks, about terms that `R` relates. -/
structure Failure.Related (R : Term → Term → Prop) (f f' : Failure) : Prop where
  cause : f.cause.Related R f'.cause
  stack : List.Forall₂ (Task.Related R) f.stack f'.stack

end Related

/-- The terms are the same, up to locations and to variables that were issued together. -/
abbrev Corresponds (P : List (VarId × VarId)) : Term → Term → Prop :=
  Term.Copy .upToLocations (Named P)

theorem forall₂_task_mono {P P' : List (VarId × VarId)} (hsub : P ⊆ P') {stack stack' : List Task}
    (h : List.Forall₂ (Task.Related (Corresponds P)) stack stack') :
    List.Forall₂ (Task.Related (Corresponds P')) stack stack' :=
  h.imp fun _ _ h => h.imp fun _ _ h => h.mono (Named.mono hsub)

namespace Elaborator

/-! ## Budgets that are used up -/

/-- Failures of the kernel report the limit of its budget. -/
def FailsAtLimit {α : Type} (x : KernelM α) : Prop :=
  ∀ k f s, x k = .error (.failed f) s → s.fuel.limit = some f.limit

theorem failsAtLimit_burn : FailsAtLimit Kernel.burn := by
  intro k f s h
  obtain ⟨limit, hlimit, -, hf, rfl⟩ := Kernel.burn_eq_error_iff.1 h
  cases hf
  exact hlimit

theorem isCongruence_failsAtLimit : Kernel.IsCongruence fun _ x _ => FailsAtLimit x where
  pure _ _ _ _ h := by cases h
  bind {α β x x' f f'} hx hf := by
    intro k e s h
    obtain h | ⟨a, k₁, -, h⟩ := EStateM.error_of_bind_error h
    · exact hx k e _ h
    · exact hf a k₁ e s h
  giveUp _ _ _ h := by cases h
  note _ _ _ _ h := by cases h
  burn := failsAtLimit_burn
  fresh _ _ _ _ h := by cases h

/-- A run halts for a reason that does not lie in the terms: calls went too deep, or the budget of
the kernel is used up. -/
inductive Interrupted (k : Kernel) : Halt Failure → Prop where
  | unfinished : Interrupted k .unfinished
  | outOfFuel {limit : Nat} {stack : List Task} :
      k.fuel.limit = some limit → Interrupted k (.failed ⟨.outOfFuel limit, stack⟩)

/-! ## Endings that agree -/

/-- The endings of two runs that start with the pairs `P`: both with values that `Q` relates, or
both with failures that correspond to each other, unless one of the runs was interrupted. -/
inductive Concordant {α : Type} (P : List (VarId × VarId)) (Q : VarRelation → α → α → Prop) :
    EStateM.Result (Halt Failure) Elaborator α → EStateM.Result (Halt Failure) Elaborator α →
    Prop where
  | ok {P' : List (VarId × VarId)} {a a' : α} {e e' : Elaborator} :
      P ⊆ P' → Kernel.Joined P' e.kernel e'.kernel →
      List.Forall₂ (Task.Related (Corresponds P')) e.stack e'.stack →
      Q (Named P') a a' → Concordant P Q (.ok a e) (.ok a' e')
  | failed {P' : List (VarId × VarId)} {f f' : Failure} {e e' : Elaborator} :
      OneToOne P' → f.Related (Corresponds P') f' →
      Concordant P Q (.error (.failed f) e) (.error (.failed f') e')
  | left {halt : Halt Failure} {e : Elaborator} {r' : EStateM.Result (Halt Failure) Elaborator α} :
      Interrupted e.kernel halt → Concordant P Q (.error halt e) r'
  | right {r : EStateM.Result (Halt Failure) Elaborator α} {halt' : Halt Failure}
      {e' : Elaborator} :
      Interrupted e'.kernel halt' → Concordant P Q r (.error halt' e')

/-- From states in which the variables issued so far are paired, and the open tasks correspond, the
computations come to endings that agree. -/
def Concurs (α : Type) (ρ : VarRelation) (Q : VarRelation → α → α → Prop)
    (x x' : ElaboratorM α) : Prop :=
  ∀ P e e', ρ = Named P → Kernel.Joined P e.kernel e'.kernel →
    List.Forall₂ (Task.Related (Corresponds P)) e.stack e'.stack → Concordant P Q (x e) (x' e')

namespace Concurs

variable {α β : Type} {ρ : VarRelation} {Q : VarRelation → α → α → Prop}
  {R : VarRelation → β → β → Prop} {x x' : ElaboratorM α}

theorem of_comparable {table table' : Table} (htable : table.Relocated table')
    (h : Comparable .upToLocations table table' ρ → Concurs α ρ Q x x') : Concurs α ρ Q x x' := by
  intro P e e' hρ hP hstack
  subst hρ
  exact h (htable.comparable hP.toOneToOne.faithful) P e e' rfl hP hstack

theorem pure {a a' : α} (h : Q ρ a a') :
    Concurs α ρ Q (Pure.pure a : ElaboratorM α) (Pure.pure a') := by
  intro P e e' hρ hP hstack
  subst hρ
  exact .ok (List.Subset.refl P) hP hstack h

theorem bind {f f' : α → ElaboratorM β} (hx : Concurs α ρ Q x x')
    (hf : ∀ ρ' a a', Subrelation ρ ρ' → Q ρ' a a' → Concurs β ρ' R (f a) (f' a')) :
    Concurs β ρ R (x >>= f) (x' >>= f') := by
  intro P e e' hρ hP hstack
  subst hρ
  have h := hx P e e' rfl hP hstack
  rw [EStateM.bind_apply, EStateM.bind_apply]
  -- the endings are taken as they are: what decides is how the first parts have ended
  generalize x e = r, x' e' = r' at h ⊢
  cases h with
  | @ok P' a a' s s' hsub hP' hstack' hQ =>
    -- the second parts start with the pairs that the first parts have left
    have h := hf (Named P') a a' (Named.mono hsub) hQ P' s s' rfl hP' hstack'
    change Concordant P R (f a s) (f' a' s')
    generalize f a s = q, f' a' s' = q' at h ⊢
    cases h with
    | ok hsub' hP'' hstack'' hR => exact .ok (fun _ hp => hsub' (hsub hp)) hP'' hstack'' hR
    | failed hP'' hf => exact .failed hP'' hf
    | left h => exact .left h
    | right h => exact .right h
  | failed hP' hf => exact .failed hP' hf
  | left h => exact .left h
  | right h => exact .right h

theorem raise {cause cause' : Cause} (h : ∀ P, ρ = Named P → cause.Related (Corresponds P) cause') :
    Concurs α ρ Q (Elaborator.raise cause) (Elaborator.raise cause') := by
  intro P e e' hρ hP hstack
  exact .failed hP.toOneToOne ⟨h P hρ, hstack⟩

theorem giveUp : Concurs α ρ Q Elaborator.giveUp Elaborator.giveUp :=
  fun _ _ _ _ _ _ => .left .unfinished

theorem within {task task' : Task} (htask : ∀ P, ρ = Named P → task.Related (Corresponds P) task')
    (hx : Concurs α ρ Q x x') : Concurs α ρ Q (within task x) (within task' x') := by
  intro P e e' hρ hP hstack
  have h := hx P { e with stack := task :: e.stack } { e' with stack := task' :: e'.stack } hρ hP
    (.cons (htask P hρ) hstack)
  rw [within_apply, within_apply]
  generalize x { e with stack := task :: e.stack } = r,
    x' { e' with stack := task' :: e'.stack } = r' at h ⊢
  -- a task that has come to an end leaves the stack, so only the tasks below are related
  cases h with
  | ok hsub hP' _ hQ => exact .ok hsub hP' (forall₂_task_mono hsub hstack) hQ
  | failed hP' hf => exact .failed hP' hf
  | left h => exact .left h
  | right h => exact .right h

/-- An action of the kernel that comes to no value interrupts what it is lifted to. -/
theorem left_of_error {x : KernelM α} (hx : FailsAtLimit x) {P : List (VarId × VarId)}
    {e : Elaborator} {k : Kernel} {halt : Halt OutOfFuel} (h : x e.kernel = .error halt k)
    (r' : EStateM.Result (Halt Failure) Elaborator α) :
    Concordant P Q (liftEnding e (.error halt k)) r' := by
  cases halt with
  | failed f => exact .left (.outOfFuel (hx _ _ _ h))
  | unfinished => exact .left .unfinished

theorem right_of_error {x : KernelM α} (hx : FailsAtLimit x) {P : List (VarId × VarId)}
    {e : Elaborator} {k : Kernel} {halt : Halt OutOfFuel} (h : x e.kernel = .error halt k)
    (r : EStateM.Result (Halt Failure) Elaborator α) :
    Concordant P Q r (liftEnding e (.error halt k)) := by
  cases halt with
  | failed f => exact .right (.outOfFuel (hx _ _ _ h))
  | unfinished => exact .right .unfinished

/-- Actions of the kernel whose values are related where both come to one. -/
theorem lift {x x' : KernelM α} (hx : FailsAtLimit x) (hx' : FailsAtLimit x')
    (h : ∀ P k k' a a' s s', ρ = Named P → Kernel.Joined P k k' → x k = .ok a s →
      x' k' = .ok a' s' →
      ∃ P', P ⊆ P' ∧ Kernel.Joined P' s s' ∧ Q (Named P') a a') :
    Concurs α ρ Q (lift x) (lift x') := by
  intro P e e' hρ hP hstack
  rw [lift_apply, lift_apply]
  cases hk : x e.kernel with
  | error halt k => exact left_of_error hx hk _
  -- the left side has an answer; only now the right side is looked at
  | ok a k =>
    cases hk' : x' e'.kernel with
    | error halt k' => exact right_of_error hx' hk' _
    | ok a' k' =>
      obtain ⟨P', hsub, hP', hQ⟩ := h P _ _ _ _ _ _ hρ hP hk hk'
      exact .ok hsub hP' (forall₂_task_mono hsub hstack) hQ

/-- Actions of the kernel whose values are related by the variables that were paired before. -/
theorem lift_unpaired {x x' : KernelM α} (hx : FailsAtLimit x) (hx' : FailsAtLimit x')
    (hprog : Progresses Kernel.Follows x) (hprog' : Progresses Kernel.Follows x')
    (h : ∀ P k k' a a' s s', ρ = Named P → Kernel.Joined P k k' → x k = .ok a s →
      x' k' = .ok a' s' → Q (Named P) a a') :
    Concurs α ρ Q (Elaborator.lift x) (Elaborator.lift x') := by
  refine .lift hx hx' fun P k k' a a' s s' hρ hP hk hk' => ⟨P, List.Subset.refl P, ?_, ?_⟩
  · exact hP.follows (hprog.of_ok hk) (hprog'.of_ok hk')
  · exact h P k k' a a' s s' hρ hP hk hk'

end Concurs

section Lockstep

variable {table table' : Table}

theorem isLockstep_concurs (htable : table.Relocated table') (hfree : table.IsVarFree)
    (hfree' : table'.IsVarFree) (subsumption : Bool) :
    IsLockstep .upToLocations ⟨table, subsumption⟩ ⟨table', subsumption⟩ Concurs where
  builtins := ⟨fun _ => trivial, trivial, trivial⟩
  comparable := .of_comparable htable
  pure := .pure
  bind := .bind
  giveUp := .giveUp
  raise hcause := .raise fun _ hρ => by subst hρ; exact hcause
  within htask hx := .within (fun _ hρ => by subst hρ; exact htask) hx
  -- events show the locations, so the traces differ, but an event issues no variable
  note _ := .lift_unpaired (isCongruence_failsAtLimit.note _) (isCongruence_failsAtLimit.note _)
    (Kernel.progresses_note _) (Kernel.progresses_note _) fun _ _ _ _ _ _ _ _ _ _ _ => trivial
  fresh name := by
    refine .lift (isCongruence_failsAtLimit.fresh _) (isCongruence_failsAtLimit.fresh _) ?_
    intro P k k' x x' s s' hρ hP h h'
    -- the two issued variables make a new pair, and no pair has either of them
    refine ⟨_, List.subset_cons_self _ _, hP.fresh h h', List.mem_cons_self, ?_⟩
    cases h
    cases h'
    rfl
  reduce depth ht := by
    refine .lift_unpaired (isCongruence_failsAtLimit.reduce _ (.refl depth) _)
      (isCongruence_failsAtLimit.reduce _ (.refl depth) _) (Kernel.progresses_reduce _ _ _)
      (Kernel.progresses_reduce _ _ _) ?_
    intro P k k' w w' s s' hρ hP h h'
    subst hρ
    exact Kernel.reduce_copy htable hP.toOneToOne ht h h'
  equal depth ha hb := by
    refine .lift_unpaired (isCongruence_failsAtLimit.equal _ (.refl depth) _ _)
      (isCongruence_failsAtLimit.equal _ (.refl depth) _ _) (Kernel.progresses_equal _ _ _ _)
      (Kernel.progresses_equal _ _ _ _) ?_
    intro P k k' r r' s s' hρ hP h h'
    subst hρ
    exact Kernel.equal_copy htable hfree hfree' hP ha hb h h'
  subsumption := .inl rfl

/-- In tables that differ in locations only, a definition ends alike from any two states without
open tasks, unless one of the runs is interrupted. -/
theorem concordant_definition (htable : table.Relocated table') (hfree : table.IsVarFree)
    (hfree' : table'.IsVarFree) (subsumption : Bool) (depth : Nat) (name : DefName)
    (e e' : Elaborator) (he : e.stack = []) (he' : e'.stack = []) :
    Concordant [] (fun _ c c' => c = c') (definition ⟨table, subsumption⟩ depth name e)
      (definition ⟨table', subsumption⟩ depth name e') := by
  refine (isLockstep_concurs htable hfree hfree' subsumption).definition depth trivial [] e e' rfl
    (.empty _ _) ?_
  rw [he, he']
  exact .nil

end Lockstep

end Elaborator

end SelfTypes
