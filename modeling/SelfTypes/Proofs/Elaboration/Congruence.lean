import SelfTypes.Elaboration.Basic
import SelfTypes.Proofs.Kernel.Congruence

/-!
# Relations that the elaborator respects

The elaborator is put together from sequencing, failures, tasks and lifted actions of the kernel. A
pair of relations, one for the kernel and one for the elaborator, that these respect
(`Elaborator.IsCongruence`) is respected by `infer`, `check` and `definition`.
-/

namespace SelfTypes.Elaborator

/-! ## Endings of actions -/

theorem within_apply {α : Type} (task : Task) (x : ElaboratorM α) (e : Elaborator) :
    within task x e =
      (x { e with stack := task :: e.stack }).mapState fun e' => { e' with stack := e.stack } := by
  simp only [within]
  cases x { e with stack := task :: e.stack } <;> rfl

/-- What fails with an open task fails for what was done below it. -/
theorem error_of_within {α : Type} {task : Task} {x : ElaboratorM α} {e e' : Elaborator}
    {halt : Halt Failure} (h : within task x e = .error halt e') :
    ∃ e₁, x { e with stack := task :: e.stack } = .error halt e₁ := by
  rw [within_apply] at h
  cases hx : x { e with stack := task :: e.stack } with
  | ok a e₁ =>
    rw [hx] at h
    cases h
  | error halt' e₁ =>
    rw [hx] at h
    cases h
    exact ⟨e₁, rfl⟩

/-- What an ending of the kernel is for an elaborator that stood at `e`. -/
def liftEnding {α : Type} (e : Elaborator) :
    EStateM.Result (Halt OutOfFuel) Kernel α → EStateM.Result (Halt Failure) Elaborator α
  | .ok a k => .ok a { e with kernel := k }
  | .error (.failed f) k => .error (.failed ⟨.outOfFuel f.limit, e.stack⟩) { e with kernel := k }
  | .error .unfinished k => .error .unfinished { e with kernel := k }

theorem lift_apply {α : Type} (x : KernelM α) (e : Elaborator) :
    lift x e = liftEnding e (x e.kernel) := by
  simp only [lift]
  cases x e.kernel with
  | ok a k => rfl
  | error halt k => cases halt <;> rfl

/-- A lifted action fails where the kernel does, and reports the budget with the open tasks. -/
theorem failed_of_lift {α : Type} {x : KernelM α} {e e' : Elaborator} {f : Failure}
    (h : lift x e = .error (.failed f) e') :
    ∃ err k, x e.kernel = .error (.failed err) k ∧ f = ⟨.outOfFuel err.limit, e.stack⟩ := by
  rw [lift_apply] at h
  cases hx : x e.kernel with
  | ok a k =>
    rw [hx] at h
    cases h
  | error halt k =>
    rw [hx] at h
    cases halt with
    | unfinished => cases h
    | failed err =>
      cases h
      exact ⟨err, k, rfl, rfl⟩

theorem state_liftEnding {α : Type} (e : Elaborator)
    (r : EStateM.Result (Halt OutOfFuel) Kernel α) :
    (liftEnding e r).state = { e with kernel := r.state } := by
  cases r with
  | ok a k => rfl
  | error halt k => cases halt <;> rfl

theorem isAnswer_of_liftEnding {α : Type} {e : Elaborator}
    {r : EStateM.Result (Halt OutOfFuel) Kernel α} (h : IsAnswer (liftEnding e r)) :
    IsAnswer r := by
  rintro k rfl
  exact h { e with kernel := k } rfl

/-! ## Congruences -/

/-- Relations between computations of the kernel and of the elaborator that all the actions of the
elaborator respect. -/
structure IsCongruence (krel : Relation KernelM) (rel : Relation ElaboratorM) : Prop where
  kernel : Kernel.IsCongruence krel
  pure : ∀ {α} (a : α), rel α (Pure.pure a) (Pure.pure a)
  bind : ∀ {α β} {x x' : ElaboratorM α} {f f' : α → ElaboratorM β},
    rel α x x' → (∀ a, rel β (f a) (f' a)) → rel β (x >>= f) (x' >>= f')
  giveUp : ∀ {α}, rel α Elaborator.giveUp Elaborator.giveUp
  raise : ∀ {α} cause, rel α (Elaborator.raise cause) (Elaborator.raise cause)
  within : ∀ {α} task {x x' : ElaboratorM α},
    rel α x x' → rel α (Elaborator.within task x) (Elaborator.within task x')
  lift : ∀ {α} {x x' : KernelM α},
    krel α x x' → rel α (Elaborator.lift x) (Elaborator.lift x')

/-- Bounds on depth that suit both relations. -/
def Aligned (krel : Relation KernelM) (rel : Relation ElaboratorM) (d d' : Nat) : Prop :=
  Compatible (@Kernel.giveUp) krel d d' ∧ Compatible (@Elaborator.giveUp) rel d d'

theorem Aligned.refl {krel : Relation KernelM} {rel : Relation ElaboratorM} (d : Nat) :
    Aligned krel rel d d :=
  ⟨.refl d, .refl d⟩

theorem Aligned.succ {krel : Relation KernelM} {rel : Relation ElaboratorM} {d d' : Nat}
    (h : Aligned krel rel (d + 1) d') : ∃ d'', d' = d'' + 1 ∧ Aligned krel rel d d'' := by
  obtain ⟨k, rfl, hk⟩ := h.1.succ
  obtain ⟨e, he, hr⟩ := h.2.succ
  cases he
  exact ⟨k, rfl, hk, hr⟩

namespace IsCongruence

variable {krel : Relation KernelM} {rel : Relation ElaboratorM} {d d' : Nat}

theorem note (C : IsCongruence krel rel) (e : Event) :
    rel Unit (Elaborator.note e) (Elaborator.note e) :=
  C.lift (C.kernel.note e)

theorem fresh (C : IsCongruence krel rel) (name : BinderName) :
    rel Var (Elaborator.fresh name) (Elaborator.fresh name) :=
  C.lift (C.kernel.fresh name)

theorem reduce (C : IsCongruence krel rel) (env : Environment) (h : Aligned krel rel d d')
    (t : Term) : rel Term (Elaborator.reduce env d t) (Elaborator.reduce env d' t) :=
  C.lift (C.kernel.reduce env.table h.1 t)

theorem equal (C : IsCongruence krel rel) (env : Environment) (h : Aligned krel rel d d')
    (a b : Term) : rel Bool (Elaborator.equal env d a b) (Elaborator.equal env d' a b) :=
  C.lift (C.kernel.equal env.table h.1 a b)

theorem classify (C : IsCongruence krel rel) (env : Environment) (h : Aligned krel rel d d')
    (ty : Term) : rel (Option Primitive) (Elaborator.classify env d ty)
      (Elaborator.classify env d' ty) :=
  C.lift (C.kernel.classify env.table h.1 ty)

theorem atZero (C : IsCongruence krel rel) (h : Aligned krel rel 0 d') {α : Type}
    {f : Nat → ElaboratorM α} (hf : f 0 = Elaborator.giveUp) :
    rel α Elaborator.giveUp (f d') := by
  rcases h.2.zero with rfl | hlax
  · rw [hf]
    exact C.giveUp
  · exact hlax α (f d')

theorem elaborateLet (C : IsCongruence krel rel) (ctx : Context) (name : BinderName)
    (dup : Bool) (expr body : Term) {value value' : ElaboratorM Elaborated}
    {onBody onBody' : Context → Term → ElaboratorM Elaborated}
    (hvalue : rel Elaborated value value')
    (hbody : ∀ ctx t, rel Elaborated (onBody ctx t) (onBody' ctx t)) :
    rel Elaborated (Elaborator.elaborateLet ctx name dup expr body value onBody)
      (Elaborator.elaborateLet ctx name dup expr body value' onBody') :=
  C.bind hvalue fun _ => C.bind (C.fresh name) fun _ =>
    C.bind (hbody _ _) fun _ => C.pure _

/-- One level of `infer`, from the levels below. -/
theorem infer_succ (C : IsCongruence krel rel) (env : Environment) (h : Aligned krel rel d d')
    (hinfer : ∀ ctx t, rel Elaborated (Elaborator.infer env d ctx t)
      (Elaborator.infer env d' ctx t))
    (hcheck : ∀ ctx t ty, rel Elaborated (Elaborator.check env d ctx t ty)
      (Elaborator.check env d' ctx t ty)) (ctx : Context) (t : Term) :
    rel Elaborated (Elaborator.infer env (d + 1) ctx t)
      (Elaborator.infer env (d' + 1) ctx t) := by
  simp only [Elaborator.infer]
  refine C.within _ (C.bind (C.note _) fun _ => ?_)
  -- each rule is put together from steps that the relation is closed under, in the order in which
  -- they are taken
  cases t with
  | bound i => exact C.raise _
  | typ => exact C.pure _
  | all => exact C.pure _
  | lam => exact C.raise _
  | var x =>
    simp only
    cases ctx.find? x.id with
    | some ty => exact C.pure _
    | none => exact C.raise _
  | ref name =>
    simp only
    cases env.table.find? name with
    | some d => exact C.pure _
    | none => exact C.raise _
  | app f a er =>
    refine C.bind (hinfer ctx f) fun func => C.bind (C.reduce env h func.ty) fun funcTy => ?_
    -- both runs go on with the same head, as the relation is about equal terms
    cases funcTy with
    | all =>
      exact C.bind (hcheck ctx a _) fun _ => C.bind (C.classify env h _) fun _ => C.pure _
    | _ => exact C.raise _
  | letIn name dup e b => exact C.elaborateLet ctx name dup e b (hinfer ctx e) hinfer
  | ann _ e ty => exact hcheck ctx e ty
  | loc _ e => exact hinfer ctx e

/-- One level of `check`, from the levels below. -/
theorem check_succ (C : IsCongruence krel rel) (env : Environment) (h : Aligned krel rel d d')
    (hinfer : ∀ ctx t, rel Elaborated (Elaborator.infer env d ctx t)
      (Elaborator.infer env d' ctx t))
    (hcheck : ∀ ctx t ty, rel Elaborated (Elaborator.check env d ctx t ty)
      (Elaborator.check env d' ctx t ty)) (ctx : Context) (t ty : Term) :
    rel Elaborated (Elaborator.check env (d + 1) ctx t ty)
      (Elaborator.check env (d' + 1) ctx t ty) := by
  -- a term without a rule of its own is inferred, and its type compared
  have infers : rel Elaborated
      (do
        let result ← Elaborator.infer env d ctx t
        if env.subsumption then
          if ← Elaborator.equal env d result.ty ty then return ⟨result.code, ty⟩
          else Elaborator.raise (.mismatch ty result.ty)
        else return ⟨result.code, ty⟩)
      (do
        let result ← Elaborator.infer env d' ctx t
        if env.subsumption then
          if ← Elaborator.equal env d' result.ty ty then return ⟨result.code, ty⟩
          else Elaborator.raise (.mismatch ty result.ty)
        else return ⟨result.code, ty⟩) := by
    refine C.bind (hinfer ctx t) fun result => ?_
    split
    · refine C.bind (C.equal env h _ _) fun same => ?_
      cases same with
      | true => exact C.pure _
      | false => exact C.raise _
    · exact C.pure _
  simp only [Elaborator.check]
  refine C.within _ (C.bind (C.note _) fun _ => ?_)
  cases Elaborator.literal? t with
  | some result => exact C.pure _
  | none =>
    -- after the literals, the head of the expected type decides
    refine C.bind (C.reduce env h ty) fun tyHead => ?_
    split
    · exact C.pure _
    · cases t with
      | lam name er body =>
        cases tyHead with
        | all =>
          refine C.bind (C.fresh name) fun x => C.bind (hcheck _ _ _) fun result =>
            C.bind (C.classify env h ty) fun prim => ?_
          cases prim with
          | some p => exact C.pure _
          | none => exact C.pure _
        | _ => exact C.raise _
      | letIn name dup e b =>
        exact C.elaborateLet ctx name dup e b (hinfer ctx e) fun ctx b => hcheck ctx b ty
      | loc _ e => exact hcheck ctx e ty
      | _ => exact infers

theorem infer_and_check (C : IsCongruence krel rel) (env : Environment) :
    Aligned krel rel d d' →
      (∀ ctx t, rel Elaborated (Elaborator.infer env d ctx t) (Elaborator.infer env d' ctx t)) ∧
      (∀ ctx t ty, rel Elaborated (Elaborator.check env d ctx t ty)
        (Elaborator.check env d' ctx t ty)) := by
  induction d generalizing d' with
  | zero =>
    -- the depths are related, so they are both zero or both one more than related depths
    intro h
    refine ⟨?_, ?_⟩
    · intro ctx t
      exact C.atZero h (f := fun d => Elaborator.infer env d ctx t) rfl
    · intro ctx t ty
      exact C.atZero h (f := fun d => Elaborator.check env d ctx t ty) rfl
  | succ d ih =>
    intro h
    obtain ⟨d', rfl, hd⟩ := h.succ
    obtain ⟨hinfer, hcheck⟩ := ih hd
    exact ⟨C.infer_succ env hd hinfer hcheck, C.check_succ env hd hinfer hcheck⟩

theorem infer (C : IsCongruence krel rel) (env : Environment) (h : Aligned krel rel d d')
    (ctx : Context) (t : Term) :
    rel Elaborated (Elaborator.infer env d ctx t) (Elaborator.infer env d' ctx t) :=
  (C.infer_and_check env h).1 ctx t

theorem check (C : IsCongruence krel rel) (env : Environment) (h : Aligned krel rel d d')
    (ctx : Context) (t ty : Term) :
    rel Elaborated (Elaborator.check env d ctx t ty) (Elaborator.check env d' ctx t ty) :=
  (C.infer_and_check env h).2 ctx t ty

theorem definition (C : IsCongruence krel rel) (env : Environment) (h : Aligned krel rel d d')
    (name : DefName) :
    rel Code (Elaborator.definition env d name) (Elaborator.definition env d' name) := by
  refine C.within _ ?_
  cases env.table.find? name with
  | none => exact C.raise _
  | some entry => exact C.bind (C.note _) fun _ => C.bind (C.check env h _ _ _) fun _ => C.pure _

end IsCongruence

end SelfTypes.Elaborator
