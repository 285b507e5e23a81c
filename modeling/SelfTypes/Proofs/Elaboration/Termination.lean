import SelfTypes.Proofs.Kernel.Termination

/-!
# The elaborator terminates under a limit

The kernel terminates on whatever types it is asked about, so only the terms that are elaborated
have to become smaller. Their weight does: it counts local definitions as expanded, and a bound
variable as the stand-in that takes its place. Checking a term may come down to inferring the same
term, but never the other way round.
-/

namespace SelfTypes.Elaborator

/-! ## Computations that end -/

theorem isAnswer_liftEnding {α : Type} {r : EStateM.Result (Halt OutOfFuel) Kernel α}
    (h : IsAnswer r) (e : Elaborator) : IsAnswer (liftEnding e r) := by
  cases r with
  | ok a k => exact isAnswer_ok _ _
  | error halt k =>
    cases halt with
    | failed f => exact isAnswer_failed _ _
    | unfinished => exact absurd rfl (h k)

/-- A family of computations that terminates in every state with the limit, and leaves the limit as
it is. -/
structure Ends (limit : Nat) {α : Type} (run : Nat → ElaboratorM α) : Prop where
  progresses : ∀ d, Progresses Follows (run d)
  terminates : ∀ e : Elaborator, e.kernel.fuel.limit = some limit → Terminates run e

namespace Ends

variable {limit : Nat} {α β : Type}

theorem pure (a : α) : Ends limit fun _ => (Pure.pure a : ElaboratorM α) where
  progresses _ := .refl
  terminates e _ := terminates_pure a e

theorem raise (cause : Cause) : Ends limit fun _ => (Elaborator.raise cause : ElaboratorM α) where
  progresses _ := .refl
  terminates e _ := ⟨_, returns_const rfl (isAnswer_failed _ e)⟩

theorem bind {run : Nat → ElaboratorM α} {f : Nat → α → ElaboratorM β} (hrun : Ends limit run)
    (hf : ∀ a, Ends limit fun d => f d a) : Ends limit fun d => run d >>= f d where
  progresses d := .bind @Follows.trans (hrun.progresses d) fun a => (hf a).progresses d
  terminates e he := by
    apply (hrun.terminates e he).bind
    intro a e' ha
    have hfollows : Follows e e' := ha.progresses hrun.progresses
    exact (hf a).terminates e' (hfollows.limit.trans he)

theorem within (task : Task) {run : Nat → ElaboratorM α} (hrun : Ends limit run) :
    Ends limit fun d => Elaborator.within task (run d) where
  progresses d := progresses_within task (hrun.progresses d)
  terminates e he := by
    obtain ⟨r, hr, depth, hd⟩ := hrun.terminates { e with stack := task :: e.stack } he
    refine ⟨_, hr.mapState fun e' => { e' with stack := e.stack }, depth, fun d hle => ?_⟩
    exact (within_apply task (run d) e).trans (congrArg _ (hd d hle))

theorem lift {run : Nat → KernelM α} (hprog : ∀ d, Progresses Kernel.Follows (run d))
    (hrun : ∀ k : Kernel, k.fuel.limit = some limit → Terminates run k) :
    Ends limit fun d => Elaborator.lift (run d) where
  progresses d := progresses_lift (hprog d)
  terminates e he := by
    obtain ⟨r, hr, depth, hd⟩ := hrun e.kernel he
    refine ⟨liftEnding e r, isAnswer_liftEnding hr e, depth, fun d hle => ?_⟩
    exact (lift_apply (run d) e).trans (congrArg _ (hd d hle))

theorem note (event : Event) : Ends limit fun _ => Elaborator.note event :=
  lift (fun _ => Kernel.progresses_note event) fun k _ => Kernel.terminates_note event k

theorem fresh (name : BinderName) : Ends limit fun _ => Elaborator.fresh name :=
  lift (fun _ => Kernel.progresses_fresh name) fun k _ => Kernel.terminates_fresh name k

theorem reduce (env : Environment) (t : Term) : Ends limit fun d => Elaborator.reduce env d t :=
  lift (fun d => Kernel.progresses_reduce env.table d t) fun _ hk =>
    Kernel.terminates_reduce env.table (.of_limit hk) t

theorem equal (env : Environment) (a b : Term) :
    Ends limit fun d => Elaborator.equal env d a b :=
  lift (fun d => Kernel.progresses_equal env.table d a b) fun _ hk =>
    Kernel.terminates_equal env.table hk a b

theorem classify (env : Environment) (ty : Term) :
    Ends limit fun d => Elaborator.classify env d ty :=
  lift (fun d => Kernel.progresses_classify env.table d ty) fun _ hk =>
    Kernel.terminates_classify env.table hk ty

theorem elaborateLet {ctx : Context} {name : BinderName} {dup : Bool} {expr body : Term}
    {inferValue : Nat → ElaboratorM Elaborated}
    {onBody : Nat → Context → Term → ElaboratorM Elaborated} (hvalue : Ends limit inferValue)
    (hbody : ∀ ctx x ty, Ends limit fun d =>
      onBody d ctx (body.instantiate [.ann true (if dup then .var x else expr) ty])) :
    Ends limit fun d =>
      Elaborator.elaborateLet ctx name dup expr body (inferValue d) (onBody d) := by
  apply hvalue.bind
  intro value
  apply (Ends.fresh name).bind
  intro x
  exact (hbody _ x value.ty).bind fun _ => .pure _

end Ends

/-! ## Weights of stand-ins -/

/-- What takes the place of a variable that stays a binding. -/
theorem weight_variable (x : Var) (ty : Term) : (Term.ann true (.var x) ty).weight [] = 2 :=
  rfl

theorem weight_standIn (dup : Bool) (x : Var) (expr ty : Term) :
    (Term.ann true (if dup then .var x else expr) ty).weight [] =
      if dup then 2 else expr.weight [] + 1 := by
  cases dup <;> rfl

theorem contentClosed_standIn (dup : Bool) {expr : Term} (h : expr.ContentClosedAt 0) (x : Var)
    (ty : Term) : (Term.ann true (if dup then .var x else expr) ty).ContentClosedAt 0 := by
  cases dup with
  | false => exact h
  | true => trivial

/-! ## Rules -/

section Rules

variable (env : Environment) (limit : Nat)

/-- Inference ends on terms whose weight, counted twice, is below `n`. -/
def InfersBelow (n : Nat) : Prop :=
  ∀ ctx t, t.ContentClosedAt 0 → 2 * t.weight [] < n → Ends limit fun d => infer env d ctx t

/-- Checking ends on terms whose weight, counted twice and once more, is below `n`. -/
def ChecksBelow (n : Nat) : Prop :=
  ∀ ctx t ty, t.ContentClosedAt 0 → 2 * t.weight [] + 1 < n →
    Ends limit fun d => check env d ctx t ty

variable {env limit}

theorem InfersBelow.mono {m n : Nat} (h : InfersBelow env limit n) (hle : m ≤ n) :
    InfersBelow env limit m :=
  fun ctx t ht hlt => h ctx t ht (Nat.lt_of_lt_of_le hlt hle)

theorem ChecksBelow.mono {m n : Nat} (h : ChecksBelow env limit n) (hle : m ≤ n) :
    ChecksBelow env limit m :=
  fun ctx t ty ht hlt => h ctx t ty ht (Nat.lt_of_lt_of_le hlt hle)

/-- One level of `infer`, from what weighs less. -/
theorem ends_infer_succ {t : Term} (hinfer : InfersBelow env limit (2 * t.weight []))
    (hcheck : ChecksBelow env limit (2 * t.weight [])) (ctx : Context)
    (ht : t.ContentClosedAt 0) : Ends limit fun d => infer env (d + 1) ctx t := by
  simp only [infer]
  apply Ends.within
  apply (Ends.note _).bind
  intro _
  -- the rules without premises end at once
  cases t with
  | bound => exact .raise _
  | typ | all => exact .pure _
  | lam => exact .raise _
  | var x =>
    simp only
    cases ctx.find? x.id with
    | some ty => exact .pure _
    | none => exact .raise _
  | ref name =>
    simp only
    cases env.table.find? name with
    | some d => exact .pure _
    | none => exact .raise _
  | app f a er =>
    -- function and argument weigh less; types are left to the kernel
    have hf : 2 * f.weight [] < 2 * (Term.app f a er).weight [] := by
      simp only [Term.weight]
      omega
    have ha : 2 * a.weight [] + 1 < 2 * (Term.app f a er).weight [] := by
      simp only [Term.weight]
      omega
    apply (hinfer ctx f ht.1 hf).bind
    intro func
    apply (Ends.reduce env func.ty).bind
    intro funcTy
    cases funcTy with
    | all s n bind body =>
      apply (hcheck ctx a bind ht.2 ha).bind
      intro arg
      exact (Ends.classify env _).bind fun _ => .pure _
    | _ => exact .raise _
  | letIn name dup expr body =>
    apply Ends.elaborateLet
    · refine hinfer ctx expr ht.1 ?_
      simp only [Term.weight]
      omega
    · intro ctx x ty
      -- the opened body weighs as much as the body with its variable counted as the stand-in
      have hv := contentClosed_standIn dup ht.1 x ty
      refine hinfer ctx _ (ht.2.instantiate hv) ?_
      rw [Term.weight_instantiate hv, weight_standIn]
      simp only [Term.weight]
      omega
  | ann _ expr ty =>
    refine hcheck ctx expr ty ht ?_
    simp only [Term.weight]
    omega
  | loc _ expr =>
    refine hinfer ctx expr ht ?_
    simp only [Term.weight]
    omega

/-- One level of `check`, from what weighs less, and from the inference of the same term. -/
theorem ends_check_succ {t : Term} (hinfer : InfersBelow env limit (2 * t.weight [] + 1))
    (hcheck : ChecksBelow env limit (2 * t.weight [] + 1)) (ctx : Context) (ty : Term)
    (ht : t.ContentClosedAt 0) : Ends limit fun d => check env (d + 1) ctx t ty := by
  -- a term without a rule of its own is inferred, and its type compared
  have infers : Ends limit fun d => do
      let result ← infer env d ctx t
      if env.subsumption then
        if ← equal env d result.ty ty then return (⟨result.code, ty⟩ : Elaborated)
        else raise (.mismatch ty result.ty)
      else return ⟨result.code, ty⟩ := by
    apply (hinfer ctx t ht (Nat.lt_succ_self _)).bind
    intro result
    split
    · apply (Ends.equal env result.ty ty).bind
      intro same
      cases same with
      | true => exact .pure _
      | false => exact .raise _
    · exact .pure _
  simp only [check]
  apply Ends.within
  apply (Ends.note _).bind
  intro _
  -- a literal and a type are answered without a further call
  cases literal? t with
  | some result => exact .pure _
  | none =>
    apply (Ends.reduce env ty).bind
    intro tyHead
    split
    · exact .pure _
    · cases t with
      | lam name er body =>
        cases tyHead with
        | all s n bind tyBody =>
          apply (Ends.fresh name).bind
          intro x
          -- the parameter weighs two, in the function as in the opened body
          have hv : (Term.ann true (.var x) bind).ContentClosedAt 0 := trivial
          have hbody : 2 * (body.instantiate [.ann true (.var x) bind]).weight [] + 1 <
              2 * (Term.lam name er body).weight [] + 1 := by
            rw [Term.weight_instantiate hv, weight_variable]
            simp only [Term.weight]
            omega
          apply (hcheck _ _ _ (ht.instantiate hv) hbody).bind
          intro result
          apply (Ends.classify env ty).bind
          intro prim
          cases prim with
          | some p => exact .pure _
          | none => exact .pure _
        | _ => exact .raise _
      | letIn name dup expr body =>
        apply Ends.elaborateLet
        · refine hinfer ctx expr ht.1 ?_
          simp only [Term.weight]
          omega
        · intro ctx x valueTy
          have hv := contentClosed_standIn dup ht.1 x valueTy
          refine hcheck ctx _ ty (ht.2.instantiate hv) ?_
          rw [Term.weight_instantiate hv, weight_standIn]
          simp only [Term.weight]
          omega
      | loc _ expr =>
        refine hcheck ctx expr ty ht ?_
        simp only [Term.weight]
        omega
      | _ =>
        -- the same term, but inferring it counts one less than checking it
        exact infers

theorem infersBelow_and_checksBelow (n : Nat) :
    InfersBelow env limit n ∧ ChecksBelow env limit n := by
  induction n with
  | zero =>
    refine ⟨?_, ?_⟩
    · intro ctx t _ hlt
      exact absurd hlt (Nat.not_lt_zero _)
    · intro ctx t ty _ hlt
      exact absurd hlt (Nat.not_lt_zero _)
  | succ n ih =>
    obtain ⟨hinfer, hcheck⟩ := ih
    refine ⟨?_, ?_⟩
    -- the induction hypotheses are used below the weight of the term that is called on
    · intro ctx t ht hlt
      have hle := Nat.le_of_lt_succ hlt
      have hsucc := ends_infer_succ (hinfer.mono hle) (hcheck.mono hle) ctx ht
      exact ⟨fun d => progresses_infer env d ctx t, fun e he => .of_succ (hsucc.terminates e he)⟩
    · intro ctx t ty ht hlt
      have hle := Nat.le_of_lt_succ hlt
      have hsucc := ends_check_succ (hinfer.mono hle) (hcheck.mono hle) ctx ty ht
      exact ⟨fun d => progresses_check env d ctx t ty,
        fun e he => .of_succ (hsucc.terminates e he)⟩

end Rules

/-! ## Runs -/

section Runs

variable {limit : Nat}

theorem ends_infer (env : Environment) (ctx : Context) {t : Term} (ht : t.ContentClosedAt 0) :
    Ends limit fun d => infer env d ctx t :=
  (infersBelow_and_checksBelow _).1 ctx t ht (Nat.lt_succ_self _)

theorem ends_check (env : Environment) (ctx : Context) {t : Term} (ht : t.ContentClosedAt 0)
    (ty : Term) : Ends limit fun d => check env d ctx t ty :=
  (infersBelow_and_checksBelow _).2 ctx t ty ht (Nat.lt_succ_self _)

theorem ends_definition {env : Environment} (htable : env.table.IsLocallyClosed)
    (name : DefName) : Ends limit fun d => definition env d name := by
  apply Ends.within
  cases hname : env.table.find? name with
  | none => exact .raise _
  | some entry =>
    have hbody := (htable.body hname).content.unlocate
    apply (Ends.note _).bind
    intro _
    exact (ends_check env .empty hbody _).bind fun _ => .pure _

end Runs

end SelfTypes.Elaborator
