import SelfTypes.Proofs.Elaboration.Congruence
import SelfTypes.Proofs.Term.Closed
import SelfTypes.Proofs.Term.Content

/-!
# Elaboration stays in scope

Terms without dangling indices whose variables have types in the context are elaborated without
meeting an index or a variable that means nothing. Opening a binder keeps a term so: what stands for
the bound variable is the variable itself, which has just got a type, or the value of a local
definition, which is in scope already. Only places with content count, so nothing is asked of types,
and none of the types that reduction brings about can do harm.

Main statement: `definition_in_scope`, for the definitions of closed tables.
-/

namespace SelfTypes

/-- Whether an index or a variable without a meaning is the cause. -/
def Cause.isScopeError : Cause → Bool
  | unboundVariable _ | danglingIndex _ => true
  | _ => false

/-! ## Terms in scope -/

/-- In places with content, indices point to binders of the term, and variables have types in the
context. -/
structure Context.Covers (ctx : Context) (t : Term) : Prop where
  closed : t.ContentClosedAt 0
  typed : ∀ x ∈ t.contentVars, ctx.find? x.id ≠ none

namespace Context.Covers

variable {ctx : Context} {x : Var} {name : BinderName} {dup er : Bool} {e b f a ty ty' : Term}
  {span : Span}

theorem extend (h : ctx.Covers e) (x : Var) (ty : Term) : (ctx.extend x ty).Covers e where
  closed := h.closed
  typed y hy := by
    rw [Context.find?_extend]
    split
    · exact Option.some_ne_none ty
    · exact h.typed y hy

theorem func (h : ctx.Covers (.app f a er)) : ctx.Covers f where
  closed := h.closed.1
  typed x hx := h.typed x (List.mem_append.2 (.inl hx))

theorem arg (h : ctx.Covers (.app f a er)) : ctx.Covers a where
  closed := h.closed.2
  typed x hx := h.typed x (List.mem_append.2 (.inr hx))

theorem expr (h : ctx.Covers (.letIn name dup e b)) : ctx.Covers e where
  closed := h.closed.1
  typed x hx := h.typed x (List.mem_append.2 (.inl (List.mem_append.2 (.inl hx))))

theorem ann (h : ctx.Covers (.ann dup e ty)) : ctx.Covers e where
  closed := h.closed
  typed := h.typed

theorem loc (h : ctx.Covers (.loc span e)) : ctx.Covers e where
  closed := h.closed
  typed := h.typed

/-- A variable with its type is in scope where it has just been added. -/
theorem parameter (ctx : Context) (x : Var) (ty ty' : Term) :
    (ctx.extend x ty).Covers (.ann true (.var x) ty') where
  closed := trivial
  typed y hy := by
    cases List.mem_singleton.1 hy
    rw [Context.find?_extend, if_pos rfl]
    exact Option.some_ne_none ty

/-- Opening a binder with something in scope. -/
theorem instantiate {v : Term} (hb : b.ContentClosedAt 1)
    (htyped : ∀ x ∈ b.contentVars, ctx.find? x.id ≠ none) (hv : ctx.Covers v) :
    ctx.Covers (b.instantiate [v]) where
  closed := hb.instantiate hv.closed
  typed x hx := by
    rcases Term.mem_gather_instantiate hx with hbody | ⟨u, hu, hvalue⟩
    · exact htyped x hbody
    · cases List.mem_singleton.1 hu
      exact hv.typed x hvalue

/-- The body of a function, opened with its parameter. -/
theorem lamBody (h : ctx.Covers (.lam name er b)) (x : Var) (ty : Term) :
    (ctx.extend x ty).Covers (b.instantiate [.ann true (.var x) ty]) := by
  have hextended := h.extend x ty
  exact instantiate hextended.closed hextended.typed (parameter ctx x ty ty)

/-- The body of a local definition, opened with what stands for its value. -/
theorem letBody (h : ctx.Covers (.letIn name dup e b)) (x : Var) (ty : Term) :
    (ctx.extend x ty).Covers
      (b.instantiate [.ann true (if dup then .var x else e) ty]) := by
  have hextended := h.extend x ty
  have hbody : ∀ y ∈ b.contentVars, (ctx.extend x ty).find? y.id ≠ none := fun y hy =>
    hextended.typed y (List.mem_append.2 (.inr hy))
  -- the issued variable is in the extended context; the value stays in the scope it had
  cases dup with
  | true => exact instantiate hextended.closed.2 hbody (parameter ctx x ty ty)
  | false =>
    have hvalue : (ctx.extend x ty).Covers (.ann true e ty) :=
      ⟨hextended.expr.closed, hextended.expr.typed⟩
    exact instantiate hextended.closed.2 hbody hvalue

end Context.Covers

namespace Elaborator

/-! ## Computations that stay in scope -/

/-- No failure of the computation is a scope error. -/
def StaysInScope {α : Type} (x : ElaboratorM α) : Prop :=
  ∀ e f e', x e = .error (.failed f) e' → f.cause.isScopeError = false

namespace StaysInScope

variable {α β : Type}

theorem pure (a : α) : StaysInScope (Pure.pure a : ElaboratorM α) := by
  intro e f e' h
  cases h

theorem raise {cause : Cause} (hcause : cause.isScopeError = false) :
    StaysInScope (Elaborator.raise cause : ElaboratorM α) := by
  intro e f e' h
  cases h
  exact hcause

theorem giveUp : StaysInScope (Elaborator.giveUp : ElaboratorM α) := by
  intro e f e' h
  cases h

theorem bind {x : ElaboratorM α} {f : α → ElaboratorM β} (hx : StaysInScope x)
    (hf : ∀ a, StaysInScope (f a)) : StaysInScope (x >>= f) := by
  intro e failure e' h
  obtain h | ⟨a, e₁, -, h⟩ := EStateM.error_of_bind_error h
  · exact hx e failure e' h
  · exact hf a e₁ failure e' h

theorem within (task : Task) {x : ElaboratorM α} (hx : StaysInScope x) :
    StaysInScope (Elaborator.within task x) := by
  intro e failure e' h
  obtain ⟨e₁, h⟩ := error_of_within h
  exact hx _ failure e₁ h

/-- The kernel fails for want of fuel only. -/
theorem lift (x : KernelM α) : StaysInScope (Elaborator.lift x) := by
  intro e failure e' h
  -- an exhausted budget is a cause that is about no variable
  obtain ⟨err, k, -, rfl⟩ := failed_of_lift h
  rfl

theorem elaborateLet {ctx : Context} {name : BinderName} {dup : Bool} {expr body : Term}
    {inferValue : ElaboratorM Elaborated}
    {onBody : Context → Term → ElaboratorM Elaborated} (hvalue : StaysInScope inferValue)
    (hbody : ∀ x ty, StaysInScope (onBody (ctx.extend x ty)
      (body.instantiate [.ann true (if dup then .var x else expr) ty]))) :
    StaysInScope (Elaborator.elaborateLet ctx name dup expr body inferValue onBody) := by
  apply hvalue.bind
  intro value
  apply (StaysInScope.lift _).bind
  intro x
  exact (hbody x value.ty).bind fun _ => .pure _

end StaysInScope

/-! ## Rules -/

section Rules

variable {env : Environment} {depth : Nat} {ctx : Context} {t : Term}

/-- One level of `infer`, from the level below. -/
theorem staysInScope_infer_succ
    (hinfer : ∀ ctx t, ctx.Covers t → StaysInScope (infer env depth ctx t))
    (hcheck : ∀ ctx t ty, ctx.Covers t → StaysInScope (check env depth ctx t ty))
    (ht : ctx.Covers t) : StaysInScope (infer env (depth + 1) ctx t) := by
  simp only [infer]
  apply StaysInScope.within
  apply (StaysInScope.lift _).bind
  intro _
  cases t with
  | bound i =>
    -- an index that stands alone dangles
    exact absurd ht.closed (Nat.not_lt_zero i)
  | typ | all => exact .pure _
  -- a function on its own is refused, but not for its scope
  | lam => exact .raise rfl
  | var x =>
    cases hx : ctx.find? x.id with
    | some ty =>
      simp only [hx]
      exact .pure _
    -- the context covers the term, so the lookup does not come back empty
    | none => exact absurd hx (ht.typed x (List.mem_singleton.2 rfl))
  | ref name =>
    simp only
    cases env.table.find? name with
    | some d => exact .pure _
    | none => exact .raise rfl
  | app f a er =>
    apply (hinfer ctx f ht.func).bind
    intro func
    apply (StaysInScope.lift _).bind
    intro funcTy
    cases funcTy with
    | all s n bind body =>
      apply (hcheck ctx a bind ht.arg).bind
      intro arg
      exact (StaysInScope.lift _).bind fun _ => .pure _
    | _ => exact .raise rfl
  | letIn name dup expr body =>
    exact .elaborateLet (hinfer ctx expr ht.expr) fun x ty => hinfer _ _ (ht.letBody x ty)
  | ann _ expr ty => exact hcheck ctx expr ty ht.ann
  | loc _ expr => exact hinfer ctx expr ht.loc

/-- One level of `check`, from the level below. -/
theorem staysInScope_check_succ
    (hinfer : ∀ ctx t, ctx.Covers t → StaysInScope (infer env depth ctx t))
    (hcheck : ∀ ctx t ty, ctx.Covers t → StaysInScope (check env depth ctx t ty))
    (ht : ctx.Covers t) (ty : Term) : StaysInScope (check env (depth + 1) ctx t ty) := by
  -- a term without a rule of its own is inferred, and its type compared
  have infers : StaysInScope do
      let result ← infer env depth ctx t
      if env.subsumption then
        if ← equal env depth result.ty ty then return (⟨result.code, ty⟩ : Elaborated)
        else raise (.mismatch ty result.ty)
      else return ⟨result.code, ty⟩ := by
    apply (hinfer ctx t ht).bind
    intro result
    split
    · apply (StaysInScope.lift _).bind
      intro same
      cases same with
      | true => exact .pure _
      | false => exact .raise rfl
    · exact .pure _
  simp only [check]
  apply StaysInScope.within
  apply (StaysInScope.lift _).bind
  intro _
  cases literal? t with
  | some result => exact .pure _
  | none =>
    apply (StaysInScope.lift _).bind
    intro tyHead
    split
    · exact .pure _
    · cases t with
      | lam name er body =>
        cases tyHead with
        | all s n bind tyBody =>
          apply (StaysInScope.lift _).bind
          intro x
          apply (hcheck _ _ _ (ht.lamBody x bind)).bind
          intro result
          apply (StaysInScope.lift _).bind
          intro prim
          cases prim with
          | some p => exact .pure _
          | none => exact .pure _
        | _ => exact .raise rfl
      | letIn name dup expr body =>
        exact .elaborateLet (hinfer ctx expr ht.expr) fun x valueTy =>
          hcheck _ _ ty (ht.letBody x valueTy)
      | loc _ expr => exact hcheck ctx expr ty ht.loc
      | _ => exact infers

theorem staysInScope_infer_and_check (env : Environment) (depth : Nat) :
    (∀ ctx t, ctx.Covers t → StaysInScope (infer env depth ctx t)) ∧
      ∀ ctx t ty, ctx.Covers t → StaysInScope (check env depth ctx t ty) := by
  induction depth with
  | zero => exact ⟨fun _ _ _ => .giveUp, fun _ _ _ _ => .giveUp⟩
  | succ depth ih =>
    obtain ⟨hinfer, hcheck⟩ := ih
    exact ⟨fun _ _ ht => staysInScope_infer_succ hinfer hcheck ht,
      fun _ _ ty ht => staysInScope_check_succ hinfer hcheck ht ty⟩

end Rules

/-! ## Definitions -/

/-- Nothing has to be in the context of a closed body. -/
theorem covers_empty {t : Term} (hclosed : t.IsLocallyClosed) (hfree : t.freeIds = []) :
    Context.empty.Covers t.unlocate where
  closed := hclosed.content.unlocate
  typed x hx := by
    have hcontent : x ∈ t.contentVars := by
      simpa only [Term.contentVars, Term.gather_unlocate] using hx
    have hid := Term.id_mem_freeIds_of_contentVars hcontent
    rw [hfree] at hid
    cases hid

/-- In a table without dangling indices and free variables, no definition fails with a scope error,
whatever the settings, the supply of variables and the budget are. -/
theorem definition_in_scope {env : Environment} (hclosed : env.table.IsLocallyClosed)
    (hfree : env.table.IsVarFree) {depth : Nat} {name : DefName} {e e' : Elaborator}
    {f : Failure} (h : definition env depth name e = .error (.failed f) e') :
    (∀ i, f.cause ≠ .danglingIndex i) ∧ ∀ x, f.cause ≠ .unboundVariable x := by
  have hstays : StaysInScope (definition env depth name) := by
    apply StaysInScope.within
    cases hname : env.table.find? name with
    | none => exact .raise rfl
    | some d =>
      have hbody := covers_empty (hclosed.body hname) (hfree.body hname)
      apply (StaysInScope.lift _).bind
      intro _
      exact ((staysInScope_infer_and_check env depth).2 _ _ _ hbody).bind fun _ => .pure _
  -- the cause of a failure in scope is neither of the two
  have hcause := hstays e f e' h
  refine ⟨fun i heq => ?_, fun x heq => ?_⟩
  · rw [heq] at hcause
    cases hcause
  · rw [heq] at hcause
    cases hcause

/-- A table whose definition applies a function without a type. -/
def headless : Table :=
  .ofList [⟨"bad", .pi "x" .typ .typ, .app (.lam "x" false (.bound 0)) .typ false⟩]

/-- The definition is refused, but for another reason. -/
theorem headless_in_scope :
    (headless.IsLocallyClosed ∧ headless.IsVarFree) ∧
      ∃ f e', definition ⟨headless, true⟩ 6 "bad" (.start ⟨0, 0⟩ none) = .error (.failed f) e' ∧
        (∀ i, f.cause ≠ .danglingIndex i) ∧ ∀ x, f.cause ≠ .unboundVariable x := by
  have hclosed : headless.IsLocallyClosed := by decide
  have hfree : headless.IsVarFree := by decide
  obtain ⟨f, e', h⟩ : ∃ f e', definition ⟨headless, true⟩ 6 "bad" (.start ⟨0, 0⟩ none) =
      .error (.failed f) e' := ⟨_, _, rfl⟩
  exact ⟨⟨hclosed, hfree⟩, f, e', h, definition_in_scope hclosed hfree h⟩

end Elaborator

end SelfTypes
