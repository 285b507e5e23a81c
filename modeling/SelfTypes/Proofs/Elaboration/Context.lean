import SelfTypes.Proofs.Computation
import SelfTypes.Proofs.Elaboration.Congruence
import SelfTypes.Proofs.Term.Content

/-!
# Elaboration in different contexts

Elaboration asks a context for the types of the variables that a term has in places with content,
and for nothing else. Two contexts that give these variables the same types are interchangeable,
whatever other variables they have, in whatever order, and even if one of them has a variable that
is yet to be issued: an issued variable hides it in both. Main statement:
`Elaborator.infer_and_check_context`.
-/

namespace SelfTypes

/-! ## Contexts that agree on a term -/

/-- Both contexts look up the variables of a term in places with content to the same type, or both
to nothing. -/
def Context.AgreeOn (ctx ctx' : Context) (t : Term) : Prop :=
  ∀ x ∈ t.contentVars, ctx.find? x.id = ctx'.find? x.id

namespace Context.AgreeOn

variable {ctx ctx' : Context} {t u : Term}

/-- Contexts that agree on all free variables agree on those in places with content. -/
theorem of_freeIds (h : ∀ id ∈ t.freeIds, ctx.find? id = ctx'.find? id) : ctx.AgreeOn ctx' t :=
  fun x hx => h x.id (Term.id_mem_freeIds_of_contentVars hx)

theorem of_subset (h : ctx.AgreeOn ctx' t) (hsub : u.contentVars ⊆ t.contentVars) :
    ctx.AgreeOn ctx' u :=
  fun x hx => h x (hsub hx)

theorem extend (h : ctx.AgreeOn ctx' t) (y : Var) (ty : Term) :
    (ctx.extend y ty).AgreeOn (ctx'.extend y ty) t := by
  intro x hx
  rw [find?_extend, find?_extend, h x hx]

/-- Contexts agree on a variable that both are extended with. -/
theorem var_extend (ctx ctx' : Context) (y : Var) (ty : Term) :
    (ctx.extend y ty).AgreeOn (ctx'.extend y ty) (.var y) := by
  intro x hx
  cases List.mem_singleton.1 hx
  rw [find?_extend, find?_extend, if_pos rfl, if_pos rfl]

/-- A body that is opened has no variables but its own and those of its value. -/
theorem instantiate_one {v : Term} (h : ctx.AgreeOn ctx' t) (hv : ctx.AgreeOn ctx' v) :
    ctx.AgreeOn ctx' (t.instantiate [v]) := by
  intro x hx
  rcases Term.mem_gather_instantiate hx with hx | ⟨u, hu, hx⟩
  · exact h x hx
  · cases List.mem_singleton.1 hu
    exact hv x hx

section Parts

variable {n : BinderName} {f a e b ty : Term}

theorem func {er : Bool} (h : ctx.AgreeOn ctx' (.app f a er)) : ctx.AgreeOn ctx' f :=
  h.of_subset fun _ hx => List.mem_append.2 (.inl hx)

theorem arg {er : Bool} (h : ctx.AgreeOn ctx' (.app f a er)) : ctx.AgreeOn ctx' a :=
  h.of_subset fun _ hx => List.mem_append.2 (.inr hx)

theorem value {dup : Bool} (h : ctx.AgreeOn ctx' (.letIn n dup e b)) : ctx.AgreeOn ctx' e :=
  h.of_subset fun _ hx => List.mem_append.2 (.inl (List.mem_append.2 (.inl hx)))

theorem letBody {dup : Bool} (h : ctx.AgreeOn ctx' (.letIn n dup e b)) : ctx.AgreeOn ctx' b :=
  h.of_subset fun _ hx => List.mem_append.2 (.inr hx)

theorem lamBody {er : Bool} (h : ctx.AgreeOn ctx' (.lam n er b)) : ctx.AgreeOn ctx' b :=
  h.of_subset fun _ hx => List.mem_append.2 (.inr hx)

/-- The type of an annotation does not count: it is not elaborated. -/
theorem annExpr {done : Bool} (h : ctx.AgreeOn ctx' (.ann done e ty)) : ctx.AgreeOn ctx' e :=
  h

theorem of_expr {done : Bool} (h : ctx.AgreeOn ctx' e) : ctx.AgreeOn ctx' (.ann done e ty) :=
  h

theorem locExpr {span : Span} (h : ctx.AgreeOn ctx' (.loc span e)) : ctx.AgreeOn ctx' e :=
  h

end Parts

end Context.AgreeOn

/-! ## Runs -/

namespace Elaborator

variable {env : Environment} {depth : Nat} {ctx ctx' : Context} {t : Term}

/-- Within a depth, contexts that agree on a term are interchangeable. -/
def IgnoresContext (env : Environment) (depth : Nat) : Prop :=
  (∀ ctx ctx' t, ctx.AgreeOn ctx' t → infer env depth ctx t = infer env depth ctx' t) ∧
  (∀ ctx ctx' t ty, ctx.AgreeOn ctx' t → check env depth ctx t ty = check env depth ctx' t ty)

/-- Local definitions, given how their values are inferred and how their bodies are elaborated. -/
theorem elaborateLet_context {n : BinderName} {dup : Bool} {e b : Term}
    {value value' : ElaboratorM Elaborated}
    {onBody onBody' : Context → Term → ElaboratorM Elaborated}
    (h : ctx.AgreeOn ctx' (.letIn n dup e b)) (hvalue : value = value')
    (hbody : ∀ ctx ctx' t, ctx.AgreeOn ctx' t → onBody ctx t = onBody' ctx' t) :
    elaborateLet ctx n dup e b value onBody = elaborateLet ctx' n dup e b value' onBody' := by
  subst hvalue
  refine bind_congr fun r => bind_congr fun x => ?_
  -- the variable of the body is the one that is issued, or gives way to the value
  have hstandIn : (ctx.extend x r.ty).AgreeOn (ctx'.extend x r.ty)
      (.ann true (if dup then .var x else e) r.ty) := by
    cases dup with
    | true => exact (Context.AgreeOn.var_extend ctx ctx' x r.ty).of_expr
    | false => exact (h.value.extend x r.ty).of_expr
  exact congrArg (· >>= _) (hbody _ _ _ ((h.letBody.extend x r.ty).instantiate_one hstandIn))

/-- One level of `infer`, from the level below. -/
theorem infer_succ_context (ih : IgnoresContext env depth) (h : ctx.AgreeOn ctx' t) :
    infer env (depth + 1) ctx t = infer env (depth + 1) ctx' t := by
  obtain ⟨hinfer, hcheck⟩ := ih
  simp only [infer]
  refine congrArg (within _) (bind_congr fun _ => ?_)
  -- only a variable reads the context; every other form hands it on to its parts
  cases t with
  | bound | ref | typ | all | lam => rfl
  | var x => simp only [h x (List.mem_singleton.2 rfl)]
  | app f a er =>
    have harg : ∀ ty, check env depth ctx a ty = check env depth ctx' a ty :=
      fun ty => hcheck ctx ctx' a ty h.arg
    simp only [hinfer ctx ctx' f h.func, harg]
  | letIn n dup e b => exact elaborateLet_context h (hinfer ctx ctx' e h.value) hinfer
  | ann done e ty => exact hcheck ctx ctx' e ty h.annExpr
  | loc span e => exact hinfer ctx ctx' e h.locExpr

/-- One level of `check`, from the level below. -/
theorem check_succ_context (ih : IgnoresContext env depth) (h : ctx.AgreeOn ctx' t) (ty : Term) :
    check env (depth + 1) ctx t ty = check env (depth + 1) ctx' t ty := by
  have hinfer := ih.1 ctx ctx' t h
  obtain ⟨hvalue, hcheck⟩ := ih
  simp only [check]
  refine congrArg (within _) (bind_congr fun _ => ?_)
  cases literal? t with
  | some r => rfl
  | none =>
    -- the expected type is the same on both sides, and so is what it reduces to
    refine bind_congr fun tyHead => ?_
    split
    · rfl
    · cases t with
      | lam n er body =>
        cases tyHead with
        | all s m bind tyBody =>
          refine bind_congr fun x => ?_
          -- the issued variable is the latest in both contexts, so it hides any equal one
          have hvar : (ctx.extend x bind).AgreeOn (ctx'.extend x bind) (.ann true (.var x) bind) :=
            (Context.AgreeOn.var_extend ctx ctx' x bind).of_expr
          rw [hcheck _ _ _ _ ((h.lamBody.extend x bind).instantiate_one hvar)]
        | _ => rfl
      | letIn n dup e b =>
        exact elaborateLet_context h (hvalue ctx ctx' e h.value)
          fun ctx ctx' b hb => hcheck ctx ctx' b ty hb
      | loc span e => exact hcheck ctx ctx' e ty h.locExpr
      -- what is left is inferred, and the comparison of the types does not see the context
      | _ => simp only [hinfer]

theorem ignoresContext (env : Environment) (depth : Nat) : IgnoresContext env depth := by
  induction depth with
  | zero => exact ⟨fun _ _ _ _ => rfl, fun _ _ _ _ _ => rfl⟩
  | succ depth ih =>
    exact ⟨fun _ _ _ h => infer_succ_context ih h, fun _ _ _ ty h => check_succ_context ih h ty⟩

/-- Contexts that look up each free variable of a term to the same result are interchangeable, in
both modes and from every state: the code and the type are the same, or the failure is, and so is
the state that is left, with all its counters. -/
theorem infer_and_check_context (env : Environment) (depth : Nat) {ctx ctx' : Context} {t : Term}
    (h : ∀ id ∈ t.freeIds, ctx.find? id = ctx'.find? id) (e : Elaborator) :
    infer env depth ctx t e = infer env depth ctx' t e ∧
      ∀ ty, check env depth ctx t ty e = check env depth ctx' t ty e := by
  have hagree := Context.AgreeOn.of_freeIds h
  obtain ⟨hinfer, hcheck⟩ := ignoresContext env depth
  refine ⟨?_, fun ty => ?_⟩
  · rw [hinfer ctx ctx' t hagree]
  · rw [hcheck ctx ctx' t ty hagree]

/-- A function from `A` to `B`. -/
def coercion : Var :=
  ⟨⟨7, 0⟩, "f"⟩

/-- `let g = f; ((y) => g(y) :: (y: A) -> B)` -/
def wrappedCoercion : Term :=
  .letIn "g" false (.var coercion)
    (.ann false (.lam "y" false (.app (.bound 1) (.bound 0) false)) (.pi "y" (.ref "A") (.ref "B")))

/-- A context with nothing but the function. -/
def coercionAlone : Context :=
  Context.empty.extend coercion (.pi "y" (.ref "A") (.ref "B"))

/-- A context that has another variable before the function, and after it the variable that is going
to be issued for `y`. -/
def coercionAmongOthers : Context :=
  ((Context.empty.extend ⟨⟨7, 1⟩, "f"⟩ .typ).extend coercion (.pi "y" (.ref "A") (.ref "B"))).extend
    ⟨⟨0, 1⟩, "z"⟩ .typ

/-- The wrapped function is inferred in the same way in both contexts, with success, and refused in
the same way as a term of type `A`. -/
theorem wrappedCoercion_context :
    (∀ id ∈ wrappedCoercion.freeIds, coercionAlone.find? id = coercionAmongOthers.find? id) ∧
      infer ⟨.empty, true⟩ 12 coercionAmongOthers wrappedCoercion (start ⟨0, 0⟩ none) =
        infer ⟨.empty, true⟩ 12 coercionAlone wrappedCoercion (start ⟨0, 0⟩ none) ∧
      ((infer ⟨.empty, true⟩ 12 coercionAmongOthers wrappedCoercion
        (start ⟨0, 0⟩ none)).value?.map Elaborated.code =
          some (.lam "y" (.app (.var "f") (.var "y")))) ∧
      check ⟨.empty, true⟩ 12 coercionAmongOthers wrappedCoercion (.ref "A")
          (start ⟨0, 0⟩ none) =
        check ⟨.empty, true⟩ 12 coercionAlone wrappedCoercion (.ref "A") (start ⟨0, 0⟩ none) ∧
      ((check ⟨.empty, true⟩ 12 coercionAmongOthers wrappedCoercion (.ref "A")
        (start ⟨0, 0⟩ none)).halt?.any (· ≠ .unfinished)) := by
  have hlookup : ∀ id ∈ wrappedCoercion.freeIds,
      coercionAlone.find? id = coercionAmongOthers.find? id := by decide
  obtain ⟨hinfer, hcheck⟩ :=
    infer_and_check_context ⟨.empty, true⟩ 12 hlookup (start ⟨0, 0⟩ none)
  exact ⟨hlookup, hinfer.symm, by decide +kernel, (hcheck _).symm, by decide +kernel⟩

end Elaborator

end SelfTypes
