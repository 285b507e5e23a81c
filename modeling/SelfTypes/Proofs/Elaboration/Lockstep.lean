import SelfTypes.Proofs.Elaboration.Alike
import SelfTypes.Proofs.Kernel.Lockstep

/-!
# The elaborator in lockstep

Two runs of the elaborator are compared, on contexts, terms and types that are copies of each other.
A relation between runs that sequencing, failures, tasks and the actions of the kernel respect
(`Elaborator.IsLockstep`) is respected by `infer`, `check` and `definition`. One of the two runs may
leave out the comparison of the type that a term has with the type it should have, if the relation
allows that. Main statements: `IsLockstep.infer_and_check` and `IsLockstep.definition`.
-/

namespace SelfTypes

/-! ## What runs work on -/

/-- The same tasks, on terms that `R` relates. -/
inductive Task.Related (R : Term → Term → Prop) : Task → Task → Prop where
  | definition (name : DefName) : Related R (.definition name) (.definition name)
  | synthesis {t t' : Term} : R t t' → Related R (.term t .synthesis) (.term t' .synthesis)
  | analysis {t t' ty ty' : Term} :
      R t t' → R ty ty' → Related R (.term t (.analysis ty)) (.term t' (.analysis ty'))

/-- The same causes, about terms that `R` relates; the budget is not one of them. -/
inductive Cause.Related (R : Term → Term → Prop) : Cause → Cause → Prop where
  | undefinedReference (name : DefName) :
      Related R (.undefinedReference name) (.undefinedReference name)
  | unboundVariable {x x' : Var} :
      R (.var x) (.var x') → Related R (.unboundVariable x) (.unboundVariable x')
  | danglingIndex (index : Nat) : Related R (.danglingIndex index) (.danglingIndex index)
  | notAFunction {t t' ty ty' : Term} :
      R t t' → R ty ty' → Related R (.notAFunction t ty) (.notAFunction t' ty')
  | notAFunctionType {t t' ty ty' : Term} :
      R t t' → R ty ty' → Related R (.notAFunctionType t ty) (.notAFunctionType t' ty')
  | uninferableFunction {t t' : Term} :
      R t t' → Related R (.uninferableFunction t) (.uninferableFunction t')
  | mismatch {ty ty' found found' : Term} :
      R ty ty' → R found found' → Related R (.mismatch ty found) (.mismatch ty' found')

/-- The variables of the contexts stand for each other in order, and have types that are copies. -/
def Context.Copy (L : Likeness) (ρ : VarRelation) (ctx ctx' : Context) : Prop :=
  List.Forall₂ (fun p p' => ρ p.1 p'.1 ∧ p.2.Copy L ρ p'.2) ctx.bindings ctx'.bindings

namespace Context.Copy

variable {L : Likeness} {ρ ρ' : VarRelation} {ctx ctx' : Context} {x x' : Var} {ty ty' : Term}

theorem empty (L : Likeness) (ρ : VarRelation) : Context.empty.Copy L ρ .empty :=
  .nil

theorem mono (h : ctx.Copy L ρ ctx') (hρ : Subrelation ρ ρ') : ctx.Copy L ρ' ctx' :=
  h.imp fun _ _ h => ⟨hρ h.1, h.2.mono hρ⟩

theorem extend (h : ctx.Copy L ρ ctx') (hx : ρ x x') (hty : ty.Copy L ρ ty') :
    (ctx.extend x ty).Copy L ρ (ctx'.extend x' ty') :=
  .cons ⟨hx, hty⟩ h

/-- Variables that stand for each other have types that are copies, or no types. -/
theorem find? (hρ : Faithful ρ) (h : ctx.Copy L ρ ctx') (hx : ρ x x') :
    Option.Rel (Term.Copy L ρ) (ctx.find? x.id) (ctx'.find? x'.id) :=
  rel_find? (fun hy hz => hρ.id_eq_iff hy hz) h hx

end Context.Copy

/-- The code is the same, and the types are copies. -/
structure Elaborated.Copy (L : Likeness) (ρ : VarRelation) (r r' : Elaborated) : Prop where
  code : r.code = r'.code
  ty : r.ty.Copy L ρ r'.ty

/-- The globals that elaboration brings in itself are known. -/
structure Likeness.KnowsBuiltins (L : Likeness) : Prop where
  primitive : ∀ p : Primitive, L.known p.name
  char : L.known "Char"
  string : L.known "String"

theorem Likeness.KnowsBuiltins.literal {L : Likeness} (hL : L.KnowsBuiltins) {t : Term}
    {r : Elaborated} (h : Elaborator.literal? t = some r) (ρ : VarRelation) : r.Copy L ρ r := by
  obtain ⟨_, -, rfl⟩ | ⟨_, -, rfl⟩ := Elaborator.exists_of_literal? h
  · exact ⟨rfl, .ref hL.char⟩
  · exact ⟨rfl, .ref hL.string⟩

namespace Elaborator

/-! ## Lifting -/

/-- Lifted actions in sequence are a lifted sequence of actions. -/
theorem lift_bind {α β : Type} (x : KernelM α) (f : α → KernelM β) :
    lift (x >>= f) = lift x >>= fun a => lift (f a) := by
  funext e
  rw [EStateM.bind_apply, lift_apply, lift_apply]
  cases hx : x e.kernel with
  | ok a k =>
    rw [EStateM.bind_of_ok hx]
    exact (lift_apply (f a) { e with kernel := k }).symm
  | error halt k =>
    rw [EStateM.bind_of_error hx]
    cases halt <;> rfl

/-! ## Runs in lockstep -/

/-- A relation between runs in two environments that sequencing, failures, tasks and the actions of
the kernel respect. -/
structure IsLockstep (L : Likeness) (env env' : Environment) (rel : RunRelation ElaboratorM) :
    Prop where
  builtins : L.KnowsBuiltins
  comparable : ∀ {α ρ Q} {x x' : ElaboratorM α},
    (Comparable L env.table env'.table ρ → rel α ρ Q x x') → rel α ρ Q x x'
  pure : ∀ {α ρ Q} {a a' : α}, Q ρ a a' → rel α ρ Q (Pure.pure a) (Pure.pure a')
  bind : ∀ {α β ρ Q R} {x x' : ElaboratorM α} {f f' : α → ElaboratorM β}, rel α ρ Q x x' →
    (∀ ρ' a a', Subrelation ρ ρ' → Q ρ' a a' → rel β ρ' R (f a) (f' a')) →
    rel β ρ R (x >>= f) (x' >>= f')
  giveUp : ∀ {α ρ Q}, rel α ρ Q Elaborator.giveUp Elaborator.giveUp
  raise : ∀ {α ρ Q cause cause'}, Cause.Related (Term.Copy L ρ) cause cause' →
    rel α ρ Q (Elaborator.raise cause) (Elaborator.raise cause')
  within : ∀ {α ρ Q task task'} {x x' : ElaboratorM α}, Task.Related (Term.Copy L ρ) task task' →
    rel α ρ Q x x' → rel α ρ Q (Elaborator.within task x) (Elaborator.within task' x')
  note : ∀ {ρ e e'}, Event.Related (Term.Copy L ρ) e e' →
    rel Unit ρ (fun _ _ _ => True) (Elaborator.note e) (Elaborator.note e')
  fresh : ∀ {ρ} name,
    rel Var ρ (fun ρ' x x' => ρ' x x') (Elaborator.fresh name) (Elaborator.fresh name)
  reduce : ∀ {ρ t t'} depth, t.Copy L ρ t' →
    rel Term ρ (fun ρ' => Term.CopyNode L ρ') (Elaborator.reduce env depth t)
      (Elaborator.reduce env' depth t')
  equal : ∀ {ρ a a' b b'} depth, a.Copy L ρ a' → b.Copy L ρ b' →
    rel Bool ρ (fun _ r r' => r = r') (Elaborator.equal env depth a b)
      (Elaborator.equal env' depth a' b')
  /-- Types are compared on both sides or on neither, or the right side may leave that out. -/
  subsumption : env.subsumption = env'.subsumption ∨ env'.subsumption = false ∧
    ∀ {α ρ Q depth a b cause} {x x' : ElaboratorM α}, rel α ρ Q x x' →
      rel α ρ Q (do if ← Elaborator.equal env depth a b then x else Elaborator.raise cause) x'

namespace IsLockstep

variable {L : Likeness} {env env' : Environment} {rel : RunRelation ElaboratorM}
  {ρ : VarRelation} {depth : Nat} {ctx ctx' : Context} {t t' ty ty' : Term}

theorem classify (C : IsLockstep L env env' rel) (depth : Nat) (hty : ty.Copy L ρ ty') :
    rel (Option Primitive) ρ (fun _ r r' => r = r') (Elaborator.classify env depth ty)
      (Elaborator.classify env' depth ty') := by
  -- on the primitives that are still to be tried
  have among : ∀ (ps : List Primitive) {ρ : VarRelation}, ty.Copy L ρ ty' →
      rel (Option Primitive) ρ (fun _ r r' => r = r')
        (lift (Kernel.classifyAmong env.table depth ty ps))
        (lift (Kernel.classifyAmong env'.table depth ty' ps)) := by
    intro ps
    induction ps with
    | nil =>
      intro ρ _
      exact C.pure rfl
    | cons p ps ih =>
      intro ρ hty
      rw [Kernel.classifyAmong, Kernel.classifyAmong, lift_bind, lift_bind]
      refine C.bind (C.equal depth (.ref (C.builtins.primitive p)) hty)
        fun ρ' same same' hsub h => ?_
      -- both sides have the same verdict on the primitive that is tried
      cases h
      cases same with
      | true => exact C.pure rfl
      | false => exact ih (hty.mono hsub)
  exact among Primitive.registry hty

/-- Runs within a depth respect the relation, on all that are copies. -/
structure Within (L : Likeness) (env env' : Environment) (rel : RunRelation ElaboratorM)
    (depth : Nat) : Prop where
  infer : ∀ {ρ ctx ctx' t t'}, Context.Copy L ρ ctx ctx' → t.Parallel L ρ t' →
    rel Elaborated ρ (fun ρ' => Elaborated.Copy L ρ') (Elaborator.infer env depth ctx t)
      (Elaborator.infer env' depth ctx' t')
  check : ∀ {ρ ctx ctx' t t' ty ty'}, Context.Copy L ρ ctx ctx' → t.Parallel L ρ t' →
    ty.Copy L ρ ty' →
    rel Elaborated ρ (fun ρ' => Elaborated.Copy L ρ') (Elaborator.check env depth ctx t ty)
      (Elaborator.check env' depth ctx' t' ty')

/-- Local definitions, given how their values are inferred and how their bodies are elaborated. -/
theorem elaborateLet (C : IsLockstep L env env' rel) {n : BinderName} {dup : Bool}
    {e e' b b' : Term} {value value' : ElaboratorM Elaborated}
    {onBody onBody' : Context → Term → ElaboratorM Elaborated}
    (hctx : ctx.Copy L ρ ctx') (he : e.Parallel L ρ e') (hb : b.Parallel L ρ b')
    (hvalue : rel Elaborated ρ (fun ρ' => Elaborated.Copy L ρ') value value')
    (hbody : ∀ {ρ' ctx ctx' t t'}, Subrelation ρ ρ' → Context.Copy L ρ' ctx ctx' →
      t.Parallel L ρ' t' →
      rel Elaborated ρ' (fun ρ' => Elaborated.Copy L ρ') (onBody ctx t) (onBody' ctx' t')) :
    rel Elaborated ρ (fun ρ' => Elaborated.Copy L ρ')
      (Elaborator.elaborateLet ctx n dup e b value onBody)
      (Elaborator.elaborateLet ctx' n dup e' b' value' onBody') := by
  refine C.bind hvalue fun ρ₁ r r' hsub₁ hr => C.bind (C.fresh n) fun ρ₂ x x' hsub₂ hx => ?_
  refine C.comparable fun hρ₂ => ?_
  have hsub : Subrelation ρ ρ₂ := fun h => hsub₂ (hsub₁ h)
  have hty := hr.ty.mono hsub₂
  -- what stands for the value is the issued variable or the value itself, with its type
  have hstandIn : (Term.ann true (if dup then .var x else e) r.ty).Parallel L ρ₂
      (.ann true (if dup then .var x' else e') r'.ty) := by
    cases dup with
    | true => exact .ann (.var hρ₂.faithful hx) hty
    | false => exact .ann (he.mono hsub) hty
  refine C.bind (hbody hsub ((hctx.mono hsub).extend hx hty)
    ((hb.mono hsub).instantiate_one hstandIn)) fun ρ₃ q q' _ hq => C.pure ⟨?_, hq.ty⟩
  rw [hr.code, hq.code]

/-- One level of `infer`, from the level below. -/
theorem infer_succ (C : IsLockstep L env env' rel) (ih : Within L env env' rel depth)
    (hctx : ctx.Copy L ρ ctx') (ht : t.Parallel L ρ t') :
    rel Elaborated ρ (fun ρ' => Elaborated.Copy L ρ') (Elaborator.infer env (depth + 1) ctx t)
      (Elaborator.infer env' (depth + 1) ctx' t') := by
  simp only [Elaborator.infer]
  -- the task and the event are related, and from here on the rule is decided by the node
  refine C.within (.synthesis ht.copy)
    (C.bind (C.note (.inference ht.copy)) fun ρ₁ _ _ hsub₁ _ => ?_)
  replace hctx := hctx.mono hsub₁
  replace ht := ht.mono hsub₁
  refine C.comparable fun hρ => ?_
  have hcopy := ht.copy
  cases ht.sameNode with
  | bound i => exact C.raise (.danglingIndex i)
  | typ | all => exact C.pure ⟨rfl, .typ⟩
  | lam => exact C.raise (.uninferableFunction hcopy)
  | @var x x' hx =>
    simp only
    rcases none_or_some_of_rel (hctx.find? hρ.faithful hx) with
      ⟨hty, hty'⟩ | ⟨ty, ty', hty, hty', hcopy⟩
    · rw [hty, hty']
      exact C.raise (.unboundVariable (.var hx))
    · rw [hty, hty']
      exact C.pure ⟨by rw [hρ.faithful.name_eq hx], hcopy⟩
  | @ref name hname =>
    simp only
    rcases none_or_some_of_rel (hρ.find? name hname) with ⟨hd, hd'⟩ | ⟨d, d', hd, hd', hcopy⟩
    · rw [hd, hd']
      exact C.raise (.undefinedReference name)
    · rw [hd, hd']
      exact C.pure ⟨rfl, hcopy.ty⟩
  | @app f f' a a' er hf ha =>
    refine C.bind (ih.infer hctx hf) fun ρ₂ func func' hsub₂ hfunc => ?_
    refine C.bind (C.reduce depth hfunc.ty) fun ρ₃ funcTy funcTy' hsub₃ hty => ?_
    have hsub : Subrelation _ ρ₃ := fun h => hsub₃ (hsub₂ h)
    have hfuncTy := hty.copy
    cases hty with
    | all hbind hbody =>
      refine C.bind (ih.check (hctx.mono hsub) (ha.mono hsub) hbind)
        fun ρ₄ arg arg' hsub₄ harg => ?_
      refine C.bind (C.classify depth (hfuncTy.mono hsub₄)) fun ρ₅ prim prim' hsub₅ hprim => ?_
      cases hprim
      have hsub' : Subrelation _ ρ₅ := fun h => hsub₅ (hsub₄ h)
      have hsub'' : Subrelation ρ₁ ρ₅ := fun h => hsub' (hsub h)
      refine C.pure ⟨?_, ?_⟩
      · rw [hfunc.code, harg.code]
      -- the type of the application is opened with related functions and arguments
      · exact (hbody.mono hsub').instantiate_two
          (.ann (hf.copy.mono hsub'') (hfuncTy.mono hsub'))
          (.ann (ha.copy.mono hsub'') (hbind.mono hsub'))
    | _ => exact C.raise (.notAFunction (hcopy.mono hsub) hfuncTy)
  | letIn he hb =>
    exact C.elaborateLet hctx he hb (ih.infer hctx he) fun _ hctx ht => ih.infer hctx ht
  | ann he hty => exact ih.check hctx he hty
  | loc he => exact ih.infer hctx he

/-- A term without a rule of its own is inferred, and its type compared. -/
theorem infer_and_compare (C : IsLockstep L env env' rel) (ih : Within L env env' rel depth)
    (hctx : ctx.Copy L ρ ctx') (ht : t.Parallel L ρ t') (hty : ty.Copy L ρ ty') :
    rel Elaborated ρ (fun ρ' => Elaborated.Copy L ρ')
      (do
        let result ← Elaborator.infer env depth ctx t
        if env.subsumption then
          if ← Elaborator.equal env depth result.ty ty then return ⟨result.code, ty⟩
          else Elaborator.raise (.mismatch ty result.ty)
        else return ⟨result.code, ty⟩)
      (do
        let result ← Elaborator.infer env' depth ctx' t'
        if env'.subsumption then
          if ← Elaborator.equal env' depth result.ty ty' then return ⟨result.code, ty'⟩
          else Elaborator.raise (.mismatch ty' result.ty)
        else return ⟨result.code, ty'⟩) := by
  refine C.bind (ih.infer hctx ht) fun ρ₁ r r' hsub hr => ?_
  have hresult : ∀ {ρ₂}, Subrelation ρ₁ ρ₂ →
      rel Elaborated ρ₂ (fun ρ' => Elaborated.Copy L ρ')
        (Pure.pure ⟨r.code, ty⟩) (Pure.pure ⟨r'.code, ty'⟩) :=
    fun hsub₂ => C.pure ⟨hr.code, (hty.mono hsub).mono hsub₂⟩
  -- both sides compare, or neither does, or only the left one
  rcases C.subsumption with hsame | ⟨hoff, hdrop⟩
  · rw [hsame]
    split
    · refine C.bind (C.equal depth hr.ty (hty.mono hsub)) fun ρ₂ same same' hsub₂ hverdict => ?_
      cases hverdict
      cases same with
      | true => exact hresult hsub₂
      | false => exact C.raise (.mismatch ((hty.mono hsub).mono hsub₂) (hr.ty.mono hsub₂))
    · exact hresult id
  · rw [hoff]
    split
    -- only the left side compares, and it goes on as the right side does once the types are equal
    · exact hdrop (hresult id)
    · exact hresult id

/-- One level of `check`, from the level below. -/
theorem check_succ (C : IsLockstep L env env' rel) (ih : Within L env env' rel depth)
    (hctx : ctx.Copy L ρ ctx') (ht : t.Parallel L ρ t') (hty : ty.Copy L ρ ty') :
    rel Elaborated ρ (fun ρ' => Elaborated.Copy L ρ')
      (Elaborator.check env (depth + 1) ctx t ty)
      (Elaborator.check env' (depth + 1) ctx' t' ty') := by
  simp only [Elaborator.check]
  refine C.within (.analysis ht.copy hty)
    (C.bind (C.note (.checking ht.copy)) fun ρ₁ _ _ hsub₁ _ => ?_)
  -- related terms are the same literal, so both sides stop here or neither does
  rw [← ht.literal?_eq]
  cases hliteral : literal? t with
  | some r => exact C.pure (C.builtins.literal hliteral ρ₁)
  | none =>
    refine C.bind (C.reduce depth (hty.mono hsub₁)) fun ρ₂ tyHead tyHead' hsub₂ hhead => ?_
    have hsub : Subrelation ρ ρ₂ := fun h => hsub₂ (hsub₁ h)
    replace hctx := hctx.mono hsub
    replace ht := ht.mono hsub
    replace hty := hty.mono hsub
    refine C.comparable fun hρ => ?_
    -- the expected type is the universe on both sides or on neither
    have htyp : tyHead = .typ ↔ tyHead' = .typ := by
      cases hhead <;> simp
    simp only [htyp]
    split
    · exact C.pure ⟨rfl, .typ⟩
    · have hhead' := hhead.copy
      have hcopy := ht.copy
      have infers := C.infer_and_compare ih hctx ht hty
      cases ht.sameNode with
      | @lam n er b b' hb =>
        cases hhead with
        | @all _ _ bind bind' _ _ hbind htyBody =>
          refine C.bind (C.fresh n) fun ρ₃ x x' hsub₃ hx => ?_
          refine C.comparable fun hρ₃ => ?_
          have harg : (Term.ann true (.var x) bind).Parallel L ρ₃ (.ann true (.var x') bind') :=
            .ann (.var hρ₃.faithful hx) (hbind.mono hsub₃)
          have hfunc : (Term.ann true (.lam n er b) ty).Copy L ρ₃ (.ann true (.lam n er b') ty') :=
            .ann (hcopy.mono hsub₃) (hty.mono hsub₃)
          -- the type of the body is opened with the function itself and its parameter
          have hbodyTy := (htyBody.mono hsub₃).instantiate_two hfunc harg.copy
          refine C.bind (ih.check ((hctx.mono hsub₃).extend hx (hbind.mono hsub₃))
            ((hb.mono hsub₃).instantiate_one harg) hbodyTy) fun ρ₄ r r' hsub₄ hr => ?_
          have hty₄ := (hty.mono hsub₃).mono hsub₄
          refine C.bind (C.classify depth hty₄) fun ρ₅ prim prim' hsub₅ hprim => ?_
          cases hprim
          cases prim with
          | some p => exact C.pure ⟨by rw [hr.code], hty₄.mono hsub₅⟩
          | none => exact C.pure ⟨by rw [hr.code], hty₄.mono hsub₅⟩
        | _ => exact C.raise (.notAFunctionType hcopy hhead')
      | letIn he hb =>
        exact C.elaborateLet hctx he hb (ih.infer hctx he)
          fun hsub hctx ht => ih.check hctx ht (hty.mono hsub)
      | loc he => exact ih.check hctx he hty
      | _ => exact infers

theorem within_depth (C : IsLockstep L env env' rel) (depth : Nat) :
    Within L env env' rel depth := by
  induction depth with
  | zero => exact ⟨fun _ _ => C.giveUp, fun _ _ _ => C.giveUp⟩
  | succ depth ih => exact ⟨C.infer_succ ih, C.check_succ ih⟩

/-- One definition, whose name is known. -/
theorem definition (C : IsLockstep L env env' rel) (depth : Nat) {name : DefName}
    (hname : L.known name) :
    rel Code ρ (fun _ c c' => c = c') (Elaborator.definition env depth name)
      (Elaborator.definition env' depth name) := by
  refine C.within (.definition name) (C.comparable fun hρ => ?_)
  rcases none_or_some_of_rel (hρ.find? name hname) with ⟨hd, hd'⟩ | ⟨d, d', hd, hd', hcopy⟩
  · rw [hd, hd']
    exact C.raise (.undefinedReference name)
  · rw [hd, hd']
    refine C.bind (C.note (.definition name)) fun ρ₁ _ _ hsub _ => ?_
    -- locations are removed before the check, and that makes the copies parallel
    have hbody := Term.Parallel.of_unlocate hρ.faithful hcopy.body
    have hty := Term.Parallel.of_unlocate hρ.faithful hcopy.ty
    refine C.bind ((C.within_depth depth).check (.empty L ρ₁) (hbody.mono hsub)
      (hty.copy.mono hsub)) fun _ r r' _ hr => C.pure hr.code

end IsLockstep

end Elaborator

end SelfTypes
