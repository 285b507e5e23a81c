import SelfTypes.Proofs.Elaboration.Derivation
import SelfTypes.Proofs.Kernel.Alike

/-!
# The elaborator does not look at names

Two runs of the elaborator are compared, on terms and tables that differ in names only. If both
succeed, they have made the same decisions: the types that are found are alike, and so is the code.
The variables that the runs have issued so far are paired, and more pairs are added as the runs go
on; `Agrees P Q x x'` says that two computations that start with the pairs `P` come to values that
`Q` relates, if they come to values. Main statement: `Elaborator.alike_of_definition`.
-/

namespace SelfTypes

/-! ## Code, contexts and results -/

/-- The code has the same nodes, with any names of variables. -/
inductive Code.Alike : Code → Code → Prop where
  | var (n n' : BinderName) : Alike (.var n) (.var n')
  | ref (n : DefName) : Alike (.ref n) (.ref n)
  | nul : Alike .nul .nul
  | lam {n n' : BinderName} {b b' : Code} : Alike b b' → Alike (.lam n b) (.lam n' b')
  | app {f f' a a' : Code} : Alike f f' → Alike a a' → Alike (.app f a) (.app f' a')
  | letIn {n n' : BinderName} {e e' b b' : Code} :
      Alike e e' → Alike b b' → Alike (.letIn n e b) (.letIn n' e' b')
  | elim {p : Primitive} {v v' : Code} : Alike v v' → Alike (.elim p v) (.elim p v')
  | inst {p : Primitive} {f f' : Code} : Alike f f' → Alike (.inst p f) (.inst p f')
  | chr (c : Char) : Alike (.chr c) (.chr c)
  | str (s : String) : Alike (.str s) (.str s)

/-- The variables of the contexts are paired in order, and have types that are alike. -/
def Context.Alike (P : List (VarId × VarId)) (ctx ctx' : Context) : Prop :=
  List.Forall₂ (fun p p' => Paired P p.1 p'.1 ∧ p.2.Alike (Paired P) p'.2)
    ctx.bindings ctx'.bindings

/-- Variables that are related as those of two contexts are, in order, have related types, or no
types. -/
theorem Context.rel_find? {ρ : Var → Var → Prop} {R : Term → Term → Prop} {ctx ctx' : Context}
    (hρ : ∀ {x x' y y' : Var}, ρ x x' → ρ y y' → (x.id = y.id ↔ x'.id = y'.id))
    (h : List.Forall₂ (fun p p' => ρ p.1 p'.1 ∧ R p.2 p'.2) ctx.bindings ctx'.bindings)
    {x x' : Var} (hx : ρ x x') : Option.Rel R (ctx.find? x.id) (ctx'.find? x'.id) := by
  unfold Context.find?
  generalize ctx.bindings = bindings, ctx'.bindings = bindings' at h ⊢
  induction h with
  | nil => exact .none
  | @cons p p' _ _ hp _ ih =>
    -- both sides come to the variable at the same place, or pass it over together
    have hid : p.1.id = x.id ↔ p'.1.id = x'.id := hρ hp.1 hx
    by_cases hfound : p.1.id = x.id
    · simpa [List.find?_cons, hfound, hid.1 hfound] using hp.2
    · have hfound' : ¬ p'.1.id = x'.id := fun h => hfound (hid.2 h)
      simpa [List.find?_cons, hfound, hfound'] using ih

namespace Context.Alike

variable {P P' : List (VarId × VarId)} {ctx ctx' : Context} {x x' : Var} {ty ty' : Term}

theorem empty (P : List (VarId × VarId)) : Context.empty.Alike P .empty :=
  .nil

theorem weaken (h : ctx.Alike P ctx') (hsub : P ⊆ P') : ctx.Alike P' ctx' :=
  h.imp fun _ _ h => ⟨hsub h.1, h.2.weaken hsub⟩

theorem extend (h : ctx.Alike P ctx') (hx : Paired P x x') (hty : ty.Alike (Paired P) ty') :
    (ctx.extend x ty).Alike P (ctx'.extend x' ty') :=
  .cons ⟨hx, hty⟩ h

/-- Paired variables have types that are alike, or no types. -/
theorem find? (hP : OneToOne P) (h : ctx.Alike P ctx') (hx : Paired P x x') :
    Option.Rel (Term.Alike (Paired P)) (ctx.find? x.id) (ctx'.find? x'.id) :=
  rel_find? (fun hy hz => hP.id_eq_iff hy hz) h hx

end Context.Alike

/-- The code and the type are alike. -/
structure Elaborated.Alike (P : List (VarId × VarId)) (r r' : Elaborated) : Prop where
  code : r.code.Alike r'.code
  ty : r.ty.Alike (Paired P) r'.ty

/-- The tables differ in names only, and types are compared on both sides or on neither. -/
structure Environment.Alike (env env' : Environment) : Prop where
  table : env.table.Alike env'.table
  subsumption : env.subsumption = env'.subsumption

/-- A literal has no names. -/
theorem alike_of_literal? {t : Term} {r : Elaborated} (h : Elaborator.literal? t = some r)
    (P : List (VarId × VarId)) : r.Alike P r := by
  obtain ⟨_, -, rfl⟩ | ⟨_, -, rfl⟩ := Elaborator.exists_of_literal? h
  · exact ⟨.chr _, .ref _⟩
  · exact ⟨.str _, .ref _⟩

namespace Elaborator

/-! ## Two computations -/

/-- From states in which the variables issued so far are paired, the computations come to values
that are related, where they both come to a value; more pairs may have been added by then. -/
def Agrees {α : Type} (P : List (VarId × VarId)) (Q : List (VarId × VarId) → α → α → Prop)
    (x x' : ElaboratorM α) : Prop :=
  ∀ e e' a a' s s', Kernel.Joined P e.kernel e'.kernel → x e = .ok a s → x' e' = .ok a' s' →
    ∃ P', P ⊆ P' ∧ Kernel.Joined P' s.kernel s'.kernel ∧ Q P' a a'

namespace Agrees

variable {α β : Type} {P : List (VarId × VarId)} {Q : List (VarId × VarId) → α → α → Prop}
  {R : List (VarId × VarId) → β → β → Prop} {x x' : ElaboratorM α}

/-- Pairs that two states have in common are one to one. -/
theorem of_oneToOne (h : OneToOne P → Agrees P Q x x') : Agrees P Q x x' :=
  fun _ _ _ _ _ _ hP => h hP.toOneToOne _ _ _ _ _ _ hP

theorem pure {a a' : α} (h : Q P a a') :
    Agrees P Q (Pure.pure a : ElaboratorM α) (Pure.pure a') := by
  intro e e' b b' s s' hP hb hb'
  cases hb
  cases hb'
  exact ⟨P, List.Subset.refl P, hP, h⟩

theorem raise_left (cause : Cause) : Agrees P Q (raise cause) x' := by
  intro e e' a a' s s' _ h
  cases h

theorem raise_right (cause : Cause) : Agrees P Q x (raise cause) := by
  intro e e' a a' s s' _ _ h'
  cases h'

theorem giveUp_left : Agrees P Q giveUp x' := by
  intro e e' a a' s s' _ h
  cases h

theorem giveUp_right : Agrees P Q x giveUp := by
  intro e e' a a' s s' _ _ h'
  cases h'

theorem bind {f f' : α → ElaboratorM β} (hx : Agrees P Q x x')
    (hf : ∀ P' a a', P ⊆ P' → Q P' a a' → Agrees P' R (f a) (f' a')) :
    Agrees P R (x >>= f) (x' >>= f') := by
  intro e e' b b' s s' hP h h'
  obtain ⟨a, e₁, ha, hb⟩ := EStateM.ok_of_bind_ok h
  obtain ⟨a', e₁', ha', hb'⟩ := EStateM.ok_of_bind_ok h'
  obtain ⟨P₁, hsub₁, hP₁, hQ⟩ := hx _ _ _ _ _ _ hP ha ha'
  obtain ⟨P₂, hsub₂, hP₂, hR⟩ := hf P₁ a a' hsub₁ hQ _ _ _ _ _ _ hP₁ hb hb'
  exact ⟨P₂, fun _ hp => hsub₂ (hsub₁ hp), hP₂, hR⟩

theorem within (task task' : Task) (hx : Agrees P Q x x') :
    Agrees P Q (within task x) (within task' x') := by
  intro e e' a a' s s' hP h h'
  obtain ⟨e₁, h₁, hkernel⟩ := ok_of_within h
  obtain ⟨e₁', h₁', hkernel'⟩ := ok_of_within h'
  rw [← hkernel, ← hkernel']
  exact hx { e with stack := task :: e.stack } { e' with stack := task' :: e'.stack } a a' e₁ e₁'
    hP h₁ h₁'

/-- Actions of the kernel that issue no variables which matter later on. -/
theorem lift {S : α → α → Prop} {x x' : KernelM α} (hx : Progresses Kernel.Follows x)
    (hx' : Progresses Kernel.Follows x')
    (h : ∀ k k' a a' s s', Kernel.Joined P k k' → x k = .ok a s → x' k' = .ok a' s' → S a a') :
    Agrees P (fun P' a a' => P' = P ∧ S a a') (lift x) (lift x') := by
  intro e e' a a' s s' hP ha ha'
  have hk := ok_of_lift ha
  have hk' := ok_of_lift ha'
  exact ⟨P, List.Subset.refl P, hP.follows (hx.of_ok hk) (hx'.of_ok hk'), rfl,
    h _ _ _ _ _ _ hP hk hk'⟩

theorem bind_lift {S : α → α → Prop} {f f' : α → ElaboratorM β}
    (hx : Agrees P (fun P' a a' => P' = P ∧ S a a') x x')
    (hf : ∀ a a', S a a' → Agrees P R (f a) (f' a')) : Agrees P R (x >>= f) (x' >>= f') := by
  refine hx.bind fun P' a a' _ h => ?_
  obtain ⟨rfl, hS⟩ := h
  exact hf a a' hS

theorem note (event event' : Event) :
    Agrees P (fun P' _ _ => P' = P ∧ True) (note event) (note event') :=
  lift (Kernel.progresses_note event) (Kernel.progresses_note event') fun _ _ _ _ _ _ _ _ _ =>
    trivial

/-- The variables that two runs issue at the same time are one more pair. -/
theorem fresh (n n' : BinderName) :
    Agrees P (fun P' x x' => P' = (x.id, x'.id) :: P) (fresh n) (fresh n') := by
  intro e e' x x' s s' hP h h'
  exact ⟨_, List.subset_cons_self _ _, hP.fresh (ok_of_lift h) (ok_of_lift h'), rfl⟩

variable {env env' : Environment} {depth depth' : Nat}

theorem reduce (henv : env.Alike env') (hfree : env.table.IsVarFree) {t t' : Term}
    (ht : t.Alike (Paired P) t') :
    Agrees P (fun P' w w' => P' = P ∧ w.Alike (Paired P) w') (reduce env depth t)
      (reduce env' depth' t') :=
  lift (Kernel.progresses_reduce _ _ _) (Kernel.progresses_reduce _ _ _)
    fun _ _ _ _ _ _ _ h h' => Kernel.reduce_alike henv.table hfree ht h h'

theorem equal (henv : env.Alike env') (hfree : env.table.IsVarFree) {a a' b b' : Term}
    (ha : a.Alike (Paired P) a') (hb : b.Alike (Paired P) b') :
    Agrees P (fun P' r r' => P' = P ∧ r = r') (equal env depth a b) (equal env' depth' a' b') :=
  lift (Kernel.progresses_equal _ _ _ _) (Kernel.progresses_equal _ _ _ _)
    fun _ _ _ _ _ _ hP h h' => Kernel.equal_alike henv.table hfree hP ha hb h h'

theorem classify (henv : env.Alike env') (hfree : env.table.IsVarFree) {ty ty' : Term}
    (hty : ty.Alike (Paired P) ty') :
    Agrees P (fun P' r r' => P' = P ∧ r = r') (classify env depth ty)
      (classify env' depth' ty') :=
  lift (Kernel.progresses_classify _ _ _) (Kernel.progresses_classify _ _ _)
    fun _ _ _ _ _ _ hP h h' => Kernel.classify_alike henv.table hfree hP hty h h'

/-- Local definitions, given how their values are inferred and how their bodies are elaborated. -/
theorem elaborateLet {ctx ctx' : Context} {n n' : BinderName} {dup : Bool} {e e' b b' : Term}
    {value value' : ElaboratorM Elaborated}
    {onBody onBody' : Context → Term → ElaboratorM Elaborated}
    (hctx : ctx.Alike P ctx') (he : e.Alike (Paired P) e') (hb : b.Alike (Paired P) b')
    (hvalue : Agrees P Elaborated.Alike value value')
    (hbody : ∀ P' ctx ctx' t t', P ⊆ P' → ctx.Alike P' ctx' → t.Alike (Paired P') t' →
      Agrees P' Elaborated.Alike (onBody ctx t) (onBody' ctx' t')) :
    Agrees P Elaborated.Alike (elaborateLet ctx n dup e b value onBody)
      (elaborateLet ctx' n' dup e' b' value' onBody') := by
  refine hvalue.bind fun P₁ r r' hsub₁ hr => (fresh n n').bind fun P₂ x x' hsub₂ hP₂ => ?_
  -- the pairs only grow, so what was alike stays alike
  have hsub : P ⊆ P₂ := fun _ hp => hsub₂ (hsub₁ hp)
  have hx : Paired P₂ x x' := hP₂ ▸ List.mem_cons_self
  have hty := hr.ty.weaken hsub₂
  have hstandIn : (Term.ann true (if dup then .var x else e) r.ty).Alike (Paired P₂)
      (.ann true (if dup then .var x' else e') r'.ty) := by
    -- the variable stands for a shared value, and the value itself for an inlined one
    cases dup with
    | true => exact .ann (.var hx) hty
    | false => exact .ann (he.weaken hsub) hty
  refine (hbody P₂ _ _ _ _ hsub ((hctx.weaken hsub).extend hx hty)
    ((hb.weaken hsub).instantiate_one hstandIn)).bind fun P₃ q q' _ hq => .pure ?_
  cases dup with
  | true => exact ⟨.letIn hr.code hq.code, hq.ty⟩
  | false => exact ⟨hq.code, hq.ty⟩

end Agrees

/-! ## Rules -/

section Rules

variable {env env' : Environment} {depth depth' : Nat} {P : List (VarId × VarId)}
  {ctx ctx' : Context} {t t' ty ty' : Term}

/-- Runs within these depths agree on whatever is alike. -/
structure AgreesWithin (env env' : Environment) (depth depth' : Nat) : Prop where
  infer : ∀ {P ctx ctx' t t'}, ctx.Alike P ctx' → t.Alike (Paired P) t' →
    Agrees P Elaborated.Alike (infer env depth ctx t) (infer env' depth' ctx' t')
  check : ∀ {P ctx ctx' t t' ty ty'}, ctx.Alike P ctx' → t.Alike (Paired P) t' →
    ty.Alike (Paired P) ty' →
    Agrees P Elaborated.Alike (check env depth ctx t ty) (check env' depth' ctx' t' ty')

/-- One level of `infer`, from the levels below. -/
theorem agrees_infer_succ (henv : env.Alike env') (hfree : env.table.IsVarFree)
    (ih : AgreesWithin env env' depth depth') (hctx : ctx.Alike P ctx')
    (ht : t.Alike (Paired P) t') :
    Agrees P Elaborated.Alike (infer env (depth + 1) ctx t) (infer env' (depth' + 1) ctx' t') := by
  refine .of_oneToOne fun hP => ?_
  simp only [infer]
  refine .within _ _ ((Agrees.note _ _).bind_lift fun _ _ _ => ?_)
  cases ht with
  -- these raise an error, and a failure on either side agrees with anything
  | bound => exact .raise_left _
  | typ | all => exact .pure ⟨.nul, .typ⟩
  | lam => exact .raise_left _
  | @var x x' hx =>
    have hfind := hctx.find? hP hx
    simp only
    cases hty : ctx.find? x.id with
    | none => exact .raise_left _
    | some ty =>
      rw [hty] at hfind
      cases hty' : ctx'.find? x'.id with
      | none => exact .raise_right _
      | some ty' =>
        rw [hty'] at hfind
        cases hfind with
        | some halike => exact .pure ⟨.var _ _, halike⟩
  | ref name =>
    simp only
    cases hd : env.table.find? name with
    | none => exact .raise_left _
    | some d =>
      obtain ⟨d', hd', halike⟩ := henv.table.exists_find? hd
      -- types of the table have no variables
      have hdfree := (hfree d (List.mem_of_find?_eq_some hd)).1
      rw [hd']
      exact .pure ⟨.ref name, halike.ty.of_freeIds_eq_nil hdfree⟩
  | @app f f' a a' er hf ha =>
    refine (ih.infer hctx hf).bind fun P₁ func func' hsub hfunc => ?_
    refine (Agrees.reduce henv hfree hfunc.ty).bind_lift fun funcTy funcTy' hty => ?_
    -- the whole type is kept, as the mark and the annotation are made from it
    have hfuncTy := hty
    cases hty with
    | all hbind hbody =>
      refine (ih.check (hctx.weaken hsub) (ha.weaken hsub) hbind).bind
        fun P₂ arg arg' hsub₂ harg => ?_
      refine (Agrees.classify henv hfree (hfuncTy.weaken hsub₂)).bind_lift
        fun prim prim' hprim => ?_
      cases hprim
      have hcallee : (calleeCode prim func.code).Alike (calleeCode prim func'.code) := by
        cases prim with
        | none => exact hfunc.code
        | some p => exact .elim hfunc.code
      -- the flags are the same on both sides, so both applications are left or both are gone
      have hcode : (appCode er (calleeCode prim func.code) arg.code).Alike
          (appCode er (calleeCode prim func'.code) arg'.code) := by
        cases er with
        | true => exact hcallee
        | false => exact .app hcallee harg.code
      refine .pure ⟨hcode, ?_⟩
      exact (hbody.weaken hsub₂).instantiate_two
        (.ann ((hf.weaken hsub).weaken hsub₂) (hfuncTy.weaken hsub₂))
        (.ann ((ha.weaken hsub).weaken hsub₂) (hbind.weaken hsub₂))
    | _ => exact .raise_left _
  | letIn he hb =>
    exact .elaborateLet hctx he hb (ih.infer hctx he) fun _ _ _ _ _ _ hctx ht => ih.infer hctx ht
  | ann he hty => exact ih.check hctx he hty
  | loc he => exact ih.infer hctx he

/-- One level of `check`, from the levels below. -/
theorem agrees_check_succ (henv : env.Alike env') (hfree : env.table.IsVarFree)
    (ih : AgreesWithin env env' depth depth') (hctx : ctx.Alike P ctx')
    (ht : t.Alike (Paired P) t') (hty : ty.Alike (Paired P) ty') :
    Agrees P Elaborated.Alike (check env (depth + 1) ctx t ty)
      (check env' (depth' + 1) ctx' t' ty') := by
  -- a term without a rule of its own is inferred, and its type compared
  have infers : Agrees P Elaborated.Alike
      (do
        let result ← infer env depth ctx t
        if env.subsumption then
          if ← equal env depth result.ty ty then return ⟨result.code, ty⟩
          else raise (.mismatch ty result.ty)
        else return ⟨result.code, ty⟩)
      (do
        let result ← infer env' depth' ctx' t'
        if env'.subsumption then
          if ← equal env' depth' result.ty ty' then return ⟨result.code, ty'⟩
          else raise (.mismatch ty' result.ty)
        else return ⟨result.code, ty'⟩) := by
    refine (ih.infer hctx ht).bind fun P₁ r r' hsub hr => ?_
    have hresult : Elaborated.Alike P₁ ⟨r.code, ty⟩ ⟨r'.code, ty'⟩ := ⟨hr.code, hty.weaken hsub⟩
    rw [henv.subsumption]
    split
    · refine (Agrees.equal henv hfree hr.ty (hty.weaken hsub)).bind_lift fun same same' hsame => ?_
      cases hsame
      cases same with
      | true => exact .pure hresult
      | false => exact .raise_left _
    · exact .pure hresult
  simp only [check]
  refine .within _ _ ((Agrees.note _ _).bind_lift fun _ _ _ => ?_)
  rw [← ht.literal?_eq]
  cases hliteral : literal? t with
  | some r => exact .pure (alike_of_literal? hliteral P)
  | none =>
    refine (Agrees.reduce henv hfree hty).bind_lift fun tyHead tyHead' hhead => ?_
    -- one head is the universe exactly if the other is, so both sides take the same branch
    have htyp : tyHead = .typ ↔ tyHead' = .typ := by
      cases hhead <;> simp
    simp only [htyp]
    split
    · exact .pure ⟨.nul, .typ⟩
    · cases ht with
      | @lam n n' er b b' hb =>
        cases hhead with
        | @all _ _ _ _ bind bind' _ _ hbind htyBody =>
          refine (Agrees.fresh n n').bind fun P₁ x x' hsub hP₁ => ?_
          have hx : Paired P₁ x x' := hP₁ ▸ List.mem_cons_self
          have harg : Term.Alike (Paired P₁) (.ann true (.var x) bind)
              (.ann true (.var x') bind') :=
            .ann (.var hx) (hbind.weaken hsub)
          -- the function stands for itself in the type of its body
          have hself : Term.Alike (Paired P₁) (.ann true (.lam n er b) ty)
              (.ann true (.lam n' er b') ty') :=
            .ann (.lam (hb.weaken hsub)) (hty.weaken hsub)
          refine (ih.check ((hctx.weaken hsub).extend hx (hbind.weaken hsub))
            ((hb.weaken hsub).instantiate_one harg)
            ((htyBody.weaken hsub).instantiate_two hself harg)).bind fun P₂ r r' hsub₂ hr => ?_
          have hty₂ := (hty.weaken hsub).weaken hsub₂
          refine (Agrees.classify henv hfree hty₂).bind_lift fun prim prim' hprim => ?_
          cases hprim
          -- the names of the binders may differ, and nothing else of the code
          have hfunc : (lamCode n er r.code).Alike (lamCode n' er r'.code) := by
            cases er with
            | true => exact hr.code
            | false => exact .lam hr.code
          cases prim with
          | some p => exact .pure ⟨.inst hfunc, hty₂⟩
          | none => exact .pure ⟨hfunc, hty₂⟩
        | _ => exact .raise_left _
      | letIn he hb =>
        exact .elaborateLet hctx he hb (ih.infer hctx he)
          fun _ _ _ _ _ hsub hctx ht => ih.check hctx ht (hty.weaken hsub)
      | loc he => exact ih.check hctx he hty
      | _ => exact infers

theorem agreesWithin (henv : env.Alike env') (hfree : env.table.IsVarFree) (depth depth' : Nat) :
    AgreesWithin env env' depth depth' := by
  induction depth generalizing depth' with
  | zero => exact ⟨fun _ _ => .giveUp_left, fun _ _ _ => .giveUp_left⟩
  | succ depth ih =>
    cases depth' with
    | zero => exact ⟨fun _ _ => .giveUp_right, fun _ _ _ => .giveUp_right⟩
    | succ depth' =>
      exact ⟨agrees_infer_succ henv hfree (ih depth'), agrees_check_succ henv hfree (ih depth')⟩

/-- One definition in both tables. -/
theorem agrees_definition (henv : env.Alike env') (hfree : env.table.IsVarFree)
    (depth depth' : Nat) (name : DefName) :
    Agrees P (fun _ c c' => c.Alike c') (definition env depth name)
      (definition env' depth' name) := by
  refine .within _ _ ?_
  cases hd : env.table.find? name with
  | none => exact .raise_left _
  | some d =>
    obtain ⟨d', hd', halike⟩ := henv.table.exists_find? hd
    obtain ⟨hty, hbody⟩ := hfree d (List.mem_of_find?_eq_some hd)
    rw [hd']
    refine (Agrees.note _ _).bind_lift fun _ _ _ => ?_
    -- bodies and types of the table have no variables, so no pairs are needed to begin with
    have hcheck := (agreesWithin henv hfree depth depth').check (.empty P)
      (halike.body.of_freeIds_eq_nil hbody).unlocate
      (halike.ty.of_freeIds_eq_nil hty).unlocate
    exact hcheck.bind fun _ _ _ _ hr => .pure hr.code

end Rules

/-- Names decide nothing: a definition that is accepted in two tables that differ in the names of
binders only has code that differs in names only. -/
theorem alike_of_definition {env env' : Environment} (henv : env.Alike env')
    (hfree : env.table.IsVarFree) {depth depth' : Nat} {name : DefName} {e e' s s' : Elaborator}
    {code code' : Code} (h : definition env depth name e = .ok code s)
    (h' : definition env' depth' name e' = .ok code' s') : code.Alike code' := by
  obtain ⟨-, -, -, halike⟩ := agrees_definition henv hfree depth depth' name _ _ _ _ _ _
    (Kernel.Joined.empty _ _) h h'
  exact halike

end Elaborator

end SelfTypes
