import SelfTypes.Proofs.Elaboration.Agreement
import SelfTypes.Proofs.Elaboration.Retyping
import SelfTypes.Proofs.Kernel.Substitutivity

/-!
# Local definitions that are inlined

A local definition that is not to be kept is compiled like its body with the value in the places of
its variable, as far as both compile. The value is checked against its own type where it is inlined,
so this fails for what is checked differently from what is inferred: a literal, which is compiled as
such only where it is checked, and a type, which is only looked at where it is inferred. `Term.uses`
and `Term.KeepsLiterals` exclude the places in which this makes a difference, and
`Elaborator.LeavesOut` says when parts of the code are left out. Main statement:
`Elaborator.inlined_transparent`.
-/

namespace SelfTypes

/-! ## Checking and inferring -/

/-- Whether the type of the term can be found, as far as its outcome shows. -/
def Term.showsType : Term → Bool
  | lam .. => false
  | letIn _ _ _ b => b.showsType
  | loc _ e => e.showsType
  | _ => true

theorem Term.showsType_openAt {values : List Term} (hvalues : ∀ v ∈ values, v.isAnn = true)
    (t : Term) (depth : Nat) : (t.openAt values depth).showsType = t.showsType := by
  induction t generalizing depth with
  | bound i =>
    obtain ⟨j, hj⟩ | ⟨done, e, ty, hann⟩ := openIndex_of_isAnn hvalues depth i
    · simp [hj, showsType]
    · simp [hann, showsType]
  | letIn _ _ _ _ _ ih => exact ih (depth + 1)
  | loc _ _ ih => exact ih depth
  | _ => rfl

theorem Term.showsType_instantiate (b : Term) (dup : Bool) (x : Var) (e ty : Term) :
    (b.instantiate [letStandIn dup x e ty]).showsType = b.showsType := by
  show (b.openAt [letStandIn dup x e ty] 0).showsType = _
  exact showsType_openAt (List.forall_mem_singleton.2 rfl) b 0

namespace Judges

variable {env : Environment} {kept : List VarId} {ctx : Context} {t ty : Term} {r : Elaborated}

theorem showsType (h : Judges env kept ctx t .synthesis r) : t.showsType = true := by
  generalize hmode : Mode.synthesis = mode at h
  induction h with
  | letIn _ _ _ _ _ ih =>
    rw [Term.showsType_instantiate] at ih
    exact ih hmode
  | loc _ _ ih => exact ih hmode
  | var | ref | typ | all | app | ann => rfl
  | literal | type | lam | shown => cases hmode

/-- A term that is checked, but no literal, comes to the expected type, and its own type can be
found with the same code. -/
theorem inferable (h : Judges env kept ctx t (.analysis ty) r)
    (ht : Elaborator.literal? t.outcome = none) (hty : ¬ WeakHead env.table ty .typ) :
    r.ty = ty ∧ (t.showsType = true → ∃ found, Judges env kept ctx t .synthesis found ∧
      found.code = r.code) := by
  -- the expected type is an index of the judgement, so it is generalised before the induction
  generalize hmode : Mode.analysis ty = mode at h
  induction h with
  | var | ref | typ | all | app | ann => cases hmode
  -- what a local definition or a location comes to decides, and the rule is put back on top
  | letIn _ hvalue hx _ _ ih =>
    rw [Term.literal?_outcome_instantiate, Term.showsType_instantiate] at ih
    obtain ⟨hr, hfound⟩ := ih ht hmode
    refine ⟨hr, fun hshows => ?_⟩
    obtain ⟨found, hfound, hcode⟩ := hfound hshows
    exact ⟨_, .letIn trivial hvalue hx hfound, hcode ▸ rfl⟩
  | loc _ _ ih =>
    obtain ⟨hr, hfound⟩ := ih ht hmode
    refine ⟨hr, fun hshows => ?_⟩
    obtain ⟨found, hfound, hcode⟩ := hfound hshows
    exact ⟨found, .loc trivial hfound, hcode⟩
  | literal hliteral =>
    rw [Term.literal?_outcome_of_some hliteral] at ht
    cases ht
  | type _ htyp =>
    cases hmode
    exact absurd htyp hty
  | lam =>
    cases hmode
    exact ⟨rfl, nofun⟩
  | shown _ _ hfound _ =>
    cases hmode
    exact ⟨rfl, fun _ => ⟨_, hfound, rfl⟩⟩

/-- A term that comes to a literal is accepted at every other type as well. -/
theorem at_other_type (h : Judges env kept ctx t (.analysis ty) r) {lit : Elaborated}
    (ht : Elaborator.literal? t.outcome = some lit) (hty : ¬ WeakHead env.table ty .typ)
    {ty' : Term} (hty' : ¬ WeakHead env.table ty' .typ) :
    Judges env kept ctx t (.analysis ty') r := by
  generalize hmode : Mode.analysis ty = mode at h
  induction h with
  | var | ref | typ | all | app | ann => cases hmode
  | letIn hlooks hvalue hx _ _ ih =>
    rw [Term.literal?_outcome_instantiate] at ih
    cases hmode
    exact .letIn ⟨hlooks.1, hty'⟩ hvalue hx (ih ht rfl)
  | loc hlooks _ ih =>
    cases hmode
    exact .loc ⟨hlooks.1, hty'⟩ (ih ht rfl)
  | literal hliteral => exact .literal hliteral
  | type _ htyp =>
    cases hmode
    exact absurd htyp hty
  -- a function is no literal, and what it comes to is the function itself
  | @lam _ name _ _ er body =>
    exact absurd (show Elaborator.literal? (.lam name er body) = some lit from ht)
      (Term.literal?_ne_some_of_isPlain rfl lit)
  | @shown ctx t _ _ hrule hlooks =>
    -- without a rule of its own the term is what it comes to, and no literal was seen in it
    have hself : t.outcome = t := by
      cases t with
      | letIn | loc => cases hrule
      | _ => rfl
    cases hmode
    rw [hself, hlooks.1] at ht
    cases ht

end Judges

/-! ## The value and its annotation -/

/-- A mode is its own counterpart for a term that is elaborated by itself. -/
theorem Mode.expects_use (table : Table) (mode : Mode) : mode.use.Expects table mode mode := by
  cases mode with
  | synthesis => exact .synthesis
  | analysis ty => exact .analysis nofun (.refl table ty)

namespace Inlining

variable {s : Inlining}

/-- What is known of a value that is inlined with the type that was found for it. -/
structure IsInferred (s : Inlining) : Prop extends s.IsProper where
  kept : ∀ id ∈ s.value.freeIds, id ∈ s.kept
  judges : ∃ code, Judges s.env s.kept s.ctx s.value .synthesis ⟨code, s.ty⟩
  outcome : ∀ u, s.allows u → u ≠ .checked → Elaborator.literal? s.value.outcome = none
  literal : (Elaborator.literal? s.value).isSome → s.blanks
  type : WeakHead s.env.table s.ty .typ →
    (s.allows .inferred ∨ s.env.subsumption = false) → s.blanks

namespace IsInferred

variable {ctx ctx' : Context} {u : Use} {r r' : Elaborated} {ty ty' : Term}

theorem showsType (hs : s.IsInferred) : s.value.showsType = true := by
  obtain ⟨code, h⟩ := hs.judges
  exact h.showsType

/-- A value is no literal if more than its code is asked for. -/
theorem literal?_eq_none (hs : s.IsInferred) (hallows : s.allows u) (hu : u ≠ .checked) :
    Elaborator.literal? s.value = none := by
  refine Option.eq_none_iff_forall_ne_some.2 fun lit hlit => ?_
  have hnone := hs.outcome u hallows hu
  rw [Term.literal?_outcome_of_some hlit] at hnone
  cases hnone

/-- Wherever the type of the value is found, it resembles the one in the annotation. -/
theorem resembles (hs : s.IsInferred) (hctx : s.ctx.AgreesOn s.kept ctx)
    (h : Judges s.env s.kept ctx s.value .synthesis r) : Resembles s.env.table s.ty r.ty := by
  obtain ⟨code, hvalue⟩ := hs.judges
  exact (hvalue.agree_of_agreesOn hs.varFree hs.kept hctx h).2

theorem code_eq (hs : s.IsInferred) (hctx : s.ctx.AgreesOn s.kept ctx)
    (hctx' : s.ctx.AgreesOn s.kept ctx') {mode : Mode}
    (h : Judges s.env s.kept ctx s.value mode r) (h' : Judges s.env s.kept ctx' s.value mode r') :
    r.code = r'.code :=
  (h.agree_of_agreesOn hs.varFree hs.kept (fun id hid => (hctx id hid).symm.trans (hctx' id hid))
    h').1

/-- The type of the value is found, where its annotation stands otherwise. -/
theorem agree_of_synthesis (hs : s.IsInferred) (hallows : s.allows .inferred)
    (hctx : s.ctx.AgreesOn s.kept ctx) (hctx' : s.ctx.AgreesOn s.kept ctx')
    (h : Judges s.env s.kept ctx s.value (.analysis s.ty) r)
    (h' : Judges s.env s.kept ctx' s.value .synthesis r') : s.Agree .inferred r r' := by
  have hnone := hs.outcome _ hallows nofun
  have hty := hs.resembles hctx' h'
  by_cases htyp : WeakHead s.env.table s.ty .typ
  · rw [h.eq_of_universe (hs.literal?_eq_none hallows nofun) htyp]
    have huniverse : IsUniverse s.env.table s.ty := ⟨hs.ty.bare, htyp⟩
    exact ⟨.blank (hs.type htyp (.inl hallows)),
      fun _ => .universes (.typ _) (hty.isUniverse hs.varFree huniverse)⟩
  · obtain ⟨hr, hfound⟩ := h.inferable hnone htyp
    obtain ⟨found, hfound, hcode⟩ := hfound hs.showsType
    have hsame : r.code = r'.code := hcode.symm.trans (hs.code_eq hctx hctx' hfound h')
    exact ⟨hsame ▸ .same _, fun _ => hr ▸ hty⟩

/-- The value is checked against its own type, and against one that this is compared with. -/
theorem blanks_of_analysis (hs : s.IsInferred) (hctx : s.ctx.AgreesOn s.kept ctx)
    (hctx' : s.ctx.AgreesOn s.kept ctx') (hty : Resembles s.env.table ty ty')
    (hty' : ¬ WeakHead s.env.table ty' .typ)
    (h : Judges s.env s.kept ctx s.value (.analysis s.ty) r)
    (hconv : s.env.subsumption = true → Convertible s.env.table r.ty ty)
    (h' : Judges s.env s.kept ctx' s.value (.analysis ty') r') :
    r.code.Blanks s.blanks r'.code := by
  cases hliteral : Elaborator.literal? s.value with
  | some lit =>
    rw [h.eq_of_literal? hliteral, h'.eq_of_literal? hliteral]
    exact .same _
  | none =>
    by_cases htyp : WeakHead s.env.table s.ty .typ
    · obtain rfl := h.eq_of_universe hliteral htyp
      refine .blank (hs.type htyp (.inr (Bool.eq_false_iff.2 fun hsubsumption => ?_)))
      -- a comparison finds that a type is expected
      exact hty' (hty.weakHead_typ hs.varFree ((hconv hsubsumption).weakHead_typ_iff.1 .typ))
    · have hsame : r.code = r'.code := by
        -- a value that comes to a literal has no synthesised code: its type is changed instead
        cases houtcome : Elaborator.literal? s.value.outcome with
        | some lit => exact hs.code_eq hctx hctx' h (h'.at_other_type houtcome hty' htyp)
        | none =>
          obtain ⟨found, hfound, hcode⟩ := (h.inferable houtcome htyp).2 hs.showsType
          obtain ⟨found', hfound', hcode'⟩ := (h'.inferable houtcome hty').2 hs.showsType
          exact hcode.symm.trans ((hs.code_eq hctx hctx' hfound hfound').trans hcode')
      exact hsame ▸ .same _

/-- The value is checked, where its annotation is checked otherwise. -/
theorem agree_of_analysis (hs : s.IsInferred) (hallows : s.allows u)
    (hty : Resembles s.env.table ty ty') (hctx : s.ctx.AgreesOn s.kept ctx)
    (hctx' : s.ctx.AgreesOn s.kept ctx')
    (h : Judges s.env s.kept ctx (.ann true s.value s.ty) (.analysis ty) r)
    (h' : Judges s.env s.kept ctx' s.value (.analysis ty') r') : s.Agree u r r' := by
  have hliteral : Elaborator.literal? (.ann true s.value s.ty) = none :=
    Term.literal?_eq_none_of_isPlain rfl
  -- at a universe both sides are left out, except that a literal stands for itself
  by_cases htyp : WeakHead s.env.table ty .typ
  · rw [h.eq_of_universe hliteral htyp]
    cases hvalue : Elaborator.literal? s.value with
    | some lit =>
      refine ⟨.blank (hs.literal (by simp [hvalue])), fun hne => ?_⟩
      rw [hs.literal?_eq_none hallows hne] at hvalue
      cases hvalue
    | none =>
      rw [h'.eq_of_universe hvalue (hty.weakHead_typ hs.varFree htyp)]
      exact ⟨.same _, fun _ => .refl _ _⟩
  · have htyp' : ¬ WeakHead s.env.table ty' .typ := (hty.weakHead_typ_iff hs.varFree).not.1 htyp
    -- elsewhere an annotation has to show its type, which is checked under it
    obtain ⟨found, hfound, rfl, hconv⟩ := h.exists_found rfl ⟨hliteral, htyp⟩
    cases hfound with
    | ann hfound =>
      have hcode := hs.blanks_of_analysis hctx hctx' hty htyp' hfound hconv h'
      refine ⟨hcode, fun hne => ?_⟩
      exact (h'.inferable (hs.outcome u hallows hne) htyp').1 ▸ hty

theorem isSound (hs : s.IsInferred) : s.IsSound where
  toIsProper := hs.toIsProper
  literal {u lit} hallows hu hlit := by
    refine ⟨by_contra fun hne => ?_, hs.literal (by simp [hlit])⟩
    rw [hs.literal?_eq_none hallows hne] at hlit
    cases hlit
  agree hallows hexpects hctx hctx' h h' := by
    cases hexpects with
    | synthesis =>
      cases h with
      | ann h => exact hs.agree_of_synthesis hallows hctx hctx' h h'
    | analysis _ hty => exact hs.agree_of_analysis hallows hty hctx hctx' h h'

end IsInferred

end Inlining

/-! ## Runs -/

/-- The types that a mode mentions. -/
def Mode.types : Mode → List Term
  | synthesis => []
  | analysis ty => [ty]

/-- A kernel that is to issue none of the variables of the context, of a local definition and of the
expected type is fit for elaborating the definition, and for its body with the value inserted. -/
theorem Unissued.of_idsWith {ctx : Context} (hctx : ctx.WellScoped) {name : BinderName} {dup : Bool}
    {expr body : Term} {mode : Mode} {k : Kernel}
    (hissued : ∀ id ∈ ctx.idsWith (.letIn name dup expr body :: mode.types),
      ¬ k.supply.CanIssue id) :
    Unissued (expr.freeIds ++ body.freeIds) ctx k (.letIn name dup expr body) ∧
      Unissued (expr.freeIds ++ body.freeIds) ctx k (body.instantiate [expr]) ∧
      ∀ ty ∈ mode.types, k.Avoids ty := by
  have hterm : k.Avoids (.letIn name dup expr body) := fun id hid =>
    hissued id (Context.mem_idsWith_iff.2 (.inr ⟨_, List.mem_cons_self, hid⟩))
  have hcontext : ∀ p ∈ ctx.bindings, k.Avoids p.2 := fun p hp id hid =>
    hissued id (Context.mem_idsWith_iff.2 (.inl ((hctx.types p hp).2 id hid)))
  have hexpr : k.Avoids expr := hterm.of_subset fun _ hid => List.mem_append.2 (.inl hid)
  have hbody : k.Avoids body := hterm.of_subset fun _ hid => List.mem_append.2 (.inr hid)
  exact ⟨⟨hterm, hcontext, hterm⟩,
    ⟨hterm, hcontext, hbody.instantiate (List.forall_mem_singleton.2 hexpr)⟩,
    fun ty hty id hid =>
      hissued id (Context.mem_idsWith_iff.2 (.inr ⟨ty, List.mem_cons_of_mem _ hty, hid⟩))⟩

namespace Elaborator

variable {env : Environment} {depth : Nat} {kept : List VarId} {ctx : Context} {t : Term}
  {mode : Mode} {e e' : Elaborator} {r : Elaborated}

/-- Elaborates a term in either mode. -/
def elaborate (env : Environment) (depth : Nat) (ctx : Context) (t : Term) :
    Mode → ElaboratorM Elaborated
  | .synthesis => infer env depth ctx t
  | .analysis ty => check env depth ctx t ty

theorem judges_of_elaborate (hfree : env.table.IsVarFree) (ht : Unissued kept ctx e.kernel t)
    (hmode : ∀ ty ∈ mode.types, e.kernel.Avoids ty)
    (h : elaborate env depth ctx t mode e = .ok r e') : Judges env kept ctx t mode r := by
  cases mode with
  | synthesis => exact judges_of_infer hfree ht h
  | analysis ty => exact judges_of_check hfree ht (hmode ty (List.mem_singleton.2 rfl)) h

/-- A local definition is not looked at in the place of a type. Otherwise its value is inferred, and
its body elaborated with what stands for the variable. -/
theorem steps_of_letIn (hfree : env.table.IsVarFree) {name : BinderName} {dup : Bool}
    {expr body : Term} (ht : Unissued kept ctx e.kernel (.letIn name dup expr body))
    (hmode : ∀ ty ∈ mode.types, e.kernel.Avoids ty)
    (h : elaborate env depth ctx (.letIn name dup expr body) mode e = .ok r e') :
    (∃ ty, mode = .analysis ty ∧ WeakHead env.table ty .typ ∧ r = ⟨.nul, .typ⟩) ∨
      ∃ depth e₁ value e₂ x result, infer env depth ctx expr e₁ = .ok value e₂ ∧
        Unissued kept ctx e₁.kernel expr ∧ x.IsNew kept name (.letIn name dup expr body) ∧
        Judges env kept (ctx.extend x value.ty)
          (body.instantiate [letStandIn dup x expr value.ty]) mode result ∧
        r.code = letCode name dup value.code result.code := by
  cases depth with
  | zero => cases mode <;> cases h
  | succ depth =>
    cases mode with
    | synthesis =>
      simp only [elaborate, infer] at h
      obtain ⟨_, h, -⟩ := ok_of_within h
      obtain ⟨_, e₁, hnote, h⟩ := EStateM.ok_of_bind_ok h
      have hk₁ := follows_of_lift (Kernel.progresses_note _) hnote
      have ht₁ : Unissued kept ctx e₁.kernel _ := ht.follows hk₁
      obtain ⟨value, x, result, e₂, e₃, e₄, hvalue, hx, -, ht₃, hresult, rfl⟩ :=
        steps_of_elaborateLet hfree ht₁ h
      exact .inr ⟨depth, e₁, value, e₂, x, result, hvalue, ht₁.value, hx,
        judges_of_infer hfree ht₃ hresult, rfl⟩
    | analysis ty =>
      have hliteral : literal? (.letIn name dup expr body) = none :=
        Term.literal?_eq_none_of_isPlain rfl
      simp only [elaborate, check, hliteral] at h
      obtain ⟨_, h, -⟩ := ok_of_within h
      obtain ⟨_, e₁, hnote, h⟩ := EStateM.ok_of_bind_ok h
      obtain ⟨tyHead, e₂, hreduce, h⟩ := EStateM.ok_of_bind_ok h
      have hk₁ := follows_of_lift (Kernel.progresses_note _) hnote
      have hk₂ := follows_of_lift (Kernel.progresses_reduce _ _ _) hreduce
      split at h
      · rename_i htyp
        cases h
        exact .inl ⟨ty, rfl, htyp ▸ Kernel.weakHead_of_reduce (ok_of_lift hreduce), rfl⟩
      · have ht₂ : Unissued kept ctx e₂.kernel _ := ht.follows (hk₁.trans hk₂)
        obtain ⟨value, x, result, e₃, e₄, e₅, hvalue, hx, hk₄, ht₄, hresult, rfl⟩ :=
          steps_of_elaborateLet hfree ht₂ h
        have hty := (hk₁.trans (hk₂.trans hk₄)).avoids (hmode ty (List.mem_singleton.2 rfl))
        exact .inr ⟨depth, e₂, value, e₃, x, result, hvalue, ht₂.value, hx,
          judges_of_check hfree ht₄ hty hresult, rfl⟩

/-! ## Transparency -/

/-- The term is a type: the type that is found for it comes to the universe. -/
def IsTypeIn (env : Environment) (ctx : Context) (t : Term) : Prop :=
  ∃ depth e r e', infer env depth ctx t e = .ok r e' ∧ WeakHead env.table r.ty .typ

/-- A local definition may leave out parts of the code that its body has with the value in the
places of the variable. -/
inductive LeavesOut (env : Environment) (ctx : Context) (expr body : Term) : Mode → Prop where
  /-- Under its annotation, a literal is not looked at in the place of a type. -/
  | literal {mode : Mode} : (literal? expr).isSome → LeavesOut env ctx expr body mode
  /-- A type is not looked at where it is checked against its own type. A comparison with the
  expected type would fail, unless a type is expected. -/
  | type {mode : Mode} : IsTypeIn env ctx expr →
      (.inferred ∈ body.uses 0 mode.use ∨ env.subsumption = false) →
      LeavesOut env ctx expr body mode
  /-- A definition is not looked at in the place of a type, but a literal is. -/
  | literalBody {ty : Term} : WeakHead env.table ty .typ → (literal? body).isSome →
      LeavesOut env ctx expr body (.analysis ty)

/-- The value of a local definition, in the places of its variable in the body. -/
def inlining (env : Environment) (ctx : Context) (expr body : Term) (mode : Mode) (ty : Term) :
    Inlining where
  env := env
  kept := expr.freeIds ++ body.freeIds
  ctx := ctx
  value := expr
  ty := ty
  allows u := u = .checked ∨ u ∈ body.uses 0 mode.use
  blanks := LeavesOut env ctx expr body mode

section Inlining

variable {expr body ty : Term}

theorem isProper_inlining (hfree : env.table.IsVarFree) (hexpr : expr.IsLocallyClosed)
    (hty : ty.IsLocallyClosed) : (inlining env ctx expr body mode ty).IsProper where
  varFree := hfree
  value := hexpr
  ty := hty
  allows _ := .inl rfl

/-- The body of the definition is related to the body with the value in the places of the variable,
in contexts that give its variables the same types. -/
theorem inlined_body (hfree : env.table.IsVarFree) (hexpr : expr.IsLocallyClosed)
    (hty : ty.IsLocallyClosed) (hkeeps : Term.KeepsLiterals expr body 0 mode.use) {ctx' : Context}
    (hctx : ctx'.AgreesOn body.freeIds ctx) :
    (inlining env ctx expr body mode ty).Inlined (TypedAlike env.table ctx' ctx) mode.use
      (body.instantiate [.ann true expr ty]) (body.instantiate [expr]) := by
  rw [Term.instantiate_eq_openAt, Term.instantiate_eq_openAt]
  exact .of_openAt (isProper_inlining hfree hexpr hty) (fun u hu => .inr hu) hkeeps
    fun x hx => .refl (hctx x.id hx)

/-- In the place of a type, the definition has no code, and the body with the value in the places of
the variable has none either, unless it is a literal. -/
theorem blanks_of_universe (hfree : env.table.IsVarFree) (hexpr : expr.IsLocallyClosed)
    (hty : WeakHead env.table ty .typ)
    (hkeeps : Term.KeepsLiterals expr body 0 (Mode.analysis ty).use)
    (h : Judges env kept ctx (body.instantiate [expr]) (.analysis ty) r) :
    Code.Blanks (LeavesOut env ctx expr body (.analysis ty)) .nul r.code := by
  cases hliteral : literal? (body.instantiate [expr]) with
  | none =>
    rw [h.eq_of_universe hliteral hty]
    exact .same _
  | some lit =>
    -- the type of the value does not matter here
    have htyp : Term.typ.IsLocallyClosed := trivial
    have hself : ctx.AgreesOn body.freeIds ctx := fun _ _ => rfl
    have hinlined := inlined_body hfree hexpr htyp hkeeps hself
    refine .blank ?_
    rcases hinlined.literal?_right nofun hliteral with hbody | ⟨-, hvalue⟩
    · rw [Term.instantiate_eq_openAt, List.reverse_singleton,
        Term.literal?_openAt (List.forall_mem_singleton.2 rfl)] at hbody
      exact .literalBody hty (by simp [hbody])
    · exact .literal (Option.isSome_of_eq_some hvalue)

/-- The value of a definition, with the type that is found for it. -/
theorem isInferred_inlining (hclosed : env.table.IsLocallyClosed) (hfree : env.table.IsVarFree)
    (hctx : ctx.WellScoped) (hexpr : expr.IsLocallyClosed)
    (hliteral : ∀ u ∈ body.uses 0 mode.use, u ≠ .checked → literal? expr.outcome = none)
    (ht : Unissued (expr.freeIds ++ body.freeIds) ctx e.kernel expr)
    (h : infer env depth ctx expr e = .ok r e') :
    (inlining env ctx expr body mode r.ty).IsInferred where
  toIsProper := isProper_inlining hfree hexpr
    ((derives_of_infer h).isLocallyClosed_ty hclosed (fun p hp => (hctx.types p hp).1) hexpr)
  kept id hid := List.mem_append.2 (.inl hid)
  judges := ⟨r.code, judges_of_infer hfree ht h⟩
  outcome u hallows hu := hallows.elim (fun h => absurd h hu) fun hmem => hliteral u hmem hu
  literal hlit := .literal hlit
  type htyp hwhen := by
    refine .type ⟨depth, e, r, e', h, htyp⟩ (hwhen.imp_left ?_)
    exact fun hallows => hallows.elim nofun id

/-- A local definition that is not to be kept is compiled like its body with the value in the places
of the variable, but for parts that are left out. -/
theorem inlined_transparent (hclosed : env.table.IsLocallyClosed) (hfree : env.table.IsVarFree)
    (hctx : ctx.WellScoped) {name : BinderName} (hexpr : expr.IsLocallyClosed)
    (hkeeps : Term.KeepsLiterals expr body 0 mode.use)
    (hliteral : ∀ u ∈ body.uses 0 mode.use, u ≠ .checked → literal? expr.outcome = none)
    {s s' s₁ s₁' : Elaborator}
    (hissued : ∀ id ∈ ctx.idsWith (.letIn name false expr body :: mode.types),
      ¬ s.kernel.supply.CanIssue id ∧ ¬ s'.kernel.supply.CanIssue id)
    {depth depth' : Nat} {r r' : Elaborated}
    (h : elaborate env depth ctx (.letIn name false expr body) mode s = .ok r s₁)
    (h' : elaborate env depth' ctx (body.instantiate [expr]) mode s' = .ok r' s₁') :
    r.code.Blanks (LeavesOut env ctx expr body mode) r'.code ∧
      (¬ LeavesOut env ctx expr body mode → r.code = r'.code) := by
  suffices hblanks : r.code.Blanks (LeavesOut env ctx expr body mode) r'.code from
    ⟨hblanks, hblanks.eq⟩
  -- both runs start where no name of the three terms can be issued again
  obtain ⟨ht, -, hmode⟩ := Unissued.of_idsWith hctx fun id hid => (hissued id hid).1
  obtain ⟨-, ht', hmode'⟩ := Unissued.of_idsWith hctx fun id hid => (hissued id hid).2
  have hjudges' := judges_of_elaborate hfree ht' hmode' h'
  obtain ⟨ty, rfl, hty, rfl⟩ | ⟨depth, e₁, value, e₂, x, result, hvalue, ht₁, hx, hbody, hcode⟩ :=
    steps_of_letIn hfree ht hmode h
  -- at a universe the local definition itself is left out
  · exact blanks_of_universe hfree hexpr hty hkeeps hjudges'
  -- otherwise its body is judged with the annotated value in place, and the inlined body without
  · have hinferred : (inlining env ctx expr body mode value.ty).IsInferred :=
      isInferred_inlining hclosed hfree hctx hexpr hliteral ht₁ hvalue
    have hself : ctx.AgreesOn (expr.freeIds ++ body.freeIds) ctx := fun _ _ => rfl
    have hextended : ctx.AgreesOn (expr.freeIds ++ body.freeIds) (ctx.extend x value.ty) :=
      hself.extend hx.notKept
    -- the two bodies differ in the annotation only, and their contexts agree on what they mention
    have hplaces : (inlining env ctx expr body mode value.ty).Places (ctx.extend x value.ty) ctx
        mode.use (body.instantiate [.ann true expr value.ty]) (body.instantiate [expr]) :=
      ⟨hextended, hself, inlined_body hfree hexpr hinferred.ty hkeeps fun id hid =>
        (hextended id (List.mem_append.2 (.inr hid))).symm⟩
    rw [hcode]
    exact ((hinferred.isSound.agreesAlong hbody).agree hplaces (mode.expects_use _) hjudges').code

end Inlining

/-- A global `a` and a function `f` on its type. -/
def endofunction : Table :=
  .ofList [⟨"a", .ref "A", .ref "a"⟩, ⟨"f", .pi "x" (.ref "A") (.ref "A"), .ref "f"⟩]

/-- The function, applied to the term. -/
def applied (t : Term) : Term :=
  .app (.ref "f") t false

/-- A value that the function is applied to twice is compiled in its place. -/
theorem inlinedArgument_transparent :
    ∃ r s r' s',
      check ⟨endofunction, true⟩ 12 .empty
        (.letIn "x" false (applied (.ref "a")) (applied (applied (.bound 0)))) (.ref "A")
        (.start ⟨0, 0⟩ none) = .ok r s ∧
      check ⟨endofunction, true⟩ 12 .empty (applied (applied (applied (.ref "a")))) (.ref "A")
        (.start ⟨0, 0⟩ none) = .ok r' s' ∧
      r.code = r'.code := by
  obtain ⟨s, h⟩ : ∃ s, elaborate ⟨endofunction, true⟩ 12 .empty
      (.letIn "x" false (applied (.ref "a")) (applied (applied (.bound 0)))) (.analysis (.ref "A"))
      (.start ⟨0, 0⟩ none) =
        .ok ⟨.app (.ref "f") (.app (.ref "f") (.app (.ref "f") (.ref "a"))), .ref "A"⟩ s :=
    EStateM.Result.exists_ok_of_value? (by decide +kernel)
  obtain ⟨s', h'⟩ : ∃ s', elaborate ⟨endofunction, true⟩ 12 .empty
      ((applied (applied (.bound 0))).instantiate [applied (.ref "a")]) (.analysis (.ref "A"))
      (.start ⟨0, 0⟩ none) =
        .ok ⟨.app (.ref "f") (.app (.ref "f") (.app (.ref "f") (.ref "a"))), .ref "A"⟩ s' :=
    EStateM.Result.exists_ok_of_value? (by decide +kernel)
  -- the variable is only used where the code of the value is asked for
  have hwhole : ¬ LeavesOut ⟨endofunction, true⟩ .empty (applied (.ref "a"))
      (applied (applied (.bound 0))) (.analysis (.ref "A")) := by
    rintro (hliteral | ⟨-, hused | hsubsumption⟩ | ⟨-, hliteral⟩)
    · revert hliteral
      decide
    · revert hused
      decide
    · cases hsubsumption
    · revert hliteral
      decide
  exact ⟨_, s, _, s', h, h', (inlined_transparent (by decide) (by decide) .empty (by decide)
    (by decide) (by decide) (fun id hid => (List.not_mem_nil hid).elim) h h').2 hwhole⟩

/-- The constructors of characters and strings. -/
def strings : Table :=
  .ofList
    [⟨"Word.nil", .ref "Word", .ref "Word.nil"⟩,
     ⟨"Word.0", .pi "w" (.ref "Word") (.ref "Word"), .ref "Word.0"⟩,
     ⟨"Word.1", .pi "w" (.ref "Word") (.ref "Word"), .ref "Word.1"⟩,
     ⟨"U16.new", .pi "w" (.ref "Word") (.ref "Char"), .ref "U16.new"⟩,
     ⟨"String.nil", .ref "String", .ref "String.nil"⟩,
     ⟨"String.cons", .pi "c" (.ref "Char") (.pi "s" (.ref "String") (.ref "String")),
       .ref "String.cons"⟩]

/-- The string of one character. -/
def singleton (c : Term) : Term :=
  .app (.app (.ref "String.cons") c false) (.ref "String.nil") false

/-- A string is not compiled as a literal if its character is defined locally. -/
theorem namedCharacter_differs :
    (strings.IsLocallyClosed ∧ strings.IsVarFree) ∧
      (letter.IsLocallyClosed ∧ letter.freeIds = [] ∧ (singleton (.bound 0)).freeIds = []) ∧
      (singleton (.bound 0)).instantiate [letter] = singleton letter ∧
      ∃ r s r' s',
        check ⟨strings, true⟩ 60 .empty (.letIn "c" false letter (singleton (.bound 0)))
          (.ref "String") (.start ⟨0, 0⟩ none) = .ok r s ∧
        check ⟨strings, true⟩ 60 .empty (singleton letter) (.ref "String")
          (.start ⟨0, 0⟩ none) = .ok r' s' ∧
        r.code = .app (.app (.ref "String.cons") (.chr 'a')) (.str "") ∧ r'.code = .str "a" := by
  obtain ⟨s, h⟩ : ∃ s, check ⟨strings, true⟩ 60 .empty
      (.letIn "c" false letter (singleton (.bound 0))) (.ref "String") (.start ⟨0, 0⟩ none) =
        .ok ⟨.app (.app (.ref "String.cons") (.chr 'a')) (.str ""), .ref "String"⟩ s :=
    EStateM.Result.exists_ok_of_value? (by decide +kernel)
  obtain ⟨s', h'⟩ : ∃ s', check ⟨strings, true⟩ 60 .empty (singleton letter) (.ref "String")
      (.start ⟨0, 0⟩ none) = .ok ⟨.str "a", .ref "String"⟩ s' :=
    EStateM.Result.exists_ok_of_value? (by decide +kernel)
  exact ⟨by decide, by decide, rfl, _, s, _, s', h, h', rfl, rfl⟩

end Elaborator

end SelfTypes
