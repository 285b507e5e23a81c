import SelfTypes.Proofs.Elaboration.Expectation
import SelfTypes.Proofs.Elaboration.Situated

/-!
# The scope of inferred types

The type that is inferred for a closed term is closed, and its variables are variables of the term
and of the context, with one exception. In the body of a local definition that may be duplicated, a
variable stands for the value, and the type of the body is handed out with that variable in it,
which the context of the whole term does not know. `Term.infersShared` says whether inference comes
to such a local definition; where it does not, inferred types make sense in the context that they
are inferred in. Main statement: `Elaborator.infer_type_scoped`.
-/

namespace SelfTypes

/-! ## Contexts -/

namespace Context

/-- The context has a type for the variable of that identity. -/
def Binds (ctx : Context) (id : VarId) : Prop :=
  ctx.find? id ≠ none

/-- Each type is closed, and its variables are bound before it. -/
inductive WellScoped : Context → Prop where
  | empty : WellScoped .empty
  | extend {ctx : Context} {ty : Term} (x : Var) :
      WellScoped ctx → ty.IsLocallyClosed → (∀ id ∈ ty.freeIds, ctx.Binds id) →
      WellScoped (ctx.extend x ty)

theorem Binds.extend {ctx : Context} {id : VarId} (h : ctx.Binds id) (x : Var) (ty : Term) :
    (ctx.extend x ty).Binds id := by
  show (ctx.extend x ty).find? id ≠ none
  rw [find?_extend]
  split
  · exact Option.some_ne_none ty
  · exact h

/-- The types of the context, each in the whole context. -/
theorem WellScoped.types {ctx : Context} (h : ctx.WellScoped) :
    ∀ p ∈ ctx.bindings, p.2.IsLocallyClosed ∧ ∀ id ∈ p.2.freeIds, ctx.Binds id := by
  induction h with
  | empty => exact List.forall_mem_nil _
  | extend x _ hclosed hbound ih =>
    refine List.forall_mem_cons.2 ⟨⟨hclosed, fun id hid => (hbound id hid).extend x _⟩, ?_⟩
    intro p hp
    obtain ⟨hp, hids⟩ := ih p hp
    exact ⟨hp, fun id hid => (hids id hid).extend x _⟩

/-- A type that is found in a context is the type of one of its variables. -/
theorem exists_mem_of_find? {ctx : Context} {id : VarId} {ty : Term}
    (h : ctx.find? id = some ty) : ∃ p ∈ ctx.bindings, p.2 = ty := by
  obtain ⟨p, hp, hty⟩ := Option.map_eq_some_iff.1 h
  exact ⟨p, List.mem_of_find?_eq_some hp, hty⟩

end Context

/-! ## Shared local definitions -/

/-- Whether inference of the type of a term comes to a local definition that may be duplicated. -/
def Term.infersShared : Term → Bool
  | app f _ _ => f.infersShared
  | letIn _ dup e b => dup || e.infersShared || b.infersShared
  | loc _ e => e.infersShared
  | _ => false

theorem Term.infersShared_openAt {values : List Term} (hvalues : ∀ v ∈ values, v.isAnn = true)
    (t : Term) (depth : Nat) : (t.openAt values depth).infersShared = t.infersShared := by
  induction t generalizing depth with
  | bound i =>
    obtain ⟨j, hj⟩ | ⟨done, e, ty, hann⟩ := openIndex_of_isAnn hvalues depth i
    · simp [hj, infersShared]
    · simp [hann, infersShared]
  | app _ _ _ ih _ => exact ih depth
  | letIn _ _ _ _ ih₁ ih₂ => simp only [openAt_letIn, infersShared, ih₁, ih₂]
  | loc _ _ ih => exact ih depth
  | _ => rfl

theorem Term.infersShared_instantiate (b : Term) (dup : Bool) (x : Var) (e ty : Term) :
    (b.instantiate [letStandIn dup x e ty]).infersShared = b.infersShared := by
  show (b.openAt [letStandIn dup x e ty] 0).infersShared = _
  exact infersShared_openAt (List.forall_mem_singleton.2 rfl) b 0

/-! ## Variables issued on the way -/

namespace Kernel

/-- The variable was issued between the two kernels. -/
def Issued (k k' : Kernel) (id : VarId) : Prop :=
  k.supply.CanIssue id ∧ ¬ k'.supply.CanIssue id

variable {k k₁ k₂ k₃ : Kernel} {id : VarId}

/-- What is issued in a part of a run is issued in the whole run. -/
theorem Issued.widen (h : Issued k₁ k₂ id) (hk : Follows k k₁) (hk' : Follows k₂ k₃) :
    Issued k k₃ id :=
  ⟨hk.canIssue h.1, fun hid => h.2 (hk'.canIssue hid)⟩

theorem issued_of_fresh {name : BinderName} {x : Var} (h : fresh name k = .ok x k₁) :
    Issued k k₁ x.id := by
  refine ⟨?_, avoids_of_fresh h x.id (List.mem_singleton.2 rfl)⟩
  obtain ⟨rfl, -⟩ := supply_of_fresh h
  exact ⟨rfl, Nat.le_refl _⟩

end Kernel

/-! ## Inferred types -/

section Inferred

variable {env : Environment} {ctx : Context} {t ty : Term} {k k' : Kernel} {r : Elaborated}

/-- The type that checking comes to is as closed as the expected one, and has no other variables. -/
theorem Derives.scope_of_analysis (h : Derives env ctx t (.analysis ty) k r k') :
    (ty.IsLocallyClosed → r.ty.IsLocallyClosed) ∧ ∀ id ∈ r.ty.freeIds, id ∈ ty.freeIds := by
  obtain hty | ⟨htyp, -⟩ | ⟨lit, hlit, hty⟩ := h.ty_of_analysis
  · rw [hty]
    exact ⟨id, fun _ hid => hid⟩
  · rw [htyp]
    exact ⟨fun _ => trivial, fun _ hid => by cases hid⟩
  · obtain ⟨n, hn⟩ := Elaborator.exists_ty_eq_ref_of_literal? hlit
    rw [hty, hn]
    exact ⟨fun _ => trivial, fun _ hid => by cases hid⟩

/-- The type that is inferred for a closed term is closed. -/
theorem Derives.isLocallyClosed_ty (hclosed : env.table.IsLocallyClosed)
    (h : Derives env ctx t .synthesis k r k') (hctx : ∀ p ∈ ctx.bindings, p.2.IsLocallyClosed)
    (ht : t.IsLocallyClosed) : r.ty.IsLocallyClosed := by
  generalize hmode : Mode.synthesis = mode at h
  -- on the derivation, as far as it infers; what is checked has a type of its own already
  induction h with
  | later _ _ _ ih => exact ih hctx ht hmode
  | var hx =>
    obtain ⟨p, hp, rfl⟩ := Context.exists_mem_of_find? hx
    exact hctx p hp
  | ref hd => exact (hclosed _ (List.mem_of_find?_eq_some hd)).1
  | typ | all => trivial
  | app _ hall _ ihf _ =>
    have hfuncTy := hall.isLocallyClosed hclosed (ihf hctx ht.1 rfl)
    -- the type of the application is the body, opened with the function and the argument
    exact Term.ClosedAt.instantiate_two hfuncTy.2 ⟨ht.1, hfuncTy⟩ ⟨ht.2, hfuncTy.1⟩
  | @letIn ctx _ dup e b _ x value _ _ _ _ _ _ _ _ ihe ihb =>
    have hvalue := ihe hctx ht.1 rfl
    -- the stand-in is the issued variable or the closed value
    have hstandIn : (letStandIn dup x e value.ty).IsLocallyClosed := by
      cases dup with
      | true => exact ⟨trivial, hvalue⟩
      | false => exact ⟨ht.1, hvalue⟩
    apply ihb _ (Term.ClosedAt.instantiate_one ht.2 hstandIn) hmode
    exact List.forall_mem_cons.2 ⟨hvalue, hctx⟩
  | ann he _ => exact he.scope_of_analysis.1 ht.2
  | loc _ _ ih => exact ih hctx ht hmode
  -- the rules of analysis do not infer
  | literal | type | lam | infer => cases hmode

/-- Where a variable of an inferred type may come from. -/
inductive VarSource (ctx : Context) (t : Term) (k k' : Kernel) (id : VarId) : Prop where
  /-- It is a variable of the term. -/
  | term : id ∈ t.freeIds → VarSource ctx t k k' id
  /-- It is a variable of a type of the context. -/
  | context {p : Var × Term} : p ∈ ctx.bindings → id ∈ p.2.freeIds → VarSource ctx t k k' id
  /-- It was issued on the way, and there is a shared local definition that it may stand for. -/
  | shared : t.infersShared = true → k.Issued k' id → VarSource ctx t k k' id

namespace VarSource

variable {k₁ k₂ k₃ : Kernel} {id : VarId} {name : BinderName} {dup er : Bool} {f a e b : Term}

theorem later (h : VarSource ctx t k₁ k₂ id) (hk : k.Follows k₁) (hk' : k₂.Follows k₃) :
    VarSource ctx t k k₃ id := by
  cases h with
  | term hid => exact .term hid
  | context hp hid => exact .context hp hid
  | shared ht hid => exact .shared ht (hid.widen hk hk')

theorem func (h : VarSource ctx f k k₁ id) (hk : k₁.Follows k₂) :
    VarSource ctx (.app f a er) k k₂ id := by
  cases h.later (.refl k) hk with
  | term hid => exact .term (List.mem_append.2 (.inl hid))
  | context hp hid => exact .context hp hid
  | shared hf hid => exact .shared hf hid

theorem value (h : VarSource ctx e k k₁ id) (hk : k₁.Follows k₂) :
    VarSource ctx (.letIn name dup e b) k k₂ id := by
  cases h.later (.refl k) hk with
  | term hid => exact .term (List.mem_append.2 (.inl hid))
  | context hp hid => exact .context hp hid
  | shared he hid => exact .shared (by simp [Term.infersShared, he]) hid

/-- The body of a local definition brings the variable of the definition with it, if that is shared,
and else the variables of its value. -/
theorem body {x : Var} (hx : Kernel.fresh name k₁ = .ok x k₂)
    (h : VarSource (ctx.extend x ty) (b.instantiate [letStandIn dup x e ty]) k₂ k₃ id)
    (hty : id ∈ ty.freeIds → VarSource ctx e k k₁ id) (hk : k.Follows k₁) (hk' : k₂.Follows k₃) :
    VarSource ctx (.letIn name dup e b) k k₃ id := by
  have hk₂ := hk.trans (Kernel.follows_of_fresh hx)
  have hvalue : id ∈ ty.freeIds → VarSource ctx (.letIn name dup e b) k k₃ id := fun hid =>
    (hty hid).value ((Kernel.follows_of_fresh hx).trans hk')
  -- from the opened body back to the local definition, by where the variable comes from
  cases h with
  | term hid =>
    obtain hid | ⟨v, hv, hid⟩ := Term.freeIds_instantiate hid
    · exact .term (List.mem_append.2 (.inr hid))
    · cases List.mem_singleton.1 hv
      -- from the stand-in: the variable is the issued one, or one of the value or of its type
      obtain hid | hid := List.mem_append.1 hid
      · cases dup with
        | true =>
          cases List.mem_singleton.1 hid
          exact .shared rfl ((Kernel.issued_of_fresh hx).widen hk hk')
        | false => exact .term (List.mem_append.2 (.inl hid))
      · exact hvalue hid
  | context hp hid =>
    -- the latest binding is that of the issued variable, with the type of the value
    obtain rfl | hp := List.mem_cons.1 hp
    · exact hvalue hid
    · exact .context hp hid
  | shared hb hid =>
    rw [Term.infersShared_instantiate] at hb
    exact .shared (by simp [Term.infersShared, hb]) (hid.widen hk₂ (.refl k₃))

end VarSource

/-- A variable of the type that is inferred for a term is one of the term, or one of a type of the
context, or was issued on the way to a shared local definition of the term. -/
theorem Derives.varSource_ty (hfree : env.table.IsVarFree)
    (h : Derives env ctx t .synthesis k r k') {id : VarId} (hid : id ∈ r.ty.freeIds) :
    VarSource ctx t k k' id := by
  generalize hmode : Mode.synthesis = mode at h
  induction h with
  | later hk _ hk' ih => exact (ih hid hmode).later hk hk'
  | var hx =>
    obtain ⟨p, hp, rfl⟩ := Context.exists_mem_of_find? hx
    exact .context hp hid
  | ref hd =>
    rw [(hfree _ (List.mem_of_find?_eq_some hd)).1] at hid
    cases hid
  -- what a table without free variables declares has none
  | typ | all => cases hid
  | @app ctx f a bind body er s n _ _ _ k _ k₂ _ hall harg ihf _ =>
    -- the argument stands in the type as a term, and its own type is that of the parameter
    have hfunc : id ∈ (Term.all s n bind body).freeIds → VarSource ctx (.app f a er) k k₂ id :=
      fun h => (ihf (hall.freeIds_subset hfree h) rfl).func harg.follows
    obtain hid | ⟨v, hv, hid⟩ := Term.freeIds_instantiate hid
    · exact hfunc (List.mem_append.2 (.inr hid))
    · obtain rfl | hv := List.mem_cons.1 hv
      · obtain hid | hid := List.mem_append.1 hid
        · exact .term (List.mem_append.2 (.inl hid))
        · exact hfunc hid
      · cases List.mem_singleton.1 hv
        obtain hid | hid := List.mem_append.1 hid
        · exact .term (List.mem_append.2 (.inr hid))
        · exact hfunc (List.mem_append.2 (.inl hid))
  | letIn he hx hb ihe ihb =>
    exact (ihb hid hmode).body hx (fun h => ihe h rfl) he.follows hb.follows
  -- an annotation is the type, so its variables are those of the term
  | ann he _ =>
    exact .term (List.mem_append.2 (.inr (he.scope_of_analysis.2 id hid)))
  | loc _ _ ih =>
    cases ih hid hmode with
    | term hid => exact .term hid
    | context hp hid => exact .context hp hid
    | shared he hid => exact .shared he hid
  | literal | type | lam | infer => cases hmode

end Inferred

namespace Elaborator

/-- The type that is inferred for a term, closed and in the scope of the context, is closed, and in
the scope of the context but for variables that were issued on the way to a shared local
definition. -/
theorem infer_type_scoped {env : Environment} (hclosed : env.table.IsLocallyClosed)
    (hfree : env.table.IsVarFree) {depth : Nat} {ctx : Context} {t : Term} {e e' : Elaborator}
    {r : Elaborated} (hctx : ctx.WellScoped) (ht : t.IsLocallyClosed)
    (hbound : ∀ id ∈ t.freeIds, ctx.Binds id) (h : infer env depth ctx t e = .ok r e') :
    r.ty.IsLocallyClosed ∧ ∀ id ∈ r.ty.freeIds,
      ctx.Binds id ∨ (t.infersShared = true ∧ e.kernel.Issued e'.kernel id) := by
  have hderives := derives_of_infer h
  refine ⟨hderives.isLocallyClosed_ty hclosed (fun p hp => (hctx.types p hp).1) ht, ?_⟩
  -- a free variable of the type comes from the term, from the context or from a shared definition
  intro id hid
  cases hderives.varSource_ty hfree hid with
  | term hid => exact .inl (hbound id hid)
  | context hp hid => exact .inl ((hctx.types _ hp).2 id hid)
  | shared ht hid => exact .inr ⟨ht, hid⟩

/-- A global `a` and a function `f` whose type depends on its argument. -/
def dependent : Table :=
  .ofList
    [⟨"a", .ref "A", .ref "a"⟩,
     ⟨"f", .pi "x" (.ref "A") (.app (.ref "P") (.bound 0) false), .ref "f"⟩]

/-- The function applied to a local definition of the given value. -/
def appliedToLocal (dup : Bool) (value : Term) : Term :=
  .letIn "x" dup value (.app (.ref "f") (.bound 0) false)

/-- The type of the application, if the argument is what the local definition is opened with. -/
def typeOfApplied (standIn : Term) : Term :=
  .app (.ref "P") (.ann true (.ann true standIn (.ref "A")) (.ref "A")) false

/-- A variable of a context. -/
def outerVar : Var := ⟨⟨1, 0⟩, "z"⟩

/-- A context with one variable. -/
def outerContext : Context :=
  Context.empty.extend outerVar (.ref "A")

/-- The type of a local definition that is not shared mentions the value, in the scope of the
context. -/
theorem inlinedValue_scoped :
    ∃ e', infer ⟨dependent, true⟩ 6 outerContext (appliedToLocal false (.var outerVar))
        (.start ⟨0, 0⟩ none) =
          .ok ⟨.app (.ref "f") (.var "z"), typeOfApplied (.var outerVar)⟩ e' ∧
      (typeOfApplied (.var outerVar)).IsLocallyClosed ∧
      ∀ id ∈ (typeOfApplied (.var outerVar)).freeIds, outerContext.Binds id := by
  have hcontext : outerContext.WellScoped :=
    .extend outerVar .empty trivial fun id hid => by cases hid
  have hvar : outerContext.Binds outerVar.id := by
    show (Context.empty.extend outerVar (.ref "A")).find? outerVar.id ≠ none
    simp [Context.find?_extend]
  have hbound : ∀ id ∈ (appliedToLocal false (.var outerVar)).freeIds, outerContext.Binds id :=
    fun id hid => List.mem_singleton.1 hid ▸ hvar
  obtain ⟨e', h⟩ : ∃ e', infer ⟨dependent, true⟩ 6 outerContext
      (appliedToLocal false (.var outerVar)) (.start ⟨0, 0⟩ none) =
        .ok ⟨.app (.ref "f") (.var "z"), typeOfApplied (.var outerVar)⟩ e' :=
    EStateM.Result.exists_ok_of_value? (by decide +kernel)
  obtain ⟨hclosed, hscoped⟩ :=
    infer_type_scoped (by decide) (by decide) hcontext (by decide) hbound h
  refine ⟨e', h, hclosed, fun id hid => ?_⟩
  obtain hid | ⟨hshared, -⟩ := hscoped id hid
  · exact hid
  · cases hshared

/-- The type of a shared local definition mentions a variable that nothing binds. -/
theorem sharedValue_escapes :
    (dependent.IsLocallyClosed ∧ dependent.IsVarFree) ∧
      (appliedToLocal true (.ref "a")).IsLocallyClosed ∧
      (appliedToLocal true (.ref "a")).freeIds = [] ∧
      ∃ r e', infer ⟨dependent, true⟩ 6 .empty (appliedToLocal true (.ref "a"))
          (.start ⟨0, 0⟩ none) = .ok r e' ∧
        ∃ id ∈ r.ty.freeIds, ¬ Context.empty.Binds id := by
  obtain ⟨e', h⟩ : ∃ e', infer ⟨dependent, true⟩ 6 .empty (appliedToLocal true (.ref "a"))
      (.start ⟨0, 0⟩ none) = .ok ⟨.letIn "x" (.ref "a") (.app (.ref "f") (.var "x")),
        typeOfApplied (.var ⟨⟨0, 0⟩, "x"⟩)⟩ e' :=
    EStateM.Result.exists_ok_of_value? (by decide +kernel)
  -- nothing is bound in the empty context
  exact ⟨by decide, by decide, rfl, _, e', h, ⟨0, 0⟩, List.mem_singleton.2 rfl, fun hid => hid rfl⟩

end Elaborator

end SelfTypes
