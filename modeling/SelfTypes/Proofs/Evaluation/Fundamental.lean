import SelfTypes.Proofs.Evaluation.Valuation

/-!
# Code computes what its term does

The code of an elaborated term realizes the term at the type that was found, and at the one that it
was checked against, whatever fitting values the variables have. This is the fundamental theorem
about `Realizes`: there is one lemma for each rule of elaboration, and `Derives.computes` puts them
together by induction on derivations.

A type that is found may name the variable of a local definition that was issued on the way. So the
values of the variables in use are extended to those that are issued, with the values of the local
definitions.
-/

namespace SelfTypes

/-! ## Literals -/

/-- The global that an application starts with. -/
def Term.headRef? : Term → Option DefName
  | .ref n => some n
  | .app f _ _ => f.headRef?
  | .loc _ e => e.headRef?
  | _ => none

section Literals

variable {t a : Term} {n : DefName}

theorem Term.headRef?_peel (t : Term) : t.peel.headRef? = t.headRef? := by
  induction t with
  | loc _ _ ih => exact ih
  | _ => rfl

theorem Term.headRef?_of_isRef (h : t.isRef n = true) : t.headRef? = some n := by
  unfold Term.isRef at h
  split at h
  · rename_i m hm
    rw [← Term.headRef?_peel, hm, ← beq_iff_eq.1 h]
    rfl
  · cases h

theorem Term.headRef?_of_argumentOf? (h : t.argumentOf? n = some a) : t.headRef? = some n := by
  unfold Term.argumentOf? at h
  split at h
  · rename_i f a' hf
    split at h
    · rename_i hn
      rw [← Term.headRef?_peel, hf]
      show f.headRef? = some n
      exact Term.headRef?_of_isRef hn
    · cases h
  · cases h

theorem Term.headRef?_of_decodeChar? {ch : Char} (h : t.decodeChar? = some ch) :
    t.headRef? = some "U16.new" := by
  obtain ⟨word, hword, -⟩ := Option.bind_eq_some_iff.1 h
  exact Term.headRef?_of_argumentOf? hword

theorem Term.headRef?_of_decodeChars? {cs : List Char} (h : t.decodeChars? = some cs) :
    t.headRef? = some "String.nil" ∨ t.headRef? = some "String.cons" := by
  induction t generalizing cs with
  | loc _ _ ih => exact ih h
  | ref n =>
    simp only [Term.decodeChars?] at h
    split at h
    · rename_i hn
      rw [hn]
      exact .inl rfl
    · cases h
  | app f a er _ _ =>
    cases er with
    | false =>
      obtain ⟨x, hx, -⟩ := Option.bind_eq_some_iff.1 h
      have hf : f.headRef? = some "String.cons" := Term.headRef?_of_argumentOf? hx
      exact .inr hf
    | true => cases h
  | _ => cases h

/-- A literal starts with one of the constructors of literals. -/
theorem Elaborator.headRef?_of_literal? {r : Elaborated}
    (h : Elaborator.literal? t = some r) : ∃ n ∈ Term.literalHeads, t.headRef? = some n := by
  unfold Elaborator.literal? at h
  split at h
  · rename_i hchar
    exact ⟨_, by decide, Term.headRef?_of_decodeChar? hchar⟩
  · split at h
    · rename_i s hstring
      obtain ⟨cs, hcs, -⟩ := Option.map_eq_some_iff.1 hstring
      rcases Term.headRef?_of_decodeChars? hcs with hn | hn
      · exact ⟨_, by decide, hn⟩
      · exact ⟨_, by decide, hn⟩
    · cases h

/-- What starts with a constructor of literals is no function: the constructor is not unfolded. -/
theorem WeakHeadIn.isLam_of_headRef? {table : Table} {i : Nat} {w : Term} {σ : Var → Term}
    (hn : n ∈ Term.literalHeads) (ht : t.headRef? = some n)
    (hw : WeakHeadIn table .coherent i (t.subst σ) w) : w.isLam = false := by
  induction t generalizing i w with
  | ref m =>
    cases ht
    cases hw with
    | unknown => rfl
    | unfold hunfolds => exact absurd hn hunfolds
  | app f _ _ ih _ =>
    cases hw with
    | beta _ hf => cases ih ht hf
    | stuck => rfl
  | loc _ _ ih =>
    cases hw with
    | loc hw => exact ih ht hw
  | _ => cases ht

end Literals

/-! ## Marks -/

section Marks

variable {globals : DefName → Option Code} (prim : Option Primitive) (c : Code)

theorem subst_calleeCode (γ : BinderName → Code) :
    (calleeCode prim c).subst γ = calleeCode prim (c.subst γ) := by
  cases prim <;> rfl

theorem subst_instCode (γ : BinderName → Code) :
    (instCode prim c).subst γ = instCode prim (c.subst γ) := by
  cases prim <;> rfl

theorem freeNames_calleeCode : (calleeCode prim c).freeNames = c.freeNames := by
  cases prim <;> rfl

theorem freeNames_instCode : (instCode prim c).freeNames = c.freeNames := by
  cases prim <;> rfl

/-- A mark is passed over. -/
theorem evaluatesTo_calleeCode : (calleeCode prim c).EvaluatesTo globals c := by
  cases prim with
  | some p => exact .step rfl
  | none => exact .refl globals c

theorem evaluatesTo_instCode : (instCode prim c).EvaluatesTo globals c := by
  cases prim with
  | some p => exact .step rfl
  | none => exact .refl globals c

end Marks

section Fits

variable {table : Table} {globals : DefName → Option Code} {h : Nat} {ctx : Context}
  {ρ : Valuation} {γ : Store} {prim : Option Primitive} {c d : Code} {er : Bool}

/-- What fits an application fits its function. -/
theorem Fits.func
    (hfit : Fits table globals h ctx ρ γ (appCode er (calleeCode prim c) d)) :
    Fits table globals h ctx ρ γ c := by
  have hcallee : Fits table globals h ctx ρ γ (calleeCode prim c) := by
    cases er with
    | true => exact hfit
    | false => exact hfit.of_subset (List.subset_append_left _ _) (List.subset_append_left _ _)
  refine hcallee.of_subset ?_ ?_
  · rw [freeNames_calleeCode]
    exact List.Subset.refl _
  · rw [refs_calleeCode]
    exact List.Subset.refl _

/-- What fits an application that passes its argument on fits the argument. -/
theorem Fits.arg (hfit : Fits table globals h ctx ρ γ (appCode false c d)) :
    Fits table globals h ctx ρ γ d :=
  hfit.of_subset (List.subset_append_right _ _) (List.subset_append_right _ _)

/-- A mark on a function needs nothing to fit. -/
theorem Fits.inst (hfit : Fits table globals h ctx ρ γ (instCode prim c)) :
    Fits table globals h ctx ρ γ c := by
  refine hfit.of_subset ?_ ?_
  · rw [freeNames_instCode]
    exact List.Subset.refl _
  · rw [refs_instCode]
    exact List.Subset.refl _

end Fits

/-! ## What is shown of a result -/

/-- Whatever values the variables have, the code of the result does what the term does, for as long
as the values of its variables do; the type is the one that was found or was expected. -/
def Computes (table : Table) (globals : DefName → Option Code) (ctx : Context) (t : Term)
    (mode : Mode) (k : Kernel) (r : Elaborated) : Prop :=
  ∀ ρ : Valuation, ∃ ρ' : Valuation, ρ.Extends k ρ' ∧
    ∀ h γ, Fits table globals h ctx ρ γ r.code → ∀ ty, ty = r.ty ∨ mode = .analysis ty →
      Realizes table globals h (ρ.apply t) (ρ'.apply ty) (r.code.subst γ.code)

namespace Computes

variable {table : Table} {globals : DefName → Option Code} {ctx : Context} {k k₁ k₂ k₃ : Kernel}
  {mode : Mode}

/-! ## Leaves -/

theorem var {x : Var} {ty : Term} (ht : Situated ctx k (.var x)) (hx : ctx.find? x.id = some ty) :
    Computes table globals ctx (.var x) .synthesis k ⟨.var x.name, ty⟩ := by
  intro ρ
  refine ⟨ρ, .refl k ρ, ?_⟩
  rintro h γ hfit ty' (rfl | hmode)
  · obtain ⟨tyX, hmem⟩ := ht.vars x (List.mem_singleton.2 rfl)
    obtain ⟨y, tyY, hy, hname, hreal⟩ := hfit.bound x.name (List.mem_singleton.2 rfl)
    -- names tell variables apart, so the variable of that name is this one
    cases ht.context.eq_of_name hmem hy hname
    cases ht.context.find?_eq hmem hx
    exact hreal
  · cases hmode

theorem ref {name : DefName} {d : Definition} (hfree : table.IsVarFree)
    (hd : table.find? name = some d) :
    Computes table globals ctx (.ref name) .synthesis k ⟨.ref name, d.ty⟩ := by
  intro ρ
  refine ⟨ρ, .refl k ρ, ?_⟩
  rintro h γ hfit ty' (rfl | hmode)
  · rw [ρ.apply_of_freeIds_eq_nil (hfree d (List.mem_of_find?_eq_some hd)).1]
    exact hfit.references name (List.mem_singleton.2 rfl) d hd
  · cases hmode

/-- What has the universe as its type has no code to speak of. -/
theorem type {t : Term} (hfree : table.IsVarFree)
    (hmode : ∀ ty, mode = .analysis ty → WeakHead table ty .typ) :
    Computes table globals ctx t mode k ⟨.nul, .typ⟩ := by
  intro ρ
  refine ⟨ρ, .refl k ρ, ?_⟩
  rintro h γ - ty (rfl | hty)
  · exact .of_typ .typ
  · exact .of_typ (ρ.weakHead_apply hfree (hmode ty hty) .typ)

theorem literal {t : Term} {r : Elaborated} (hliteral : Elaborator.literal? t = some r) :
    Computes table globals ctx t mode k r := by
  intro ρ
  refine ⟨ρ, .refl k ρ, fun h γ _ ty _ => .of_no_function ?_⟩
  intro i n er b hlam
  obtain ⟨m, hm, hhead⟩ := Elaborator.headRef?_of_literal? hliteral
  cases hlam.isLam_of_headRef? hm hhead

/-! ## Rules -/

/-- A later kernel is yet to issue no more. -/
theorem of_follows {t : Term} {r : Elaborated} (hr : Computes table globals ctx t mode k₁ r)
    (hk : k.Follows k₁) : Computes table globals ctx t mode k r := by
  intro ρ
  obtain ⟨ρ', hext, hreal⟩ := hr ρ
  exact ⟨ρ', hext.of_follows hk, hreal⟩

theorem ann {e ty : Term} {done : Bool} {r : Elaborated}
    (hr : Computes table globals ctx e (.analysis ty) k r) :
    Computes table globals ctx (.ann done e ty) .synthesis k r := by
  intro ρ
  obtain ⟨ρ', hext, hreal⟩ := hr ρ
  refine ⟨ρ', hext, ?_⟩
  rintro h γ hfit ty' (hty | hmode)
  · exact (hreal h γ hfit ty' (.inl hty)).ann
  · cases hmode

theorem loc {e : Term} {span : Span} {r : Elaborated} (hr : Computes table globals ctx e mode k r) :
    Computes table globals ctx (.loc span e) mode k r := by
  intro ρ
  obtain ⟨ρ', hext, hreal⟩ := hr ρ
  exact ⟨ρ', hext, fun h γ hfit ty hty => (hreal h γ hfit ty hty).loc⟩

/-- What was found to have one type has each convertible one. -/
theorem infer {t ty : Term} {r : Elaborated} (hclosed : table.IsLocallyClosed)
    (hfree : table.IsVarFree) (ht : Situated ctx k t) (hr : Settled k₁ r.ty) (hty : Settled k ty)
    (hconv : Convertible table r.ty ty) (hcomputes : Computes table globals ctx t .synthesis k r) :
    Computes table globals ctx t (.analysis ty) k ⟨r.code, ty⟩ := by
  intro ρ
  obtain ⟨ρ', hext, hreal⟩ := hcomputes ρ
  refine ⟨ρ', hext, fun h γ hfit ty' hty' => ?_⟩
  have heq : ty' = ty := by
    rcases hty' with rfl | hmode
    · rfl
    · cases hmode
      rfl
  rw [heq]
  exact (hreal h γ hfit r.ty (.inl rfl)).convert hclosed hfree
    (ρ.isLocallyClosed_apply ht.term.closed) (ρ'.isLocallyClosed_apply hr.closed)
    (ρ'.isLocallyClosed_apply hty.closed)
    (ρ'.convertible_apply hclosed hfree hr.closed hty.closed hconv)

/-- An application does what its function does to its argument, which is passed on or erased. -/
theorem app {f a bind body : Term} {er : Bool} {s n : BinderName} {prim : Option Primitive}
    {func arg : Elaborated} (hclosed : table.IsLocallyClosed) (hfree : table.IsVarFree)
    (ht : Situated ctx k (.app f a er)) (hk₁ : k.Follows k₁) (hfunc : Settled k₁ func.ty)
    (hall : WeakHead table func.ty (.all s n bind body))
    (hf : Computes table globals ctx f .synthesis k func)
    (ha : Computes table globals ctx a (.analysis bind) k₁ arg) :
    Computes table globals ctx (.app f a er) .synthesis k
      ⟨appCode er (calleeCode prim func.code) arg.code,
        body.instantiate [.ann true f (.all s n bind body), .ann true a bind]⟩ := by
  intro ρ
  -- the values that the function needs are kept for the argument
  obtain ⟨ρ₁, hext₁, hfreal⟩ := hf ρ
  obtain ⟨ρ₂, hext₂, hareal⟩ := ha ρ₁
  have hext := hext₁.trans (hext₂.of_follows hk₁)
  refine ⟨ρ₂, hext, ?_⟩
  rintro h γ hfit ty (rfl | hmode)
  swap
  · cases hmode
  have hallSettled := hfunc.weakHead hclosed hfree hall
  have hfClosed := ρ.isLocallyClosed_apply ht.term.func.closed
  have haClosed := ρ.isLocallyClosed_apply ht.term.arg.closed
  have htyClosed := ρ₁.isLocallyClosed_apply hfunc.closed
  have hhead : WeakHead table (ρ₁.apply func.ty) (.all s n (ρ₁.apply bind) (ρ₁.apply body)) :=
    ρ₁.weakHead_apply hfree hall (.all ..)
  -- the function, with or without a mark
  have hcallee : Realizes table globals h (ρ.apply f) (ρ₁.apply func.ty)
      ((calleeCode prim func.code).subst γ.code) := by
    rw [subst_calleeCode]
    exact (hfreal h γ hfit.func func.ty (.inl rfl)).of_evaluatesTo (evaluatesTo_calleeCode prim _)
  have happ : Realizes table globals h (.app (ρ.apply f) (ρ.apply a) er)
      ((ρ₁.apply body).instantiate [ρ.apply f, ρ.apply a])
      ((appCode er (calleeCode prim func.code) arg.code).subst γ.code) := by
    cases er with
    | true => exact .app_erased hclosed hfree hfClosed haClosed htyClosed hhead hcallee
    | false =>
      have harg := hareal h γ (hfit.arg.of_extends ht.context hext₁) bind (.inr rfl)
      rw [hext₁.apply_eq ht.term.arg.avoided, hext₂.apply_eq hallSettled.bind.avoided] at harg
      exact .app_kept hclosed hfree hfClosed haClosed htyClosed hhead (γ.isClosed_subst _) hcallee
        harg
  -- the type, whose annotations do not matter
  have hty : (body.instantiate [.ann true f (.all s n bind body), .ann true a bind]).ClosedAt 0 :=
    Term.ClosedAt.instantiate_two hallSettled.closed.2 ⟨ht.term.func.closed, hallSettled.closed⟩
      ⟨ht.term.arg.closed, hallSettled.bind.closed⟩
  refine happ.congr_bare hclosed hfree ⟨hfClosed, haClosed⟩
    (ρ.isLocallyClosed_apply ht.term.closed) ?_ (ρ₂.isLocallyClosed_apply hty) rfl ?_
  · exact Term.ClosedAt.instantiate_two (ρ₁.isLocallyClosed_apply hallSettled.closed).2 hfClosed
      haClosed
  · have hbody : ρ₂.apply body = ρ₁.apply body := hext₂.apply_eq hallSettled.avoided_allBody
    rw [← hbody]
    refine ρ₂.bare_apply_instantiate ?_ body
    rw [← hext.apply_eq ht.term.func.avoided, ← hext.apply_eq ht.term.arg.avoided]
    rfl

theorem bare_apply_letStandIn {ρ : Valuation} (dup : Bool) {x : Var} {e v : Term} (ty : Term)
    (hx : ρ.value x.id = v) (he : ρ.apply e = v) :
    (ρ.apply (letStandIn dup x e ty)).bare = v.bare := by
  cases dup with
  | true =>
    show (ρ.value x.id).bare = v.bare
    rw [hx]
  | false =>
    show (ρ.apply e).bare = v.bare
    rw [he]

/-- A local definition is the body with the value, as code either shared or put in place. -/
theorem letIn {name : BinderName} {dup : Bool} {e b : Term} {x : Var} {value r : Elaborated}
    (hclosed : table.IsLocallyClosed) (hfree : table.IsVarFree)
    (ht : Situated ctx k (.letIn name dup e b)) (hmode : mode.IsSettled k) (hk₁ : k.Follows k₁)
    (hvalue : Settled k₁ value.ty) (hx : Kernel.fresh name k₁ = .ok x k₂) (hr : Settled k₃ r.ty)
    (he : Computes table globals ctx e .synthesis k value)
    (hb : Computes table globals (ctx.extend x value.ty)
      (b.instantiate [letStandIn dup x e value.ty]) mode k₂ r) :
    Computes table globals ctx (.letIn name dup e b) mode k
      ⟨letCode name dup value.code r.code, r.ty⟩ := by
  intro ρ
  have heClosed := ρ.isLocallyClosed_apply ht.term.expr.closed
  -- the variable that is issued gets the value of the local definition
  obtain ⟨ρ₁, hext₁, hereal⟩ := he ρ
  have hextX : ρ.Extends k (ρ₁.set x.id (ρ.apply e) heClosed) :=
    hext₁.trans ((Valuation.extends_set hx ρ₁ heClosed).of_follows hk₁)
  obtain ⟨ρ₂, hext₂, hbreal⟩ := hb (ρ₁.set x.id (ρ.apply e) heClosed)
  have hk₂ := hk₁.trans (Kernel.follows_of_fresh hx)
  refine ⟨ρ₂, hextX.trans (hext₂.of_follows hk₂), fun h γ hfit ty hty => ?_⟩
  have htyClosed : ty.IsLocallyClosed := by
    rcases hty with rfl | hty
    · exact hr.closed
    · exact (hmode ty hty).closed
  -- the body with the value in it
  have hbody : ∀ γ' : Store, Fits table globals h (ctx.extend x value.ty)
      (ρ₁.set x.id (ρ.apply e) heClosed) γ' r.code →
      Realizes table globals h ((ρ.apply b).instantiate [ρ.apply e]) (ρ₂.apply ty)
        (r.code.subst γ'.code) := by
    intro γ' hfit'
    have hsituated := (ht.follows hk₁).letBody hx hvalue
    refine (hbreal h γ' hfit' ty hty).of_bare_eq hclosed hfree
      (Valuation.isLocallyClosed_apply _ hsituated.term.closed)
      (Term.ClosedAt.instantiate_one (ρ.isLocallyClosed_apply ht.term.closed).2 heClosed)
      (ρ₂.isLocallyClosed_apply htyClosed) ?_
    have hbρ : (ρ₁.set x.id (ρ.apply e) heClosed).apply b = ρ.apply b :=
      hextX.apply_eq ht.term.avoided_letBody
    rw [← hbρ]
    refine (Valuation.bare_apply_instantiate _ ?_ b).symm
    have hstandIn := bare_apply_letStandIn dup value.ty
      (Valuation.value_set_self ρ₁ x.id heClosed) (hextX.apply_eq ht.term.expr.avoided)
    rw [List.map_singleton, hstandIn, List.map_singleton]
  refine Realizes.letIn ?_
  cases dup with
  | true =>
    -- one step puts the code of the value in the place of its name
    have hvalueReal := hereal h γ (hfit.of_subset (List.subset_append_left _ _)
      (List.subset_append_left _ _)) value.ty (.inl rfl)
    have hstep : (Code.subst γ.code (letCode name true value.code r.code)).step? globals =
        some (r.code.subst (γ.set name (value.code.subst γ.code) (γ.isClosed_subst _)).code) :=
      congrArg some (Code.replace_subst_bind γ.closed name _ _)
    refine (hbody _ ?_).of_evaluatesTo (.step hstep)
    refine (hfit.of_extends ht.context hext₁).extend_kept (ht.context.follows hk₁) hx heClosed
      (γ.isClosed_subst _) hvalue.avoided hvalueReal ?_ (List.subset_append_right _ _)
    exact fun n hn hne => Code.mem_freeNames_letIn.2 (.inr ⟨hn, hne⟩)
  | false =>
    -- the code of the body has that of the value in it already, so the store is as it was
    exact hbody γ ((hfit.of_extends ht.context hext₁).extend_erased (ht.context.follows hk₁) hx
      heClosed value.ty)

/-- A function does for each argument what its body does, if the parameter has the argument as its
value. -/
theorem lam {name s n : BinderName} {er : Bool} {body ty bind tyBody : Term} {x : Var}
    {prim : Option Primitive} {r : Elaborated} (hclosed : table.IsLocallyClosed)
    (hfree : table.IsVarFree) (ht : Situated ctx k (.lam name er body)) (hty : Settled k ty)
    (hall : WeakHead table ty (.all s n bind tyBody)) (hx : Kernel.fresh name k = .ok x k₁)
    (hb : Computes table globals (ctx.extend x bind) (body.instantiate [.ann true (.var x) bind])
      (.analysis
        (tyBody.instantiate [.ann true (.lam name er body) ty, .ann true (.var x) bind]))
      k₁ r) :
    Computes table globals ctx (.lam name er body) (.analysis ty) k
      ⟨instCode prim (lamCode name er r.code), ty⟩ := by
  intro ρ
  -- variables that are issued in the body are not named by the type, so no value is added
  refine ⟨ρ, .refl k ρ, fun h γ hfit ty' hty' => ?_⟩
  have heq : ty' = ty := by
    rcases hty' with rfl | hmode
    · rfl
    · cases hmode
      rfl
  rw [heq]
  have hallSettled := hty.weakHead hclosed hfree hall
  have hk₁ := Kernel.follows_of_fresh hx
  have hhead : WeakHead table (ρ.apply ty) (.all s n (ρ.apply bind) (ρ.apply tyBody)) :=
    ρ.weakHead_apply hfree hall (.all ..)
  -- the body with an argument in it
  have hbody : ∀ (j : Nat) (a : Term) (ha : a.IsLocallyClosed) (γ' : Store),
      Fits table globals j (ctx.extend x bind) (ρ.set x.id a ha) γ' r.code →
      Realizes table globals j ((ρ.apply body).instantiate [a])
        ((ρ.apply tyBody).instantiate [.lam name er (ρ.apply body), a])
        (r.code.subst γ'.code) := by
    intro j a ha γ' hfit'
    obtain ⟨ρ', hext, hreal⟩ := hb (ρ.set x.id a ha)
    have hsituated := ht.lamBody hx hallSettled.bind
    have hbodyTy := ht.term.lamBodyTy hty hallSettled hx
    have hr := hreal j γ' hfit' _ (.inr rfl)
    rw [hext.apply_eq hbodyTy.avoided] at hr
    have hextX := Valuation.extends_set hx ρ ha
    have hvar : (ρ.set x.id a ha).value x.id = a := Valuation.value_set_self ρ x.id ha
    have hlamClosed := ρ.isLocallyClosed_apply ht.term.closed
    refine hr.congr_bare hclosed hfree (Valuation.isLocallyClosed_apply _ hsituated.term.closed)
      (Term.ClosedAt.instantiate_one hlamClosed ha)
      (Valuation.isLocallyClosed_apply _ hbodyTy.closed)
      (Term.ClosedAt.instantiate_two (ρ.isLocallyClosed_apply hallSettled.closed).2 hlamClosed ha)
      ?_ ?_
    · have hbodyρ : (ρ.set x.id a ha).apply body = ρ.apply body := hextX.apply_eq ht.term.avoided
      rw [← hbodyρ]
      refine (Valuation.bare_apply_instantiate _ ?_ body).symm
      simp only [List.map_cons, List.map_nil, Valuation.bare_apply_ann, Valuation.apply_var, hvar]
    · rw [← hextX.apply_eq hallSettled.avoided_allBody]
      refine (Valuation.bare_apply_instantiate _ ?_ tyBody).symm
      have hself : (ρ.set x.id a ha).apply (.lam name er body) = ρ.apply (.lam name er body) :=
        hextX.apply_eq ht.term.avoided
      simp only [List.map_cons, List.map_nil, Valuation.bare_apply_ann, Valuation.apply_var, hvar,
        hself]
      rfl
  -- a mark on the function is passed over
  refine Realizes.of_evaluatesTo ?_
    ((subst_instCode prim _ γ.code).symm ▸ evaluatesTo_instCode prim _)
  cases er with
  | true =>
    exact .lam_erased hhead fun j hj a ha =>
      hbody j a ha γ ((hfit.inst.mono hj).extend_erased ht.context hx ha bind)
  | false =>
    refine .lam_kept hhead fun j hj a v ha hv hreal => ?_
    rw [Code.replace_subst_bind γ.closed]
    refine hbody j a ha (γ.set name v hv) ((hfit.inst.mono hj).extend_kept ht.context hx ha hv
      hallSettled.bind.avoided hreal ?_ (List.Subset.refl _))
    exact fun n hn hne => Code.mem_freeNames_lam.2 ⟨hn, hne⟩

end Computes

/-! ## Derivations -/

/-- The code of an elaborated term computes what the term does. -/
theorem Derives.computes {env : Environment} (hclosed : env.table.IsLocallyClosed)
    (hfree : env.table.IsVarFree) (hsub : env.subsumption = true)
    (globals : DefName → Option Code) {ctx : Context} {t : Term} {mode : Mode} {k k' : Kernel}
    {r : Elaborated} (h : Derives env ctx t mode k r k') (ht : Situated ctx k t)
    (hmode : mode.IsSettled k) : Computes env.table globals ctx t mode k r := by
  -- a case is the lemma of its rule; what the rule assumes of the types that were found on the way
  -- is `Derives.settled` for its premises
  induction h with
  | later hk _ _ ih => exact (ih (ht.follows hk) (hmode.follows hk)).of_follows hk
  | var hx => exact .var ht hx
  | ref hd => exact .ref hfree hd
  | typ | all => exact .type hfree nofun
  | type hty =>
    refine .type hfree fun ty heq => ?_
    cases heq
    exact hty
  | literal hliteral => exact .literal hliteral
  | ann _ ih => exact .ann (ih ht.ann (Mode.isSettled_analysis ht.term.annTy))
  | loc _ _ ih => exact .loc (ih ht.loc hmode)
  | app hf hall _ ihf iha =>
    obtain ⟨hk₁, hfunc⟩ := hf.settled hclosed hfree ht.func (Mode.isSettled_synthesis _)
    have hbind := (hfunc.weakHead hclosed hfree hall).bind
    exact .app hclosed hfree ht hk₁ hfunc hall (ihf ht.func (Mode.isSettled_synthesis _))
      (iha (ht.arg.follows hk₁) (Mode.isSettled_analysis hbind))
  | letIn he hx hb ihe ihb =>
    obtain ⟨hk₁, hvalue⟩ := he.settled hclosed hfree ht.expr (Mode.isSettled_synthesis _)
    have hbody := (ht.follows hk₁).letBody hx hvalue
    have hmode₂ := hmode.follows (hk₁.trans (Kernel.follows_of_fresh hx))
    obtain ⟨-, hr⟩ := hb.settled hclosed hfree hbody hmode₂
    exact .letIn hclosed hfree ht hmode hk₁ hvalue hx hr (ihe ht.expr (Mode.isSettled_synthesis _))
      (ihb hbody hmode₂)
  | lam hall hx _ ih =>
    have hty := hmode _ rfl
    have hallSettled := hty.weakHead hclosed hfree hall
    exact .lam hclosed hfree ht hty hall hx (ih (ht.lamBody hx hallSettled.bind)
      (Mode.isSettled_analysis (ht.term.lamBodyTy hty hallSettled hx)))
  | infer _ _ hinfer hequal _ ih =>
    obtain ⟨hk₁, hr⟩ := hinfer.settled hclosed hfree ht (Mode.isSettled_synthesis _)
    have hty := hmode _ rfl
    obtain ⟨depth, hequal⟩ := hequal hsub
    have hconv := Convertible.of_equal hfree hr.avoided (hty.follows hk₁).avoided hequal
    exact .infer hclosed hfree ht hr hty hconv (ih ht (Mode.isSettled_synthesis _))

end SelfTypes
