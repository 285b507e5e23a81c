import SelfTypes.Proofs.Elaboration.TypeScope
import SelfTypes.Proofs.Kernel.Classification

/-!
# Elaboration without states

`Judges env kept ctx t mode r` says by rules what the elaborator makes of a term, with no kernel in
it: all that a run asks the kernel for is said by normal forms, by convertibility and by
`Kernel.primitive?`, and of the variables that a run issues only that they are new. For each term
and each mode there is one rule that applies, so two judgements on the same term can be compared
rule by rule, whatever runs they come from. Main statements: `judges_of_infer` and
`judges_of_check`, by which every success of the elaborator has a judgement, if it starts with a
kernel that is not to issue the variables that are there already.
-/

namespace SelfTypes

/-! ## Rules -/

/-- A variable for a binder in the term: it has the name of the binder and is new. -/
structure Var.IsNew (x : Var) (kept : List VarId) (name : BinderName) (t : Term) : Prop where
  name : x.name = name
  notKept : x.id ∉ kept
  notFree : x.id ∉ t.freeIds

/-- Elaboration looks at the parts of the term: if it is checked, it is no literal, and what is
expected of it is more than to be a type. -/
def Mode.LooksInto (table : Table) (t : Term) : Mode → Prop
  | .synthesis => True
  | .analysis ty => Elaborator.literal? t = none ∧ ¬ WeakHead table ty .typ

/-- In the context, the term is elaborated to the given code and type, with variables that are none
of those to be kept. -/
inductive Judges (env : Environment) (kept : List VarId) :
    Context → Term → Mode → Elaborated → Prop where
  | var {ctx : Context} {x : Var} {ty : Term} :
      ctx.find? x.id = some ty → Judges env kept ctx (.var x) .synthesis ⟨.var x.name, ty⟩
  | ref {ctx : Context} {name : DefName} {d : Definition} :
      env.table.find? name = some d → Judges env kept ctx (.ref name) .synthesis ⟨.ref name, d.ty⟩
  | typ {ctx : Context} : Judges env kept ctx .typ .synthesis ⟨.nul, .typ⟩
  | all {ctx : Context} {s n : BinderName} {a b : Term} :
      Judges env kept ctx (.all s n a b) .synthesis ⟨.nul, .typ⟩
  | app {ctx : Context} {f a bind body : Term} {er : Bool} {s n : BinderName}
      {func arg : Elaborated} :
      Judges env kept ctx f .synthesis func →
      WeakHead env.table func.ty (.all s n bind body) →
      Judges env kept ctx a (.analysis bind) arg →
      Judges env kept ctx (.app f a er) .synthesis
        ⟨appCode er (calleeCode (Kernel.primitive? env.table (.all s n bind body)) func.code)
            arg.code,
          body.instantiate [.ann true f (.all s n bind body), .ann true a bind]⟩
  | letIn {ctx : Context} {name : BinderName} {dup : Bool} {e b : Term} {mode : Mode} {x : Var}
      {value r : Elaborated} :
      mode.LooksInto env.table (.letIn name dup e b) →
      Judges env kept ctx e .synthesis value →
      x.IsNew kept name (.letIn name dup e b) →
      Judges env kept (ctx.extend x value.ty) (b.instantiate [letStandIn dup x e value.ty]) mode r →
      Judges env kept ctx (.letIn name dup e b) mode ⟨letCode name dup value.code r.code, r.ty⟩
  | ann {ctx : Context} {done : Bool} {e ty : Term} {r : Elaborated} :
      Judges env kept ctx e (.analysis ty) r → Judges env kept ctx (.ann done e ty) .synthesis r
  | loc {ctx : Context} {span : Span} {e : Term} {mode : Mode} {r : Elaborated} :
      mode.LooksInto env.table (.loc span e) →
      Judges env kept ctx e mode r → Judges env kept ctx (.loc span e) mode r
  /-- A literal is accepted at every type. -/
  | literal {ctx : Context} {t ty : Term} {r : Elaborated} :
      Elaborator.literal? t = some r → Judges env kept ctx t (.analysis ty) r
  /-- What stands in the place of a type is accepted as it is, unless it is a literal. -/
  | type {ctx : Context} {t ty : Term} :
      Elaborator.literal? t = none → WeakHead env.table ty .typ →
      Judges env kept ctx t (.analysis ty) ⟨.nul, .typ⟩
  | lam {ctx : Context} {name s n : BinderName} {er : Bool} {body ty bind tyBody : Term}
      {x : Var} {r : Elaborated} :
      WeakHead env.table ty (.all s n bind tyBody) →
      x.IsNew kept name (.lam name er body) →
      Judges env kept (ctx.extend x bind) (body.instantiate [.ann true (.var x) bind])
        (.analysis
          (tyBody.instantiate [.ann true (.lam name er body) ty, .ann true (.var x) bind])) r →
      Judges env kept ctx (.lam name er body) (.analysis ty)
        ⟨instCode (Kernel.primitive? env.table ty) (lamCode name er r.code), ty⟩
  /-- A term without a rule of its own shows its type, which has to be the expected one. -/
  | shown {ctx : Context} {t ty : Term} {r : Elaborated} :
      t.hasCheckRule = false → (Mode.analysis ty).LooksInto env.table t →
      Judges env kept ctx t .synthesis r →
      (env.subsumption = true → Convertible env.table r.ty ty) →
      Judges env kept ctx t (.analysis ty) ⟨r.code, ty⟩

/-! ## Variables that are there already -/

/-- The kernel is not to issue the variables to be kept, nor those of the term and of the types in
the context. -/
structure Unissued (kept : List VarId) (ctx : Context) (k : Kernel) (t : Term) : Prop where
  kept : ∀ id ∈ kept, ¬ k.supply.CanIssue id
  context : ∀ p ∈ ctx.bindings, k.Avoids p.2
  term : k.Avoids t

namespace Unissued

variable {kept : List VarId} {ctx : Context} {k k' : Kernel} {f a e b t ty v : Term}
  {er dup : Bool} {name : BinderName} {x : Var} {span : Span}

theorem follows (h : Unissued kept ctx k t) (hk : k.Follows k') : Unissued kept ctx k' t where
  kept id hid hissue := h.kept id hid (hk.canIssue hissue)
  context p hp := hk.avoids (h.context p hp)
  term := hk.avoids h.term

/-- A part of the term. -/
theorem part (h : Unissued kept ctx k t) (hpart : ∀ id ∈ v.freeIds, id ∈ t.freeIds) :
    Unissued kept ctx k v :=
  ⟨h.kept, h.context, h.term.of_subset hpart⟩

theorem left (h : Unissued kept ctx k (.app f a er)) : Unissued kept ctx k f :=
  h.part fun _ hid => List.mem_append.2 (.inl hid)

theorem right (h : Unissued kept ctx k (.app f a er)) : Unissued kept ctx k a :=
  h.part fun _ hid => List.mem_append.2 (.inr hid)

theorem value (h : Unissued kept ctx k (.letIn name dup e b)) : Unissued kept ctx k e :=
  h.part fun _ hid => List.mem_append.2 (.inl hid)

theorem isNew (h : Unissued kept ctx k t) (hx : Kernel.fresh name k = .ok x k') :
    x.IsNew kept name t where
  name := Kernel.name_of_fresh hx
  notKept hid := h.kept x.id hid (Kernel.canIssue_of_fresh hx)
  notFree := Kernel.notMem_of_fresh hx h.term

/-- A scope that is opened for an issued variable. -/
theorem extend (h : Unissued kept ctx k b) (hx : Kernel.fresh name k = .ok x k')
    (hty : k.Avoids ty) (hv : k'.Avoids v) :
    Unissued kept (ctx.extend x ty) k' (b.instantiate [v]) where
  kept := (h.follows (Kernel.follows_of_fresh hx)).kept
  context := List.forall_mem_cons.2
    ⟨(Kernel.follows_of_fresh hx).avoids hty, (h.follows (Kernel.follows_of_fresh hx)).context⟩
  term := ((Kernel.follows_of_fresh hx).avoids h.term).instantiate (List.forall_mem_singleton.2 hv)

theorem letBody (h : Unissued kept ctx k (.letIn name dup e b))
    (hx : Kernel.fresh name k = .ok x k') (hty : k.Avoids ty) :
    Unissued kept (ctx.extend x ty) k' (b.instantiate [letStandIn dup x e ty]) := by
  have hb : Unissued kept ctx k b := h.part fun _ hid => List.mem_append.2 (.inr hid)
  refine hb.extend hx hty fun id hid => ?_
  have hk := Kernel.follows_of_fresh hx
  -- the variables of the body are those of the stand-in and those it had below the binder
  rcases List.mem_append.1 hid with hid | hid
  · cases dup with
    | true => exact Kernel.avoids_of_fresh hx id hid
    | false => exact hk.avoids h.value.term id hid
  · exact hk.avoids hty id hid

theorem lamBody (h : Unissued kept ctx k (.lam name er b))
    (hx : Kernel.fresh name k = .ok x k') (hty : k.Avoids ty) :
    Unissued kept (ctx.extend x ty) k' (b.instantiate [.ann true (.var x) ty]) := by
  have hb : Unissued kept ctx k b := h.part fun _ hid => hid
  refine hb.extend hx hty fun id hid => ?_
  rcases List.mem_append.1 hid with hid | hid
  · exact Kernel.avoids_of_fresh hx id hid
  · exact (Kernel.follows_of_fresh hx).avoids hty id hid

/-- The variables of the type that is inferred for the term are there already as well. -/
theorem avoids_ty {env : Environment} (hfree : env.table.IsVarFree) {r : Elaborated}
    (h : Unissued kept ctx k t) (hderives : Derives env ctx t .synthesis k r k') :
    k'.Avoids r.ty := by
  intro id hid
  cases hderives.varSource_ty hfree hid with
  | term hid => exact (h.follows hderives.follows).term id hid
  | context hp hid => exact (h.follows hderives.follows).context _ hp id hid
  | shared _ hissued => exact hissued.2

end Unissued

/-! ## Successes have judgements -/

namespace Elaborator

variable {env : Environment} {depth : Nat} {kept : List VarId} {ctx : Context} {t ty : Term}
  {e e' : Elaborator} {r : Elaborated}

/-- Every success within a depth has a judgement. -/
structure JudgesWithin (env : Environment) (depth : Nat) : Prop where
  infer : ∀ {kept ctx t e r e'}, Unissued kept ctx e.kernel t →
    infer env depth ctx t e = .ok r e' → Judges env kept ctx t .synthesis r
  check : ∀ {kept ctx t ty e r e'}, Unissued kept ctx e.kernel t → e.kernel.Avoids ty →
    check env depth ctx t ty e = .ok r e' → Judges env kept ctx t (.analysis ty) r

/-- The steps of a local definition that is elaborated with success. -/
theorem steps_of_elaborateLet (hfree : env.table.IsVarFree) {name : BinderName} {dup : Bool}
    {expr body : Term} {onBody : Context → Term → ElaboratorM Elaborated}
    (ht : Unissued kept ctx e.kernel (.letIn name dup expr body))
    (h : elaborateLet ctx name dup expr body (infer env depth ctx expr) onBody e = .ok r e') :
    ∃ value x result e₁ e₂ e₃, infer env depth ctx expr e = .ok value e₁ ∧
      x.IsNew kept name (.letIn name dup expr body) ∧ e.kernel.Follows e₂.kernel ∧
      Unissued kept (ctx.extend x value.ty) e₂.kernel
        (body.instantiate [letStandIn dup x expr value.ty]) ∧
      onBody (ctx.extend x value.ty) (body.instantiate [letStandIn dup x expr value.ty]) e₂ =
        .ok result e₃ ∧
      r = ⟨letCode name dup value.code result.code, result.ty⟩ := by
  obtain ⟨value, e₁, hvalue, h⟩ := EStateM.ok_of_bind_ok h
  obtain ⟨x, e₂, hfresh, h⟩ := EStateM.ok_of_bind_ok h
  obtain ⟨result, e₃, hresult, h⟩ := EStateM.ok_of_bind_ok h
  -- whatever the value and its type mention was issued before the new variable is
  have hderives := derives_of_infer hvalue
  have hx := ok_of_lift hfresh
  have ht₁ := ht.follows hderives.follows
  have hty := ht.value.avoids_ty hfree hderives
  cases h
  exact ⟨value, x, result, e₁, e₂, _, hvalue, ht₁.isNew hx,
    hderives.follows.trans (Kernel.follows_of_fresh hx), ht₁.letBody hx hty, hresult, rfl⟩

theorem judges_of_elaborateLet (hfree : env.table.IsVarFree) {name : BinderName} {dup : Bool}
    {expr body : Term} {mode : Mode}
    (hlooks : mode.LooksInto env.table (.letIn name dup expr body))
    {onBody : Context → Term → ElaboratorM Elaborated} (ih : JudgesWithin env depth)
    (ht : Unissued kept ctx e.kernel (.letIn name dup expr body))
    (hbody : ∀ {ctx t e₁ r e₂}, e.kernel.Follows e₁.kernel → Unissued kept ctx e₁.kernel t →
      onBody ctx t e₁ = .ok r e₂ → Judges env kept ctx t mode r)
    (h : elaborateLet ctx name dup expr body (infer env depth ctx expr) onBody e = .ok r e') :
    Judges env kept ctx (.letIn name dup expr body) mode r := by
  obtain ⟨value, x, result, e₁, e₂, e₃, hvalue, hx, hk, ht₂, hresult, rfl⟩ :=
    steps_of_elaborateLet hfree ht h
  exact .letIn hlooks (ih.infer ht.value hvalue) hx (hbody hk ht₂ hresult)

/-- One level of `infer`, from the level below. -/
theorem judges_of_infer_succ (hfree : env.table.IsVarFree) (ih : JudgesWithin env depth)
    (ht : Unissued kept ctx e.kernel t) (h : infer env (depth + 1) ctx t e = .ok r e') :
    Judges env kept ctx t .synthesis r := by
  simp only [infer] at h
  obtain ⟨_, h, -⟩ := ok_of_within h
  obtain ⟨_, e₁, hnote, h⟩ := EStateM.ok_of_bind_ok h
  have hnoted := follows_of_lift (Kernel.progresses_note _) hnote
  replace ht : Unissued kept ctx e₁.kernel t := ht.follows hnoted
  cases t with
  -- no rule infers the type of an index or of a function
  | bound => cases h
  | lam => cases h
  | typ =>
    cases h
    exact .typ
  | all =>
    cases h
    exact .all
  | var x =>
    simp only at h
    cases hx : ctx.find? x.id with
    | none =>
      rw [hx] at h
      cases h
    | some ty =>
      rw [hx] at h
      cases h
      exact .var hx
  | ref name =>
    simp only at h
    cases hname : env.table.find? name with
    | none =>
      rw [hname] at h
      cases h
    | some d =>
      rw [hname] at h
      cases h
      exact .ref hname
  | app f a er =>
    obtain ⟨func, e₂, hfunc, h⟩ := EStateM.ok_of_bind_ok h
    obtain ⟨funcTy, e₃, hreduce, h⟩ := EStateM.ok_of_bind_ok h
    -- the type of the function and its head avoid what is issued from here on, so that classifying
    -- it comes to the primitive it is equal to
    have hderives := derives_of_infer hfunc
    have hreduced := follows_of_lift (Kernel.progresses_reduce _ _ _) hreduce
    have hweak := Kernel.weakHead_of_reduce (ok_of_lift hreduce)
    have hall := (hreduced.avoids (ht.left.avoids_ty hfree hderives)).weakHead hfree hweak
    cases funcTy with
    | all s n bind body =>
      obtain ⟨arg, e₄, harg, h⟩ := EStateM.ok_of_bind_ok h
      obtain ⟨prim, e₅, hprim, h⟩ := EStateM.ok_of_bind_ok h
      have ha := ht.right.follows (hderives.follows.trans hreduced)
      have hbind := hall.of_subset (u := bind) fun _ hid => List.mem_append.2 (.inl hid)
      have hchecked := (derives_of_check harg).follows
      have hprimitive :=
        Kernel.eq_primitive?_of_classify hfree (hchecked.avoids hall) (ok_of_lift hprim)
      cases h
      rw [hprimitive]
      exact .app (ih.infer ht.left hfunc) hweak (ih.check ha hbind harg)
    | _ => cases h
  | letIn name dup expr body =>
    exact judges_of_elaborateLet hfree trivial ih ht (fun _ ht h => ih.infer ht h) h
  | ann _ expr ty =>
    exact .ann (ih.check (ht.part fun _ hid => List.mem_append.2 (.inl hid))
      (ht.term.of_subset fun _ hid => List.mem_append.2 (.inr hid)) h)
  | loc _ expr => exact .loc trivial (ih.infer (ht.part fun _ hid => hid) h)

/-- A term that is looked into and has no rule of its own. -/
theorem judges_of_shown (hfree : env.table.IsVarFree) (ih : JudgesWithin env depth)
    (ht : Unissued kept ctx e.kernel t) (hty : e.kernel.Avoids ty)
    (hrule : t.hasCheckRule = false) (hlooks : (Mode.analysis ty).LooksInto env.table t)
    (h : (infer env depth ctx t >>= fun result =>
      if env.subsumption then
        equal env depth result.ty ty >>= fun same =>
          if same then pure (⟨result.code, ty⟩ : Elaborated) else raise (.mismatch ty result.ty)
      else pure ⟨result.code, ty⟩) e = .ok r e') :
    Judges env kept ctx t (.analysis ty) r := by
  obtain ⟨result, e₁, hresult, h⟩ := EStateM.ok_of_bind_ok h
  have hderives := derives_of_infer hresult
  have hjudges := ih.infer ht hresult
  -- with subsumption the comparison has to succeed, and without it nothing is asked
  split at h
  · obtain ⟨same, e₂, hequal, h⟩ := EStateM.ok_of_bind_ok h
    cases same with
    | false => cases h
    | true =>
      cases h
      exact .shown hrule hlooks hjudges fun _ =>
        .of_equal hfree (ht.avoids_ty hfree hderives) (hderives.follows.avoids hty)
          (ok_of_lift hequal)
  · rename_i hsubsumption
    cases h
    exact .shown hrule hlooks hjudges fun h => absurd h hsubsumption

/-- One level of `check`, from the level below. -/
theorem judges_of_check_succ (hfree : env.table.IsVarFree) (ih : JudgesWithin env depth)
    (ht : Unissued kept ctx e.kernel t) (hty : e.kernel.Avoids ty)
    (h : check env (depth + 1) ctx t ty e = .ok r e') :
    Judges env kept ctx t (.analysis ty) r := by
  simp only [check] at h
  obtain ⟨_, h, -⟩ := ok_of_within h
  obtain ⟨_, e₁, hnote, h⟩ := EStateM.ok_of_bind_ok h
  have hnoted := follows_of_lift (Kernel.progresses_note _) hnote
  -- the order of the cases is that of the checker: literals, places of types, rules of terms
  cases hliteral : literal? t with
  | some result =>
    rw [hliteral] at h
    cases h
    exact .literal hliteral
  | none =>
    simp only [hliteral] at h
    obtain ⟨tyHead, e₂, hreduce, h⟩ := EStateM.ok_of_bind_ok h
    have hweak := Kernel.weakHead_of_reduce (ok_of_lift hreduce)
    have hk : e.kernel.Follows e₂.kernel :=
      hnoted.trans (follows_of_lift (Kernel.progresses_reduce _ _ _) hreduce)
    replace ht := ht.follows hk
    replace hty := hk.avoids hty
    -- a term checked against the universe is not looked into
    split at h
    · rename_i htyp
      cases h
      exact .type hliteral (htyp ▸ hweak)
    · rename_i htyp
      have hlooks : (Mode.analysis ty).LooksInto env.table t :=
        ⟨hliteral, fun h => htyp (hweak.unique h)⟩
      cases t with
      | lam name er body =>
        have hhead := hty.weakHead hfree hweak
        cases tyHead with
        | all s n bind tyBody =>
          obtain ⟨x, e₃, hfresh, h⟩ := EStateM.ok_of_bind_ok h
          obtain ⟨result, e₄, hbody, h⟩ := EStateM.ok_of_bind_ok h
          obtain ⟨prim, e₅, hprim, h⟩ := EStateM.ok_of_bind_ok h
          have hx := ok_of_lift hfresh
          have hk₃ := Kernel.follows_of_fresh hx
          have hbind := hhead.of_subset (u := bind) fun _ hid => List.mem_append.2 (.inl hid)
          have htyBody := hhead.of_subset (u := tyBody) fun _ hid => List.mem_append.2 (.inr hid)
          -- the function itself and its parameter stand in the type of the body, and both avoid
          -- what is issued while the body is checked
          have hself : e₃.kernel.Avoids (.ann true (.lam name er body) ty) := fun id hid =>
            (List.mem_append.1 hid).elim (hk₃.avoids ht.term id) (hk₃.avoids hty id)
          have harg : e₃.kernel.Avoids (.ann true (.var x) bind) := fun id hid =>
            (List.mem_append.1 hid).elim (Kernel.avoids_of_fresh hx id) (hk₃.avoids hbind id)
          have hbodyTy := (hk₃.avoids htyBody).instantiate
            (List.forall_mem_cons.2 ⟨hself, List.forall_mem_singleton.2 harg⟩)
          have hprimitive := Kernel.eq_primitive?_of_classify hfree
            ((hk₃.trans (derives_of_check hbody).follows).avoids hty) (ok_of_lift hprim)
          have hlam := Judges.lam hweak (ht.isNew hx) (ih.check (ht.lamBody hx hbind) hbodyTy hbody)
          -- the mark of a native type depends on what classifying found, which is `primitive?`
          rw [← hprimitive] at hlam
          cases prim <;> cases h <;> exact hlam
        | _ => cases h
      | letIn name dup expr body =>
        exact judges_of_elaborateLet hfree hlooks ih ht
          (fun hk ht h => ih.check ht (hk.avoids hty) h) h
      | loc _ expr => exact .loc hlooks (ih.check (ht.part fun _ hid => hid) hty h)
      | _ => exact judges_of_shown hfree ih ht hty rfl hlooks h

theorem judgesWithin (hfree : env.table.IsVarFree) (depth : Nat) : JudgesWithin env depth := by
  induction depth with
  | zero =>
    -- nothing is accepted at depth zero
    refine ⟨?_, ?_⟩
    · intro kept ctx t e r e' _ h
      cases h
    · intro kept ctx t ty e r e' _ _ h
      cases h
  | succ depth ih => exact ⟨judges_of_infer_succ hfree ih, judges_of_check_succ hfree ih⟩

theorem judges_of_infer (hfree : env.table.IsVarFree) (ht : Unissued kept ctx e.kernel t)
    (h : infer env depth ctx t e = .ok r e') : Judges env kept ctx t .synthesis r :=
  (judgesWithin hfree depth).infer ht h

theorem judges_of_check (hfree : env.table.IsVarFree) (ht : Unissued kept ctx e.kernel t)
    (hty : e.kernel.Avoids ty) (h : check env depth ctx t ty e = .ok r e') :
    Judges env kept ctx t (.analysis ty) r :=
  (judgesWithin hfree depth).check ht hty h

end Elaborator

end SelfTypes
