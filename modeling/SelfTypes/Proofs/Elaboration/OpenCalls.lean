import Mathlib.Data.List.Chain
import SelfTypes.Proofs.Elaboration.Derivation
import SelfTypes.Proofs.Kernel.Exhaustion

/-!
# Open calls

A failure lists the tasks that were open when it arose. `Call.Makes` says which calls the rule for a
call makes, in which context and with which expected type, and `Call.Raises` says which causes the
rule for a call gives itself. The tasks of a failure are those of a chain of calls, each made by the
rule for the one before; it starts with the call that was asked for and ends with one whose rule
gives the cause. So no call is listed that had come to an end. Main statement:
`Elaborator.failure_lists_open_calls`, by which the elaborator is also left with the tasks that were
open before, whatever happens.
-/

namespace SelfTypes

/-! ## Calls -/

/-- A task in a context, together with the kernel that it starts from. -/
structure Call where
  ctx : Context
  task : Task
  kernel : Kernel

/-- The term is elaborated by its form: where it is checked, it is no literal, and its type is not
that of types. -/
def Mode.ByForm (table : Table) (t : Term) : Mode → Prop
  | .synthesis => True
  | .analysis ty => Elaborator.literal? t = none ∧ ∃ head, WeakHead table ty head ∧ head ≠ .typ

/-- Whether the rule for a task takes steps of the budget itself: it reduces, compares or classifies
a type. -/
def Task.spends : Task → Bool
  | .term _ (.analysis _) | .term (.app ..) .synthesis => true
  | _ => false

namespace Call

/-- The rule for the first call makes the second one. -/
inductive Makes (env : Environment) : Call → Call → Prop where
  /-- The body of a definition is checked against its type, both without locations. -/
  | definition {ctx : Context} {name : DefName} {d : Definition} {k k' : Kernel} :
      env.table.find? name = some d → k.Follows k' →
      Makes env ⟨ctx, .definition name, k⟩
        ⟨.empty, .term d.body.unlocate (.analysis d.ty.unlocate), k'⟩
  /-- The type of the function is found first. -/
  | func {ctx : Context} {f a : Term} {er : Bool} {k k' : Kernel} :
      k.Follows k' →
      Makes env ⟨ctx, .term (.app f a er) .synthesis, k⟩ ⟨ctx, .term f .synthesis, k'⟩
  /-- The argument is checked against the type that the function takes. -/
  | arg {ctx : Context} {f a bind body : Term} {er : Bool} {s n : BinderName} {func : Elaborated}
      {k k' : Kernel} :
      Derives env ctx f .synthesis k func k' → WeakHead env.table func.ty (.all s n bind body) →
      Makes env ⟨ctx, .term (.app f a er) .synthesis, k⟩ ⟨ctx, .term a (.analysis bind), k'⟩
  /-- The type of the value of a local definition is found in both modes. -/
  | value {ctx : Context} {name : BinderName} {dup : Bool} {e b : Term} {mode : Mode}
      {k k' : Kernel} :
      mode.ByForm env.table (.letIn name dup e b) → k.Follows k' →
      Makes env ⟨ctx, .term (.letIn name dup e b) mode, k⟩ ⟨ctx, .term e .synthesis, k'⟩
  /-- The body of a local definition is opened and elaborated in the same mode. -/
  | letBody {ctx : Context} {name : BinderName} {dup : Bool} {e b : Term} {mode : Mode} {x : Var}
      {value : Elaborated} {k k₁ k' : Kernel} :
      mode.ByForm env.table (.letIn name dup e b) → Derives env ctx e .synthesis k value k₁ →
      Kernel.fresh name k₁ = .ok x k' →
      Makes env ⟨ctx, .term (.letIn name dup e b) mode, k⟩
        ⟨ctx.extend x value.ty, .term (b.instantiate [letStandIn dup x e value.ty]) mode, k'⟩
  /-- An annotated term is checked against its annotation. -/
  | ann {ctx : Context} {done : Bool} {e ty : Term} {k k' : Kernel} :
      k.Follows k' →
      Makes env ⟨ctx, .term (.ann done e ty) .synthesis, k⟩ ⟨ctx, .term e (.analysis ty), k'⟩
  | loc {ctx : Context} {span : Span} {e : Term} {mode : Mode} {k k' : Kernel} :
      mode.ByForm env.table (.loc span e) → k.Follows k' →
      Makes env ⟨ctx, .term (.loc span e) mode, k⟩ ⟨ctx, .term e mode, k'⟩
  /-- The body of a function is opened and checked against the opened body of its type. -/
  | lamBody {ctx : Context} {name s n : BinderName} {er : Bool} {body ty bind tyBody : Term}
      {x : Var} {k k₁ k' : Kernel} :
      Elaborator.literal? (.lam name er body) = none →
      WeakHead env.table ty (.all s n bind tyBody) →
      k.Follows k₁ → Kernel.fresh name k₁ = .ok x k' →
      Makes env ⟨ctx, .term (.lam name er body) (.analysis ty), k⟩
        ⟨ctx.extend x bind, .term (body.instantiate [.ann true (.var x) bind])
          (.analysis (tyBody.instantiate
            [.ann true (.lam name er body) ty, .ann true (.var x) bind])), k'⟩
  /-- The type of a term without a rule of its own is found, to be compared. -/
  | synthesis {ctx : Context} {t ty : Term} {k k' : Kernel} :
      t.hasCheckRule = false → Mode.ByForm env.table t (.analysis ty) → k.Follows k' →
      Makes env ⟨ctx, .term t (.analysis ty), k⟩ ⟨ctx, .term t .synthesis, k'⟩

/-- The rule for the call itself fails for the given cause, after the calls it has made
succeeded. -/
inductive Raises (env : Environment) : Call → Cause → Prop where
  -- no rule raises for a literal or for what stands in the place of a type: both are accepted
  | undefinedDefinition {ctx : Context} {name : DefName} {k : Kernel} :
      env.table.find? name = none →
      Raises env ⟨ctx, .definition name, k⟩ (.undefinedReference name)
  | danglingIndex {ctx : Context} {i : Nat} {k : Kernel} :
      Raises env ⟨ctx, .term (.bound i) .synthesis, k⟩ (.danglingIndex i)
  | unboundVariable {ctx : Context} {x : Var} {k : Kernel} :
      ctx.find? x.id = none → Raises env ⟨ctx, .term (.var x) .synthesis, k⟩ (.unboundVariable x)
  | undefinedReference {ctx : Context} {name : DefName} {k : Kernel} :
      env.table.find? name = none →
      Raises env ⟨ctx, .term (.ref name) .synthesis, k⟩ (.undefinedReference name)
  | uninferableFunction {ctx : Context} {name : BinderName} {er : Bool} {body : Term} {k : Kernel} :
      Raises env ⟨ctx, .term (.lam name er body) .synthesis, k⟩
        (.uninferableFunction (.lam name er body))
  | notAFunction {ctx : Context} {f a ty : Term} {er : Bool} {func : Elaborated} {k k' : Kernel} :
      Derives env ctx f .synthesis k func k' → WeakHead env.table func.ty ty →
      (∀ s n bind body, ty ≠ .all s n bind body) →
      Raises env ⟨ctx, .term (.app f a er) .synthesis, k⟩ (.notAFunction (.app f a er) ty)
  | notAFunctionType {ctx : Context} {name : BinderName} {er : Bool} {body ty head : Term}
      {k : Kernel} :
      Elaborator.literal? (.lam name er body) = none → WeakHead env.table ty head → head ≠ .typ →
      (∀ s n bind body, head ≠ .all s n bind body) →
      Raises env ⟨ctx, .term (.lam name er body) (.analysis ty), k⟩
        (.notAFunctionType (.lam name er body) head)
  | mismatch {ctx : Context} {t ty : Term} {r : Elaborated} {depth : Nat} {k k₁ k₂ : Kernel} :
      env.subsumption = true → t.hasCheckRule = false → Mode.ByForm env.table t (.analysis ty) →
      Derives env ctx t .synthesis k r k₁ → Kernel.equal env.table depth r.ty ty k₁ = .ok false k₂ →
      Raises env ⟨ctx, .term t (.analysis ty), k⟩ (.mismatch ty r.ty)
  /-- The budget is used up. -/
  | outOfFuel {call : Call} {limit : Nat} {k : Kernel} :
      call.task.spends = true → call.kernel.Follows k → k.fuel.limit = some limit →
      limit ≤ k.fuel.used → Raises env call (.outOfFuel limit)

/-- The failure of a call that was made when the tasks in `stack` were open: it lists, from the
outermost to the innermost, those tasks and then the tasks of a chain of calls, the last of which
gives the cause. -/
def Reports (env : Environment) (call : Call) (stack : List Task) (f : Failure) : Prop :=
  ∃ calls : List Call, List.IsChain (Makes env) (call :: calls) ∧
    f.stack.reverse = stack.reverse ++ (call :: calls).map Call.task ∧
    ((call :: calls).getLast (List.cons_ne_nil _ _)).Raises env f.cause

variable {env : Environment} {call sub : Call} {stack : List Task} {f : Failure}

/-- A call may fail by its own rule. -/
theorem Reports.here {cause : Cause} (h : call.Raises env cause) :
    call.Reports env stack ⟨cause, call.task :: stack⟩ :=
  ⟨[], List.isChain_singleton call, List.reverse_cons, h⟩

/-- A call may fail since a call that its rule makes does. -/
theorem Reports.through (h : call.Makes env sub) (hsub : sub.Reports env (call.task :: stack) f) :
    call.Reports env stack f := by
  obtain ⟨calls, hchain, hstack, hraises⟩ := hsub
  refine ⟨sub :: calls, .cons_cons h hchain, ?_, hraises⟩
  rw [hstack, List.reverse_cons, List.append_assoc, List.map_cons]
  rfl

end Call

/-! ## Failures within a call -/

namespace Elaborator

/-- A state within a call, with the call's task open. -/
structure During (call : Call) (stack : List Task) (e : Elaborator) : Prop where
  stack : e.stack = call.task :: stack
  kernel : call.kernel.Follows e.kernel

/-- Every failure of the computation is reported as one of the call. -/
def Reporting (env : Environment) (call : Call) (stack : List Task) {α : Type} (x : ElaboratorM α)
    (e : Elaborator) : Prop :=
  ∀ f e', x e = .error (.failed f) e' → call.Reports env stack f

section Within

variable {env : Environment} {call sub : Call} {stack : List Task} {α β : Type} {x : ElaboratorM α}
  {e e' : Elaborator}

/-- What succeeds within a call stays within it. -/
theorem During.of_ok (h : During call stack e) (hx : Progresses Follows x) {a : α}
    (hok : x e = .ok a e') : During call stack e' := by
  have hfollows := hx.of_ok hok
  exact ⟨hfollows.stack.trans h.stack, h.kernel.trans hfollows.kernel⟩

namespace Reporting

theorem pure (a : α) : Reporting env call stack (Pure.pure a) e := by
  intro f e' h
  cases h

theorem bind {f : α → ElaboratorM β} (hx : Reporting env call stack x e)
    (hf : ∀ a e', x e = .ok a e' → Reporting env call stack (f a) e') :
    Reporting env call stack (x >>= f) e := by
  intro failure e' h
  obtain h | ⟨a, e₁, hxe, h⟩ := EStateM.error_of_bind_error h
  · exact hx failure e' h
  · exact hf a e₁ hxe failure e' h

/-- A cause that the rule for the call gives. -/
theorem raise {cause : Cause} (h : During call stack e) (hraises : call.Raises env cause) :
    Reporting env call stack (Elaborator.raise cause : ElaboratorM α) e := by
  intro f e' hfailed
  cases hfailed
  rw [h.stack]
  exact .here hraises

/-- An action of the kernel fails only if the budget is used up. -/
theorem lift {x : KernelM α} (h : During call stack e) (hspends : call.task.spends = true)
    (hx : Kernel.StaysWithin x) : Reporting env call stack (lift x) e := by
  intro f e' hfailed
  -- a failure of the kernel is an exhausted budget, and the open call itself raises it
  obtain ⟨err, k, hxe, rfl⟩ := failed_of_lift hfailed
  obtain ⟨hlimit, hused⟩ := hx.failed hxe
  have hfollows := hx.follows e.kernel
  rw [hxe] at hfollows
  rw [h.stack]
  exact .here (.outOfFuel hspends (h.kernel.trans hfollows) (hfollows.limit.trans hlimit) hused)

theorem note (event : Event) : Reporting env call stack (Elaborator.note event) e := by
  intro f e' h
  cases h

theorem fresh (name : BinderName) : Reporting env call stack (Elaborator.fresh name) e := by
  intro f e' h
  cases h

/-- A call that the rule makes. -/
theorem made (h : During call stack e) (hmakes : call.Makes env sub)
    (hsub : Reporting env sub e.stack x e) : Reporting env call stack x e := by
  intro f e' hfailed
  have hreports := hsub f e' hfailed
  rw [h.stack] at hreports
  exact .through hmakes hreports

/-- A call as a whole, from what its rule does. -/
theorem within (hcall : call.kernel = e.kernel)
    (hx : ∀ e', During call e.stack e' → Reporting env call e.stack x e') :
    Reporting env call e.stack (Elaborator.within call.task x) e := by
  intro f e' hfailed
  -- the call is pushed on the stack before anything else, so a failure inside reports it
  have hduring : During call e.stack { e with stack := call.task :: e.stack } :=
    ⟨rfl, hcall ▸ .refl _⟩
  obtain ⟨e₁, hfailed⟩ := error_of_within hfailed
  exact hx _ hduring f e₁ hfailed

end Reporting

end Within

/-! ## Rules -/

variable {env : Environment} {depth : Nat} {ctx : Context} {t ty : Term}

/-- Within a depth, every failure is reported. -/
structure ReportingWithin (env : Environment) (depth : Nat) : Prop where
  infer : ∀ ctx t e, Reporting env ⟨ctx, .term t .synthesis, e.kernel⟩ e.stack
    (Elaborator.infer env depth ctx t) e
  check : ∀ ctx t ty e, Reporting env ⟨ctx, .term t (.analysis ty), e.kernel⟩ e.stack
    (Elaborator.check env depth ctx t ty) e

/-- Local definitions, given how their values are inferred and how their bodies are elaborated. -/
theorem reporting_elaborateLet {name : BinderName} {dup : Bool} {expr body : Term} {mode : Mode}
    {k : Kernel} {stack : List Task} {onBody : Context → Term → ElaboratorM Elaborated}
    {e : Elaborator} (ih : ReportingWithin env depth)
    (hform : mode.ByForm env.table (.letIn name dup expr body))
    (hbody : ∀ ctx t e, Reporting env ⟨ctx, .term t mode, e.kernel⟩ e.stack (onBody ctx t) e)
    (h : During ⟨ctx, .term (.letIn name dup expr body) mode, k⟩ stack e) :
    Reporting env ⟨ctx, .term (.letIn name dup expr body) mode, k⟩ stack
      (elaborateLet ctx name dup expr body (infer env depth ctx expr) onBody) e := by
  refine .bind (.made h (.value hform h.kernel) (ih.infer ctx expr e)) fun value e₁ hvalue => ?_
  have h₁ := h.of_ok (progresses_infer env depth ctx expr) hvalue
  have hderives := derives_of_infer hvalue
  refine .bind (.fresh name) fun x e₂ hfresh => ?_
  have h₂ := h₁.of_ok (progresses_lift (Kernel.progresses_fresh name)) hfresh
  -- the body is elaborated after the value, so the call of the value is not open any more
  have hmakes := Call.Makes.letBody hform (.later h.kernel hderives (.refl _)) (ok_of_lift hfresh)
  exact .bind (.made h₂ hmakes (hbody _ _ e₂)) fun r e₃ _ => .pure _

/-- One level of `infer`, from the level below. -/
theorem reporting_infer_succ (ih : ReportingWithin env depth) (ctx : Context) (t : Term)
    (e : Elaborator) :
    Reporting env ⟨ctx, .term t .synthesis, e.kernel⟩ e.stack (infer env (depth + 1) ctx t) e := by
  simp only [infer]
  refine .within rfl fun e₀ h₀ => .bind (.note _) fun _ e₁ hnote => ?_
  have h := h₀.of_ok (progresses_lift (Kernel.progresses_note _)) hnote
  cases t with
  | bound i => exact .raise h .danglingIndex
  | lam n er b => exact .raise h .uninferableFunction
  | typ | all => exact .pure _
  | var x =>
    simp only
    cases hx : ctx.find? x.id with
    | some ty => exact .pure _
    | none => exact .raise h (.unboundVariable hx)
  | ref name =>
    simp only
    cases hname : env.table.find? name with
    | some d => exact .pure _
    | none => exact .raise h (.undefinedReference hname)
  | app f a er =>
    refine .bind (.made h (.func h.kernel) (ih.infer ctx f e₁)) fun func e₂ hfunc => ?_
    have h₂ := h.of_ok (progresses_infer env depth ctx f) hfunc
    refine .bind (.lift h₂ rfl (Kernel.staysWithin_reduce _ _ _)) fun funcTy e₃ hreduce => ?_
    have hreduces := Kernel.progresses_reduce env.table depth func.ty
    have h₃ := h₂.of_ok (progresses_lift hreduces) hreduce
    have hfuncTy := Kernel.weakHead_of_reduce (ok_of_lift hreduce)
    -- the function has come to an end: from here on it is evidence for the argument, and not open
    have hderives : Derives env ctx f .synthesis e.kernel func e₃.kernel :=
      .later h.kernel (derives_of_infer hfunc) (follows_of_lift hreduces hreduce)
    cases funcTy with
    | all s n bind body =>
      refine .bind (.made h₃ (.arg hderives hfuncTy) (ih.check ctx a bind e₃)) fun arg e₄ harg => ?_
      have h₄ := h₃.of_ok (progresses_check env depth ctx a bind) harg
      exact .bind (.lift h₄ rfl (Kernel.staysWithin_classify _ _ _)) fun prim e₅ _ => .pure _
    | _ => exact .raise h₃ (.notAFunction hderives hfuncTy (by simp))
  | letIn name dup expr body => exact reporting_elaborateLet ih trivial ih.infer h
  | ann done expr ty => exact .made h (.ann h.kernel) (ih.check ctx expr ty e₁)
  | loc span expr => exact .made h (.loc trivial h.kernel) (ih.infer ctx expr e₁)

/-- A term without a rule of its own is inferred, and its type compared. -/
theorem reporting_infer_and_compare (ih : ReportingWithin env depth) {k : Kernel}
    {stack : List Task} {e : Elaborator} (hrule : t.hasCheckRule = false)
    (hform : Mode.ByForm env.table t (.analysis ty))
    (h : During ⟨ctx, .term t (.analysis ty), k⟩ stack e) :
    Reporting env ⟨ctx, .term t (.analysis ty), k⟩ stack
      (do
        let result ← infer env depth ctx t
        if env.subsumption then
          if ← equal env depth result.ty ty then return ⟨result.code, ty⟩
          else raise (.mismatch ty result.ty)
        else return ⟨result.code, ty⟩ : ElaboratorM Elaborated) e := by
  refine .bind (.made h (.synthesis hrule hform h.kernel) (ih.infer ctx t e)) fun r e₁ hr => ?_
  have h₁ := h.of_ok (progresses_infer env depth ctx t) hr
  split
  · rename_i hsub
    refine .bind (.lift h₁ rfl (Kernel.staysWithin_equal _ _ _ _)) fun same e₂ hequal => ?_
    have h₂ := h₁.of_ok (progresses_lift (Kernel.progresses_equal _ _ _ _)) hequal
    cases same with
    | true => exact .pure _
    | false =>
      -- the mismatch is reported after the synthesis, which is not open any more
      have hderives := Derives.later h.kernel (derives_of_infer hr) (.refl _)
      exact .raise h₂ (.mismatch hsub hrule hform hderives (ok_of_lift hequal))
  · exact .pure _

/-- One level of `check`, from the level below. -/
theorem reporting_check_succ (ih : ReportingWithin env depth) (ctx : Context) (t ty : Term)
    (e : Elaborator) :
    Reporting env ⟨ctx, .term t (.analysis ty), e.kernel⟩ e.stack
      (check env (depth + 1) ctx t ty) e := by
  simp only [check]
  refine .within rfl fun e₀ h₀ => .bind (.note _) fun _ e₁ hnote => ?_
  have h₁ := h₀.of_ok (progresses_lift (Kernel.progresses_note _)) hnote
  cases hliteral : literal? t with
  | some r => exact .pure _
  | none =>
    refine .bind (.lift h₁ rfl (Kernel.staysWithin_reduce _ _ _)) fun tyHead e₂ hreduce => ?_
    have h := h₁.of_ok (progresses_lift (Kernel.progresses_reduce _ _ _)) hreduce
    have hty := Kernel.weakHead_of_reduce (ok_of_lift hreduce)
    split
    · exact .pure _
    · rename_i htyp
      -- what is left is decided by the form of the term, as the premise of every rule here asks
      have hform : Mode.ByForm env.table t (.analysis ty) := ⟨hliteral, tyHead, hty, htyp⟩
      cases t with
      | lam name er body =>
        cases tyHead with
        | all s n bind tyBody =>
          refine .bind (.fresh name) fun x e₃ hfresh => ?_
          have h₃ := h.of_ok (progresses_lift (Kernel.progresses_fresh name)) hfresh
          have hissued := ok_of_lift hfresh
          refine .bind (.made h₃ (.lamBody hliteral hty h.kernel hissued) (ih.check _ _ _ e₃))
            fun r e₄ hr => ?_
          have h₄ := h₃.of_ok (progresses_check env depth _ _ _) hr
          refine .bind (.lift h₄ rfl (Kernel.staysWithin_classify _ _ _)) fun prim e₅ _ => ?_
          cases prim <;> exact .pure _
        | _ => exact .raise h (.notAFunctionType hliteral hty htyp (by simp))
      | letIn name dup expr body =>
        exact reporting_elaborateLet ih hform (fun ctx t e => ih.check ctx t ty e) h
      | loc span expr => exact .made h (.loc hform h.kernel) (ih.check ctx expr ty e₂)
      -- every other form is synthesised, and its type compared with the expected one
      | _ => exact reporting_infer_and_compare ih rfl hform h

theorem reportingWithin (env : Environment) (depth : Nat) : ReportingWithin env depth := by
  induction depth with
  | zero =>
    -- without any depth a run is given up, which is no failure
    refine ⟨fun ctx t e f e' h => ?_, fun ctx t ty e f e' h => ?_⟩
    · cases h
    · cases h
  | succ depth ih => exact ⟨reporting_infer_succ ih, reporting_check_succ ih⟩

theorem reporting_definition (env : Environment) (depth : Nat) (name : DefName) (e : Elaborator) :
    Reporting env ⟨.empty, .definition name, e.kernel⟩ e.stack (definition env depth name) e := by
  refine .within rfl fun e₁ h => ?_
  cases hname : env.table.find? name with
  | none => exact .raise h (.undefinedDefinition hname)
  | some d =>
    refine .bind (.note _) fun _ e₂ hnote => ?_
    have h₂ := h.of_ok (progresses_lift (Kernel.progresses_note _)) hnote
    have hcheck := (reportingWithin env depth).check .empty d.body.unlocate d.ty.unlocate e₂
    exact .bind (.made h₂ (.definition hname h₂.kernel) hcheck) fun r e₃ _ => .pure _

/-! ## What a call leaves -/

/-- What a call leaves behind, with a value or with a failure: the tasks that were open before it,
the same budget with no step given back, and a report of the open calls if it failed. The table and
the settings are not part of the state: no action can change them. -/
structure Settles (env : Environment) (call : Call) {α : Type} (e : Elaborator)
    (r : EStateM.Result (Halt Failure) Elaborator α) : Prop where
  stack : r.state.stack = e.stack
  limit : r.state.kernel.fuel.limit = e.kernel.fuel.limit
  spent : e.kernel.spent ≤ r.state.kernel.spent
  report : ∀ f e', r = .error (.failed f) e' → call.Reports env e.stack f

theorem Settles.of_returns {call : Call} {α : Type} {run : Nat → ElaboratorM α} {e : Elaborator}
    {r : EStateM.Result (Halt Failure) Elaborator α} (hrun : ∀ d, Progresses Follows (run d))
    (hreport : ∀ d, Reporting env call e.stack (run d) e) (h : Returns run e r) :
    Settles env call e r := by
  obtain ⟨depth, rfl⟩ := h.exists_depth
  have hfollows := hrun depth e
  exact ⟨hfollows.stack, hfollows.kernel.limit, hfollows.kernel.used, hreport depth⟩

/-- Whatever a definition, a term to be inferred or a term to be checked comes to, and whatever
tasks are open before, the elaborator is left as it should be, and a failure lists the open
calls. -/
theorem failure_lists_open_calls (env : Environment) (e : Elaborator) :
    (∀ name r, Returns (fun d => definition env d name) e r →
      Settles env ⟨.empty, .definition name, e.kernel⟩ e r) ∧
    (∀ ctx t r, Returns (fun d => infer env d ctx t) e r →
      Settles env ⟨ctx, .term t .synthesis, e.kernel⟩ e r) ∧
    ∀ ctx t ty r, Returns (fun d => check env d ctx t ty) e r →
      Settles env ⟨ctx, .term t (.analysis ty), e.kernel⟩ e r := by
  refine ⟨fun name r h => ?_, fun ctx t r h => ?_, fun ctx t ty r h => ?_⟩
  · exact .of_returns (fun d => progresses_definition env d name)
      (fun d => reporting_definition env d name e) h
  · exact .of_returns (fun d => progresses_infer env d ctx t)
      (fun d => (reportingWithin env d).infer ctx t e) h
  · exact .of_returns (fun d => progresses_check env d ctx t ty)
      (fun d => (reportingWithin env d).check ctx t ty e) h

/-- A function is applied to a global that the table does not have. -/
def strayArgument : Table :=
  .ofList
    [⟨"f", .pi "x" (.ref "A") (.ref "B"), .ref "f"⟩,
     ⟨"main", .ref "B", .app (.ref "f") (.ref "b") false⟩]

/-- The elaborator has another definition open already. -/
def busy : Elaborator :=
  { start ⟨0, 0⟩ none with stack := [.definition "outer"] }

/-- The global is reported with the argument that it is, the application, and what was open before.
The function, which was elaborated before the argument, is not open any more. -/
def strayFailure : Failure :=
  let t : Term := .app (.ref "f") (.ref "b") false
  { cause := .undefinedReference "b"
    stack :=
      [.term (.ref "b") .synthesis, .term (.ref "b") (.analysis (.ref "A")), .term t .synthesis,
       .term t (.analysis (.ref "B")), .definition "main", .definition "outer"] }

/-- The definition fails with that report, and the elaborator has the task open that it had
before. -/
theorem strayArgument_lists_open_calls :
    ∃ e, Returns (fun d => definition ⟨strayArgument, true⟩ d "main") busy
        (.error (.failed strayFailure) e) ∧
      e.stack = [.definition "outer"] ∧
      Call.Reports ⟨strayArgument, true⟩ ⟨.empty, .definition "main", busy.kernel⟩
        [.definition "outer"] strayFailure := by
  have hrun := deepens_definition ⟨strayArgument, true⟩ "main"
  obtain ⟨e, hr⟩ := hrun.returns_of_halt? busy strayFailure 8 (by decide +kernel)
  have hsettles := (failure_lists_open_calls ⟨strayArgument, true⟩ busy).1 "main" _ hr
  exact ⟨e, hr, hsettles.stack, hsettles.report _ _ rfl⟩

end Elaborator

end SelfTypes
