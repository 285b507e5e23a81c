import SelfTypes.Proofs.Kernel.WeakHead

/-!
# Derivations of the elaborator

`Derives env ctx t mode k r k'` says by rules, without depths and tasks, what it means that a term
is elaborated with success: in one mode or the other, from the kernel `k` to the kernel `k'`. Types
are reduced by `WeakHead`. Main statements: `Elaborator.derives_of_infer` and
`Elaborator.derives_of_check`, by which every success of the elaborator has a derivation. What the
elaborator does with a term that it accepts is then shown by induction on derivations.
-/

namespace SelfTypes

/-! ## Rules -/

/-- What stands for the variable of a local definition in its body. -/
def letStandIn (dup : Bool) (x : Var) (expr ty : Term) : Term :=
  .ann true (if dup then .var x else expr) ty

/-- The code of a local definition, from that of its value and that of its body. -/
def letCode (name : BinderName) (dup : Bool) (value body : Code) : Code :=
  if dup then .letIn name value body else body

/-- The code of an applied function, which is marked if its type is a primitive. -/
def calleeCode (prim : Option Primitive) (func : Code) : Code :=
  match prim with
  | some p => .elim p func
  | none => func

/-- The code of an application, from that of its function and that of its argument. -/
def appCode (erased : Bool) (callee arg : Code) : Code :=
  if erased then callee else .app callee arg

/-- The code of a function, from that of its body. -/
def lamCode (name : BinderName) (erased : Bool) (body : Code) : Code :=
  if erased then body else .lam name body

/-- The code of a function that is turned into a native value if its type is a primitive. -/
def instCode (prim : Option Primitive) (func : Code) : Code :=
  match prim with
  | some p => .inst p func
  | none => func

/-- Whether checking has a rule of its own for a term, apart from literals. -/
def Term.hasCheckRule : Term → Bool
  | .lam .. | .letIn .. | .loc .. => true
  | _ => false

/-- In the context, the term is elaborated to the given code and type, in a run that leads from one
kernel to another. -/
inductive Derives (env : Environment) :
    Context → Term → Mode → Kernel → Elaborated → Kernel → Prop where
  /-- Events, reductions and classifications lead from one kernel to a later one. -/
  | later {ctx : Context} {t : Term} {mode : Mode} {k k₁ k₂ k₃ : Kernel} {r : Elaborated} :
      k.Follows k₁ → Derives env ctx t mode k₁ r k₂ → k₂.Follows k₃ →
      Derives env ctx t mode k r k₃
  | var {ctx : Context} {x : Var} {ty : Term} {k : Kernel} :
      ctx.find? x.id = some ty → Derives env ctx (.var x) .synthesis k ⟨.var x.name, ty⟩ k
  | ref {ctx : Context} {name : DefName} {d : Definition} {k : Kernel} :
      env.table.find? name = some d →
      Derives env ctx (.ref name) .synthesis k ⟨.ref name, d.ty⟩ k
  | typ {ctx : Context} {k : Kernel} : Derives env ctx .typ .synthesis k ⟨.nul, .typ⟩ k
  -- neither side of a function type is visited: it is a type whatever they are
  | all {ctx : Context} {s n : BinderName} {a b : Term} {k : Kernel} :
      Derives env ctx (.all s n a b) .synthesis k ⟨.nul, .typ⟩ k
  | app {ctx : Context} {f a bind body : Term} {er : Bool} {s n : BinderName}
      {prim : Option Primitive} {func arg : Elaborated} {k k₁ k₂ : Kernel} :
      Derives env ctx f .synthesis k func k₁ →
      WeakHead env.table func.ty (.all s n bind body) →
      Derives env ctx a (.analysis bind) k₁ arg k₂ →
      Derives env ctx (.app f a er) .synthesis k
        ⟨appCode er (calleeCode prim func.code) arg.code,
          body.instantiate [.ann true f (.all s n bind body), .ann true a bind]⟩ k₂
  | letIn {ctx : Context} {name : BinderName} {dup : Bool} {e b : Term} {mode : Mode} {x : Var}
      {value r : Elaborated} {k k₁ k₂ k₃ : Kernel} :
      Derives env ctx e .synthesis k value k₁ →
      Kernel.fresh name k₁ = .ok x k₂ →
      Derives env (ctx.extend x value.ty) (b.instantiate [letStandIn dup x e value.ty]) mode
        k₂ r k₃ →
      Derives env ctx (.letIn name dup e b) mode k
        ⟨letCode name dup value.code r.code, r.ty⟩ k₃
  /-- The type of an annotation is not found but given. -/
  | ann {ctx : Context} {done : Bool} {e ty : Term} {r : Elaborated} {k k' : Kernel} :
      Derives env ctx e (.analysis ty) k r k' →
      Derives env ctx (.ann done e ty) .synthesis k r k'
  | loc {ctx : Context} {span : Span} {e : Term} {mode : Mode} {r : Elaborated}
      {k k' : Kernel} :
      (mode ≠ .synthesis → Elaborator.literal? (.loc span e) = none) →
      Derives env ctx e mode k r k' → Derives env ctx (.loc span e) mode k r k'
  /-- A literal is accepted at every type. -/
  | literal {ctx : Context} {t ty : Term} {r : Elaborated} {k : Kernel} :
      Elaborator.literal? t = some r → Derives env ctx t (.analysis ty) k r k
  /-- What stands in the place of a type is accepted as it is. -/
  | type {ctx : Context} {t ty : Term} {k : Kernel} :
      WeakHead env.table ty .typ → Derives env ctx t (.analysis ty) k ⟨.nul, .typ⟩ k
  | lam {ctx : Context} {name s n : BinderName} {er : Bool} {body ty bind tyBody : Term}
      {x : Var} {prim : Option Primitive} {r : Elaborated} {k k₁ k₂ : Kernel} :
      WeakHead env.table ty (.all s n bind tyBody) →
      Kernel.fresh name k = .ok x k₁ →
      Derives env (ctx.extend x bind) (body.instantiate [.ann true (.var x) bind])
        (.analysis
          (tyBody.instantiate [.ann true (.lam name er body) ty, .ann true (.var x) bind]))
        k₁ r k₂ →
      Derives env ctx (.lam name er body) (.analysis ty) k
        ⟨instCode prim (lamCode name er r.code), ty⟩ k₂
  /-- A term without a rule of its own shows its type, which has to be the expected one. -/
  | infer {ctx : Context} {t ty : Term} {r : Elaborated} {k k₁ k₂ : Kernel} :
      t.hasCheckRule = false → Elaborator.literal? t = none →
      Derives env ctx t .synthesis k r k₁ →
      (env.subsumption = true →
        ∃ depth, Kernel.equal env.table depth r.ty ty k₁ = .ok true k₂) →
      k₁.Follows k₂ → Derives env ctx t (.analysis ty) k ⟨r.code, ty⟩ k₂

/-- The type of a global is the one that it is declared with. -/
theorem Derives.ty_of_ref {env : Environment} {ctx : Context} {n : DefName} {k k' : Kernel}
    {r : Elaborated} (h : Derives env ctx (.ref n) .synthesis k r k') :
    ∃ d, env.table.find? n = some d ∧ r.ty = d.ty := by
  generalize ht : Term.ref n = t, hmode : Mode.synthesis = mode at h
  induction h with
  | later _ _ _ ih => exact ih ht hmode
  | ref hd =>
    cases ht
    exact ⟨_, hd, rfl⟩
  | literal | type | infer => cases hmode
  | _ => cases ht

/-! ## Successes have derivations -/

namespace Elaborator

/-- What a successful action of the elaborator with an open task did is what it did without it. -/
theorem ok_of_within {α : Type} {task : Task} {x : ElaboratorM α} {e e' : Elaborator} {a : α}
    (h : within task x e = .ok a e') :
    ∃ e₁, x { e with stack := task :: e.stack } = .ok a e₁ ∧ e₁.kernel = e'.kernel := by
  rw [within_apply] at h
  cases hx : x { e with stack := task :: e.stack } with
  | ok b e₁ =>
    rw [hx] at h
    cases h
    exact ⟨e₁, rfl, rfl⟩
  | error halt e₁ =>
    rw [hx] at h
    cases h

/-- A lifted action that succeeds is one of the kernel that does. -/
theorem ok_of_lift {α : Type} {x : KernelM α} {e e' : Elaborator} {a : α}
    (h : lift x e = .ok a e') : x e.kernel = .ok a e'.kernel := by
  rw [lift_apply] at h
  cases hx : x e.kernel with
  | ok b k =>
    rw [hx] at h
    cases h
    rfl
  | error halt k =>
    rw [hx] at h
    cases halt <;> cases h

/-- A step that only moves the kernel on. -/
theorem follows_of_lift {α : Type} {x : KernelM α} (hx : Progresses Kernel.Follows x)
    {e e' : Elaborator} {a : α} (h : lift x e = .ok a e') : e.kernel.Follows e'.kernel :=
  hx.of_ok (ok_of_lift h)

variable {env : Environment} {depth : Nat}

/-- Every success within a depth has a derivation. -/
def DerivesWithin (env : Environment) (depth : Nat) : Prop :=
  (∀ ctx t e r e', infer env depth ctx t e = .ok r e' →
    Derives env ctx t .synthesis e.kernel r e'.kernel) ∧
  (∀ ctx t ty e r e', check env depth ctx t ty e = .ok r e' →
    Derives env ctx t (.analysis ty) e.kernel r e'.kernel)

theorem derives_of_elaborateLet {ctx : Context} {name : BinderName} {dup : Bool}
    {expr body : Term} {mode : Mode} {inferValue : ElaboratorM Elaborated}
    {onBody : Context → Term → ElaboratorM Elaborated} {e e' : Elaborator} {r : Elaborated}
    (hvalue : ∀ e value e', inferValue e = .ok value e' →
      Derives env ctx expr .synthesis e.kernel value e'.kernel)
    (hbody : ∀ ctx t e r e', onBody ctx t e = .ok r e' →
      Derives env ctx t mode e.kernel r e'.kernel)
    (h : elaborateLet ctx name dup expr body inferValue onBody e = .ok r e') :
    Derives env ctx (.letIn name dup expr body) mode e.kernel r e'.kernel := by
  obtain ⟨value, e₁, h₁, h⟩ := EStateM.ok_of_bind_ok h
  obtain ⟨x, e₂, h₂, h⟩ := EStateM.ok_of_bind_ok h
  obtain ⟨result, e₃, h₃, h⟩ := EStateM.ok_of_bind_ok h
  cases h
  exact .letIn (hvalue _ _ _ h₁) (ok_of_lift h₂) (hbody _ _ _ _ _ h₃)

/-- One level of `infer`, from the level below. -/
theorem derives_of_infer_succ (ih : DerivesWithin env depth) {ctx : Context} {t : Term}
    {e e' : Elaborator} {r : Elaborated} (h : infer env (depth + 1) ctx t e = .ok r e') :
    Derives env ctx t .synthesis e.kernel r e'.kernel := by
  obtain ⟨hinfer, hcheck⟩ := ih
  simp only [infer] at h
  obtain ⟨e₁, h, hkernel⟩ := ok_of_within h
  -- the call is noted first, which moves the kernel on but decides nothing
  obtain ⟨_, e₀, hnote, h⟩ := EStateM.ok_of_bind_ok h
  have hnoted := follows_of_lift (Kernel.progresses_note _) hnote
  rw [← hkernel]
  refine .later hnoted ?_ (.refl _)
  cases t with
  | bound => cases h
  | lam => cases h
  | typ => cases h; exact .typ
  | all => cases h; exact .all
  | var x =>
    simp only at h
    cases hx : ctx.find? x.id with
    | none => rw [hx] at h; cases h
    | some ty => rw [hx] at h; cases h; exact .var hx
  | ref name =>
    simp only at h
    cases hname : env.table.find? name with
    | none => rw [hname] at h; cases h
    | some d => rw [hname] at h; cases h; exact .ref hname
  | app f a er =>
    obtain ⟨func, e₂, hfunc, h⟩ := EStateM.ok_of_bind_ok h
    obtain ⟨funcTy, e₃, hreduce, h⟩ := EStateM.ok_of_bind_ok h
    have hreduced := follows_of_lift (Kernel.progresses_reduce _ _ _) hreduce
    cases funcTy with
    | all s n bind body =>
      obtain ⟨arg, e₄, harg, h⟩ := EStateM.ok_of_bind_ok h
      obtain ⟨prim, e₅, hprim, h⟩ := EStateM.ok_of_bind_ok h
      cases h
      have hclassified := follows_of_lift (Kernel.progresses_classify _ _ _) hprim
      -- the primitive of the callee is classified last, after both premises
      refine .later (.refl _) ?_ hclassified
      exact .app (.later (.refl _) (hinfer _ _ _ _ _ hfunc) hreduced)
        (Kernel.weakHead_of_reduce (ok_of_lift hreduce)) (hcheck _ _ _ _ _ _ harg)
    | _ => cases h
  | letIn name dup expr body =>
    exact derives_of_elaborateLet (hinfer _ _) (fun ctx t => hinfer ctx t) h
  | ann _ expr ty => exact .ann (hcheck _ _ _ _ _ _ h)
  | loc _ expr => exact .loc (fun hmode => absurd rfl hmode) (hinfer _ _ _ _ _ h)

/-- One level of `check`, from the level below. -/
theorem derives_of_check_succ (ih : DerivesWithin env depth) {ctx : Context} {t ty : Term}
    {e e' : Elaborator} {r : Elaborated} (h : check env (depth + 1) ctx t ty e = .ok r e') :
    Derives env ctx t (.analysis ty) e.kernel r e'.kernel := by
  obtain ⟨hinfer, hcheck⟩ := ih
  simp only [check] at h
  obtain ⟨e₁, h, hkernel⟩ := ok_of_within h
  obtain ⟨_, e₀, hnote, h⟩ := EStateM.ok_of_bind_ok h
  have hnoted := follows_of_lift (Kernel.progresses_note _) hnote
  rw [← hkernel]
  refine .later hnoted ?_ (.refl _)
  -- a literal is looked for before the expected type is reduced, and so it stands at every type
  cases hliteral : literal? t with
  | some result =>
    rw [hliteral] at h
    cases h
    exact .literal hliteral
  | none =>
    simp only [hliteral] at h
    obtain ⟨tyHead, e₂, hreduce, h⟩ := EStateM.ok_of_bind_ok h
    have hty := Kernel.weakHead_of_reduce (ok_of_lift hreduce)
    refine .later (follows_of_lift (Kernel.progresses_reduce _ _ _) hreduce) ?_ (.refl _)
    split at h
    · rename_i htyp
      cases h
      exact .type (htyp ▸ hty)
    · -- a term without a rule of its own is inferred, and its type compared
      have infers : t.hasCheckRule = false →
          (infer env depth ctx t >>= fun result =>
            if env.subsumption then
              equal env depth result.ty ty >>= fun same =>
                if same then pure (⟨result.code, ty⟩ : Elaborated)
                else raise (.mismatch ty result.ty)
            else pure ⟨result.code, ty⟩) e₂ = .ok r e₁ →
          Derives env ctx t (.analysis ty) e₂.kernel r e₁.kernel := by
        intro hrule h
        obtain ⟨result, e₃, hresult, h⟩ := EStateM.ok_of_bind_ok h
        split at h
        · obtain ⟨same, e₄, hequal, h⟩ := EStateM.ok_of_bind_ok h
          cases same with
          | false => cases h
          | true =>
            cases h
            exact .infer hrule hliteral (hinfer _ _ _ _ _ hresult)
              (fun _ => ⟨depth, ok_of_lift hequal⟩)
              (follows_of_lift (Kernel.progresses_equal _ _ _ _) hequal)
        · rename_i hsub
          cases h
          exact .infer hrule hliteral (hinfer _ _ _ _ _ hresult)
            (fun hsub' => absurd hsub' hsub) (.refl _)
      -- only a function, a local definition and a location have a rule of their own in analysis
      cases t with
      | lam name er body =>
        cases tyHead with
        | all s n bind tyBody =>
          obtain ⟨x, e₃, hfresh, h⟩ := EStateM.ok_of_bind_ok h
          obtain ⟨result, e₄, hbody, h⟩ := EStateM.ok_of_bind_ok h
          obtain ⟨prim, e₅, hprim, h⟩ := EStateM.ok_of_bind_ok h
          have hclassified := follows_of_lift (Kernel.progresses_classify _ _ _) hprim
          have hlam : Derives env ctx (.lam name er body) (.analysis ty) e₂.kernel
              ⟨instCode prim (lamCode name er result.code), ty⟩ e₄.kernel :=
            .lam hty (ok_of_lift hfresh) (hcheck _ _ _ _ _ _ hbody)
          -- a primitive changes the code of the function and leaves the derivation as it is
          cases prim <;> cases h <;> exact .later (.refl _) hlam hclassified
        | _ => cases h
      | letIn name dup expr body =>
        exact derives_of_elaborateLet (hinfer _ _) (fun ctx t => hcheck ctx t ty) h
      | loc _ expr => exact .loc (fun _ => hliteral) (hcheck _ _ _ _ _ _ h)
      | _ => exact infers rfl h

theorem derivesWithin (env : Environment) (depth : Nat) : DerivesWithin env depth := by
  induction depth with
  | zero =>
    refine ⟨?_, ?_⟩
    · intro ctx t e r e' h
      cases h
    · intro ctx t ty e r e' h
      cases h
  | succ depth ih =>
    exact ⟨fun _ _ _ _ _ h => derives_of_infer_succ ih h,
      fun _ _ _ _ _ _ h => derives_of_check_succ ih h⟩

theorem derives_of_infer {ctx : Context} {t : Term} {e e' : Elaborator} {r : Elaborated}
    (h : infer env depth ctx t e = .ok r e') :
    Derives env ctx t .synthesis e.kernel r e'.kernel :=
  (derivesWithin env depth).1 _ _ _ _ _ h

theorem derives_of_check {ctx : Context} {t ty : Term} {e e' : Elaborator} {r : Elaborated}
    (h : check env depth ctx t ty e = .ok r e') :
    Derives env ctx t (.analysis ty) e.kernel r e'.kernel :=
  (derivesWithin env depth).2 _ _ _ _ _ _ h

/-- A definition that is accepted has a derivation of its body without locations, at its type
without locations. -/
theorem derives_of_definition {name : DefName} {e e' : Elaborator} {code : Code}
    (h : definition env depth name e = .ok code e') :
    ∃ d ty, env.table.find? name = some d ∧
      Derives env .empty d.body.unlocate (.analysis d.ty.unlocate) e.kernel ⟨code, ty⟩
        e'.kernel := by
  obtain ⟨e₁, h, hkernel⟩ := ok_of_within h
  rw [← hkernel]
  cases hname : env.table.find? name with
  | none =>
    rw [hname] at h
    cases h
  | some d =>
    rw [hname] at h
    obtain ⟨_, e₂, hnote, h⟩ := EStateM.ok_of_bind_ok h
    obtain ⟨r, e₃, hcheck, h⟩ := EStateM.ok_of_bind_ok h
    have hnoted := follows_of_lift (Kernel.progresses_note _) hnote
    cases h
    exact ⟨d, r.ty, rfl, .later hnoted (derives_of_check hcheck) (.refl _)⟩

end Elaborator

end SelfTypes
