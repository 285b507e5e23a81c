import SelfTypes.Proofs.Elaboration.Location
import SelfTypes.Proofs.Elaboration.Retyping

/-!
# Elaboration up to the form of types

Two runs of the elaborator with unlimited budgets are compared, on terms that differ in the types in
them only, in contexts and against types that differ in form. They go the same way: they come to the
same code, or both fail, unless one of them does not come to an end. Main statements:
`Elaborator.matchedWithin` and `Elaborator.check_respects_equal`.
-/

namespace SelfTypes

namespace Elaborator

/-! ## Runs that match -/

/-- The endings of two runs that start in a world: both with values that `Q` relates in a later
world, or both with failures, unless one of the runs is cut short. -/
inductive Matched {α : Type} (W : World) (Q : World → α → α → Prop) :
    EStateM.Result (Halt Failure) Elaborator α → EStateM.Result (Halt Failure) Elaborator α →
    Prop where
  | ok {W' : World} {a a' : α} {e e' : Elaborator} :
      W.Le W' → e.kernel = W'.left → e'.kernel = W'.right → Q W' a a' →
      Matched W Q (.ok a e) (.ok a' e')
  | failed {f f' : Failure} {e e' : Elaborator} :
      Matched W Q (.error (.failed f) e) (.error (.failed f') e')
  | left {e : Elaborator} {r' : EStateM.Result (Halt Failure) Elaborator α} :
      Matched W Q (.error .unfinished e) r'
  | right {r : EStateM.Result (Halt Failure) Elaborator α} {e' : Elaborator} :
      Matched W Q r (.error .unfinished e')

/-- From states with the kernels of the world, the computations come to endings that match. -/
def Matches {α : Type} (W : World) (Q : World → α → α → Prop) (x x' : ElaboratorM α) : Prop :=
  ∀ e e' : Elaborator, e.kernel = W.left → e'.kernel = W.right → Matched W Q (x e) (x' e')

namespace Matches

variable {α β : Type} {W : World} {Q : World → α → α → Prop} {R : World → β → β → Prop}
  {x x' : ElaboratorM α}

theorem pure {a a' : α} (h : Q W a a') :
    Matches W Q (Pure.pure a : ElaboratorM α) (Pure.pure a') :=
  fun _ _ he he' => .ok (.refl W) he he' h

theorem raise (cause cause' : Cause) :
    Matches W Q (Elaborator.raise cause : ElaboratorM α) (Elaborator.raise cause') :=
  fun _ _ _ _ => .failed

theorem giveUp_left : Matches W Q Elaborator.giveUp x' :=
  fun _ _ _ _ => .left

theorem giveUp_right : Matches W Q x Elaborator.giveUp :=
  fun _ _ _ _ => .right

theorem bind {f f' : α → ElaboratorM β} (hx : Matches W Q x x')
    (hf : ∀ W' a a', W.Le W' → Q W' a a' → Matches W' R (f a) (f' a')) :
    Matches W R (x >>= f) (x' >>= f') := by
  intro e e' he he'
  have h := hx e e' he he'
  rw [EStateM.bind_apply, EStateM.bind_apply]
  generalize x e = r, x' e' = r' at h ⊢
  cases h with
  | @ok W' a a' s s' hW hs hs' hQ =>
    -- the second parts start in the world that the first parts have come to
    have h := hf W' a a' hW hQ s s' hs hs'
    change Matched W R (f a s) (f' a' s')
    generalize f a s = q, f' a' s' = q' at h ⊢
    cases h with
    | ok hW' ht ht' hR => exact .ok (hW.trans hW') ht ht' hR
    | failed => exact .failed
    | left => exact .left
    | right => exact .right
  | failed => exact .failed
  | left => exact .left
  | right => exact .right

theorem within (task task' : Task) (hx : Matches W Q x x') :
    Matches W Q (within task x) (within task' x') := by
  intro e e' he he'
  have h := hx { e with stack := task :: e.stack } { e' with stack := task' :: e'.stack } he he'
  rw [within_apply, within_apply]
  generalize x { e with stack := task :: e.stack } = r,
    x' { e' with stack := task' :: e'.stack } = r' at h ⊢
  cases h with
  | ok hW hs hs' hQ => exact .ok hW hs hs' hQ
  | failed => exact .failed
  | left => exact .left
  | right => exact .right

/-! ### Actions of the kernel -/

/-- With an unlimited budget, an action of the kernel only stops for want of depth. -/
theorem halt_eq_unfinished {x : KernelM α} (hfails : FailsAtLimit x)
    (hprog : Progresses Kernel.Follows x) {k k' : Kernel} {halt : Halt OutOfFuel}
    (hk : k.fuel.limit = none) (h : x k = .error halt k') : halt = .unfinished := by
  cases halt with
  | unfinished => rfl
  | failed f =>
    have hfollows := hprog k
    rw [h] at hfollows
    have hlimit := (hfails k f k' h).symm.trans (hfollows.limit.trans hk)
    cases hlimit

/-- Actions of the kernel, given the later world and how the values are related where both come to
one. -/
theorem lift_of_ok {x x' : KernelM α} (hfails : FailsAtLimit x) (hfails' : FailsAtLimit x')
    (hprog : Progresses Kernel.Follows x) (hprog' : Progresses Kernel.Follows x')
    (h : ∀ a a' k k', x W.left = .ok a k → x' W.right = .ok a' k' →
      ∃ W', W.Le W' ∧ k = W'.left ∧ k' = W'.right ∧ Q W' a a') :
    Matches W Q (lift x) (lift x') := by
  intro e e' he he'
  rw [lift_apply, lift_apply, he, he']
  cases hk : x W.left with
  | error halt k =>
    cases halt_eq_unfinished hfails hprog W.unlimitedLeft hk
    exact .left
  | ok a k =>
    cases hk' : x' W.right with
    -- without a limit a computation of the kernel only gives up, and then the sides may differ
    | error halt k' =>
      cases halt_eq_unfinished hfails' hprog' W.unlimitedRight hk'
      exact .right
    | ok a' k' =>
      obtain ⟨W', hW, hleft, hright, hQ⟩ := h a a' k k' hk hk'
      exact .ok hW hleft hright hQ

/-- Actions of the kernel that issue no variables which matter later on. -/
theorem lift {S : α → α → Prop} {x x' : KernelM α} (hfails : FailsAtLimit x)
    (hfails' : FailsAtLimit x') (hprog : Progresses Kernel.Follows x)
    (hprog' : Progresses Kernel.Follows x')
    (h : ∀ a a' k k', x W.left = .ok a k → x' W.right = .ok a' k' → S a a') :
    Matches W (fun _ => S) (Elaborator.lift x) (Elaborator.lift x') :=
  lift_of_ok hfails hfails' hprog hprog' fun a a' k k' hk hk' =>
    ⟨_, W.le_advance (hprog.of_ok hk) (hprog'.of_ok hk'), rfl, rfl, h a a' k k' hk hk'⟩

theorem note (event event' : Event) :
    Matches W (fun _ _ _ => True) (note event) (note event') :=
  .lift (isCongruence_failsAtLimit.note _) (isCongruence_failsAtLimit.note _)
    (Kernel.progresses_note _) (Kernel.progresses_note _) fun _ _ _ _ _ _ => trivial

/-- Variables that are issued at the same time, under one name, stand for each other. -/
theorem fresh (table : Table) (name : BinderName) :
    Matches W (fun W' x x' => Counterpart table W' (.var x) (.var x')) (fresh name)
      (fresh name) := by
  refine .lift_of_ok (isCongruence_failsAtLimit.fresh _) (isCongruence_failsAtLimit.fresh _)
    (Kernel.progresses_fresh _) (Kernel.progresses_fresh _) fun x x' k k' hx hx' => ?_
  have hname : x.name = x'.name := (Kernel.name_of_fresh hx).trans (Kernel.name_of_fresh hx').symm
  refine ⟨W.issue hx hx', ⟨List.subset_cons_self _ _, Kernel.follows_of_fresh hx,
    Kernel.follows_of_fresh hx'⟩, rfl, rfl, .issued hx, .issued hx', .var ⟨?_, hname⟩⟩
  exact List.mem_cons_self

variable {table : Table} {env : Environment} {depth depth' : Nat} {ty ty' a a' : Term}

theorem reduce (env : Environment) (depth depth' : Nat) (ty ty' : Term) :
    Matches W (fun _ w w' => WeakHead env.table ty w ∧ WeakHead env.table ty' w')
      (reduce env depth ty) (reduce env depth' ty') :=
  .lift (isCongruence_failsAtLimit.reduce _ (.refl _) _)
    (isCongruence_failsAtLimit.reduce _ (.refl _) _) (Kernel.progresses_reduce _ _ _)
    (Kernel.progresses_reduce _ _ _) fun _ _ _ _ h h' =>
      ⟨Kernel.weakHead_of_reduce h, Kernel.weakHead_of_reduce h'⟩

theorem equal (hfree : env.table.IsVarFree) (ha : SameType env.table W a a')
    (hty : SameType env.table W ty ty') :
    Matches W (fun _ same same' => same = same') (equal env depth a ty)
      (equal env depth' a' ty') := by
  refine .lift (isCongruence_failsAtLimit.equal _ (.refl _) _ _)
    (isCongruence_failsAtLimit.equal _ (.refl _) _ _) (Kernel.progresses_equal _ _ _ _)
    (Kernel.progresses_equal _ _ _ _) fun same same' _ _ h h' => ?_
  rw [Bool.eq_iff_iff, Kernel.eq_true_iff_convertible hfree ha.left.avoided hty.left.avoided h,
    Kernel.eq_true_iff_convertible hfree ha.right.avoided hty.right.avoided h',
    ha.forms.convertible_iff hfree W.joined.toOneToOne hty.forms]

theorem classify (hfree : env.table.IsVarFree) (hty : SameType env.table W ty ty') :
    Matches W (fun _ prim prim' => prim = prim') (classify env depth ty)
      (classify env depth' ty') := by
  refine .lift (isCongruence_failsAtLimit.classify _ (.refl _) _)
    (isCongruence_failsAtLimit.classify _ (.refl _) _) (Kernel.progresses_classify _ _ _)
    (Kernel.progresses_classify _ _ _) fun prim prim' _ _ h h' => ?_
  have hsame : ∀ p : Primitive,
      Convertible env.table (.ref p.name) ty ↔ Convertible env.table (.ref p.name) ty' := fun p =>
    Interconvertible.convertible_iff hfree W.joined.toOneToOne
      (.of_freeIds_eq_nil trivial rfl) hty.forms
  rw [Kernel.classifyAmong_eq hfree hty.left.avoided h,
    Kernel.classifyAmong_eq hfree hty.right.avoided h']
  exact congrArg (List.find? · _) (funext fun p => decide_eq_decide.2 (hsame p))

/-! ### Local definitions -/

/-- Local definitions, given how their values are inferred and how their bodies are elaborated. -/
theorem elaborateLet {ctx ctx' : Context} {name : BinderName} {dup : Bool} {e b e' b' : Term}
    {value value' : ElaboratorM Elaborated}
    {onBody onBody' : Context → Term → ElaboratorM Elaborated} (hctx : ctx.Retyped table W ctx')
    (ht : Counterpart table W (.letIn name dup e b) (.letIn name dup e' b'))
    (hvalue : Matches W (SameElaborated table) value value')
    (hbody : ∀ W' ctx ctx' t t', W.Le W' → ctx.Retyped table W' ctx' → Counterpart table W' t t' →
      Matches W' (SameElaborated table) (onBody ctx t) (onBody' ctx' t')) :
    Matches W (SameElaborated table) (elaborateLet ctx name dup e b value onBody)
      (elaborateLet ctx' name dup e' b' value' onBody') := by
  refine hvalue.bind fun W₁ r r' hW₁ hr => (fresh table name).bind fun W₂ x x' hW₂ hx => ?_
  have hW := hW₁.trans hW₂
  have hty := hr.ty.mono hW₂
  -- the body is opened in the world in which the two variables stand for each other
  refine (hbody W₂ _ _ _ _ hW ((hctx.mono hW).extend hx.named hty)
    ((ht.mono hW).letBody hx hty)).bind fun W₃ q q' _ hq => .pure ⟨?_, hq.ty⟩
  simp only [hr.code, hq.code]

end Matches

/-! ## Rules -/

section Rules

variable {env : Environment} {depth depth' : Nat} {W : World} {ctx ctx' : Context}
  {t t' ty ty' : Term}

/-- Runs within these depths match on whatever corresponds. -/
structure MatchedWithin (env : Environment) (depth depth' : Nat) : Prop where
  infer : ∀ {W ctx ctx' t t'}, ctx.Retyped env.table W ctx' → Counterpart env.table W t t' →
    Matches W (SameElaborated env.table) (infer env depth ctx t) (infer env depth' ctx' t')
  check : ∀ {W ctx ctx' t t' ty ty'}, ctx.Retyped env.table W ctx' →
    Counterpart env.table W t t' → SameType env.table W ty ty' →
    Matches W (SameElaborated env.table) (check env depth ctx t ty) (check env depth' ctx' t' ty')

/-- One level of `infer`, from the levels below. -/
theorem matches_infer_succ (hclosed : env.table.IsLocallyClosed) (hfree : env.table.IsVarFree)
    (ih : MatchedWithin env depth depth') (hctx : ctx.Retyped env.table W ctx')
    (ht : Counterpart env.table W t t') :
    Matches W (SameElaborated env.table) (infer env (depth + 1) ctx t)
      (infer env (depth' + 1) ctx' t') := by
  simp only [infer]
  refine .within _ _ ((Matches.note _ _).bind fun W₀ _ _ hW₀ _ => ?_)
  replace hctx := hctx.mono hW₀
  replace ht := ht.mono hW₀
  have htyp : SameElaborated env.table W₀ ⟨.nul, .typ⟩ ⟨.nul, .typ⟩ :=
    ⟨rfl, .of_freeIds_eq_nil trivial rfl⟩
  -- the shapes are read together, so the two terms always meet the same rule
  cases ht.shape with
  | bound | lam => exact .raise _ _
  | typ | all => exact .pure htyp
  | @var x x' hx =>
    simp only
    -- both contexts know the variable or neither does
    rcases none_or_some_of_rel (hctx.find? hx) with ⟨hty, hty'⟩ | ⟨ty, ty', hty, hty', hsame⟩
    · rw [hty, hty']
      exact .raise _ _
    · rw [hty, hty']
      exact .pure ⟨congrArg Code.var hx.2, hsame⟩
  | ref name =>
    simp only
    cases hd : env.table.find? name with
    | none => exact .raise _ _
    | some d =>
      -- the type of a definition is closed, so it is its own counterpart in every world
      have hmem := List.mem_of_find?_eq_some hd
      exact .pure ⟨rfl, .of_freeIds_eq_nil (hclosed d hmem).1 (hfree d hmem).1⟩
  | @app f a f' a' er hf ha =>
    have hfunc : Counterpart env.table W₀ f f' := ⟨ht.left.func, ht.right.func, hf⟩
    have harg : Counterpart env.table W₀ a a' := ⟨ht.left.arg, ht.right.arg, ha⟩
    refine (ih.infer hctx hfunc).bind fun W₁ func func' hW₁ hr => ?_
    refine (Matches.reduce env _ _ _ _).bind fun W₂ funcTy funcTy' hW₂ hweak => ?_
    have hW := hW₁.trans hW₂
    -- what the type of the function reduces to decides between the rule and a failure
    have hfuncTy := (hr.ty.mono hW₂).weakHead hclosed hfree hweak.1 hweak.2
    cases (hr.ty.mono hW₂).heads hclosed hfree hweak.1 hweak.2 with
    | typ => exact .raise _ _
    | other _ _ hall hall' =>
      split
      · exact absurd rfl (hall _ _ _ _)
      · exact .raise _ _
    | all _ _ =>
      have hbind := hfuncTy.bind hclosed hfree
      refine (ih.check (hctx.mono hW) (harg.mono hW) hbind).bind fun W₃ q q' hW₃ hq => ?_
      have hfuncTy₃ := hfuncTy.mono hW₃
      refine (Matches.classify hfree hfuncTy₃).bind fun W₄ prim prim' hW₄ hprim => ?_
      cases hprim
      refine .pure ⟨?_, ?_⟩
      · simp only [hr.code, hq.code]
      -- the type of the application is the body, opened with the annotated function and argument
      · have hW' := (hW.trans hW₃).trans hW₄
        exact (hfuncTy₃.mono hW₄).allBody hclosed hfree
          ((hfunc.mono hW').annotate (hfuncTy₃.mono hW₄) true).sameType
          ((harg.mono hW').annotate ((hbind.mono hW₃).mono hW₄) true).sameType
  | @letIn name dup e b e' b' he hb =>
    have hvalue : Counterpart env.table W₀ e e' := ⟨ht.left.expr, ht.right.expr, he⟩
    exact .elaborateLet hctx ht (ih.infer hctx hvalue) fun _ _ _ _ _ _ hctx ht => ih.infer hctx ht
  | ann he hty =>
    exact ih.check hctx ⟨ht.left.ann, ht.right.ann, he⟩
      ⟨ht.left.annTy, ht.right.annTy, .of_bare_alike ht.left.annTy.closed hty⟩
  -- an annotation that stands in for a value may carry a different type on each side
  | standIn he hty => exact ih.check hctx ⟨ht.left.ann, ht.right.ann, he⟩ hty
  | loc he => exact ih.infer hctx ⟨ht.left.loc, ht.right.loc, he⟩

/-- One level of `check`, from the levels below. -/
theorem matches_check_succ (hclosed : env.table.IsLocallyClosed) (hfree : env.table.IsVarFree)
    (ih : MatchedWithin env depth depth') (hctx : ctx.Retyped env.table W ctx')
    (ht : Counterpart env.table W t t') (hty : SameType env.table W ty ty') :
    Matches W (SameElaborated env.table) (check env (depth + 1) ctx t ty)
      (check env (depth' + 1) ctx' t' ty') := by
  -- a term without a rule of its own is inferred, and its type compared
  have infers : ∀ {W : World}, ctx.Retyped env.table W ctx' → Counterpart env.table W t t' →
      SameType env.table W ty ty' → Matches W (SameElaborated env.table)
      (do
        let result ← infer env depth ctx t
        if env.subsumption then
          if ← equal env depth result.ty ty then return ⟨result.code, ty⟩
          else raise (.mismatch ty result.ty)
        else return ⟨result.code, ty⟩)
      (do
        let result ← infer env depth' ctx' t'
        if env.subsumption then
          if ← equal env depth' result.ty ty' then return ⟨result.code, ty'⟩
          else raise (.mismatch ty' result.ty)
        else return ⟨result.code, ty'⟩) := by
    intro W hctx ht hty
    refine (ih.infer hctx ht).bind fun W₁ r r' hW₁ hr => ?_
    split
    · refine (Matches.equal hfree hr.ty (hty.mono hW₁)).bind fun W₂ same same' hW₂ hsame => ?_
      cases hsame
      cases same with
      | true => exact .pure ⟨hr.code, (hty.mono hW₁).mono hW₂⟩
      | false => exact .raise _ _
    · exact .pure ⟨hr.code, hty.mono hW₁⟩
  simp only [check]
  refine .within _ _ ((Matches.note _ _).bind fun W₀ _ _ hW₀ _ => ?_)
  replace hctx := hctx.mono hW₀
  replace ht := ht.mono hW₀
  replace hty := hty.mono hW₀
  -- related terms are the same literal, whose type is closed
  rw [← ht.shape.literal?_eq]
  cases hliteral : literal? t with
  | some r =>
    obtain ⟨_, -, rfl⟩ | ⟨_, -, rfl⟩ := exists_of_literal? hliteral
    · exact .pure ⟨rfl, .of_freeIds_eq_nil trivial rfl⟩
    · exact .pure ⟨rfl, .of_freeIds_eq_nil trivial rfl⟩
  | none =>
    refine (Matches.reduce env _ _ _ _).bind fun W₁ tyHead tyHead' hW₁ hweak => ?_
    replace hctx := hctx.mono hW₁
    replace ht := ht.mono hW₁
    replace hty := hty.mono hW₁
    -- the expected type is the universe on both sides or on neither
    have hheads := hty.heads hclosed hfree hweak.1 hweak.2
    have htyp : tyHead = .typ ↔ tyHead' = .typ := by
      cases hheads with
      | typ => simp
      | all => simp
      | other h h' => exact iff_of_false h h'
    simp only [htyp]
    split
    · exact .pure ⟨rfl, .of_freeIds_eq_nil trivial rfl⟩
    · cases ht.shape with
      | @lam name er b b' hb =>
        cases hheads with
        | typ => exact .raise _ _
        | other _ _ hall hall' =>
          dsimp only
          split
          · exact absurd rfl (hall _ _ _ _)
          · exact .raise _ _
        | all _ _ =>
          have hall := hty.weakHead hclosed hfree hweak.1 hweak.2
          have hbind := hall.bind hclosed hfree
          refine (Matches.fresh env.table name).bind fun W₂ x x' hW₂ hx => ?_
          -- the body is opened with the parameter, and its type with the function and the parameter
          have harg := hx.annotate (hbind.mono hW₂) true
          have hself := (ht.mono hW₂).annotate (hty.mono hW₂) true
          have hbody : Counterpart env.table W₂ (b.instantiate [_]) (b'.instantiate [_]) :=
            ⟨(ht.mono hW₂).left.lamBody harg.left, (ht.mono hW₂).right.lamBody harg.right,
              (hb.mono hW₂).instantiate_one harg.shape⟩
          have hbodyTy := (hall.mono hW₂).allBody hclosed hfree hself.sameType harg.sameType
          refine (ih.check ((hctx.mono hW₂).extend hx.named (hbind.mono hW₂)) hbody hbodyTy).bind
            fun W₃ r r' hW₃ hr => ?_
          have hty₃ := (hty.mono hW₂).mono hW₃
          refine (Matches.classify hfree hty₃).bind fun W₄ prim prim' hW₄ hprim => ?_
          cases hprim
          cases prim <;> exact .pure ⟨by simp only [hr.code], hty₃.mono hW₄⟩
      | @letIn name dup e b e' b' he hb =>
        have hvalue : Counterpart env.table W₁ e e' := ⟨ht.left.expr, ht.right.expr, he⟩
        exact .elaborateLet hctx ht (ih.infer hctx hvalue)
          fun _ _ _ _ _ hW hctx ht => ih.check hctx ht (hty.mono hW)
      | loc he => exact ih.check hctx ⟨ht.left.loc, ht.right.loc, he⟩ hty
      | _ => exact infers hctx ht hty

theorem matchedWithin (hclosed : env.table.IsLocallyClosed) (hfree : env.table.IsVarFree)
    (depth depth' : Nat) : MatchedWithin env depth depth' := by
  induction depth generalizing depth' with
  | zero => exact ⟨fun _ _ => .giveUp_left, fun _ _ _ => .giveUp_left⟩
  | succ depth ih =>
    cases depth' with
    | zero => exact ⟨fun _ _ => .giveUp_right, fun _ _ _ => .giveUp_right⟩
    | succ depth' =>
      exact ⟨matches_infer_succ hclosed hfree (ih depth'),
        matches_check_succ hclosed hfree (ih depth')⟩

end Rules

/-! ## Checking against equal types -/

/-- Answers of runs that match are both values that are related, or both failures. -/
theorem Matched.cases {α : Type} {W : World} {Q : World → α → α → Prop}
    {r r' : EStateM.Result (Halt Failure) Elaborator α} (h : Matched W Q r r') (hr : IsAnswer r)
    (hr' : IsAnswer r') :
    (∃ W' a a' e e', r = .ok a e ∧ r' = .ok a' e' ∧ Q W' a a') ∨
      ∃ f f' e e', r = .error (.failed f) e ∧ r' = .error (.failed f') e' := by
  cases h with
  | ok _ _ _ hQ => exact .inl ⟨_, _, _, _, _, rfl, rfl, hQ⟩
  | failed => exact .inr ⟨_, _, _, _, rfl, rfl⟩
  | left => exact absurd rfl (hr _)
  | right => exact absurd rfl (hr' _)

/-- Checking a term against one of two types that are found equal comes to what checking it against
the other comes to: to the same code, or to a failure. -/
theorem check_respects_equal {env : Environment} (hclosed : env.table.IsLocallyClosed)
    (hfree : env.table.IsVarFree) {ctx : Context} (hctx : ctx.WellScoped) {t ty ty' : Term}
    (ht : t.IsLocallyClosed) (hty : ty.IsLocallyClosed) (hty' : ty'.IsLocallyClosed)
    {k k' : Kernel} {e e' : Elaborator}
    (hissued : ∀ kernel ∈ [k, e.kernel, e'.kernel], ∀ id ∈ ctx.idsWith [t, ty, ty'],
      ¬ kernel.supply.CanIssue id)
    (he : e.kernel.fuel.limit = none) (he' : e'.kernel.fuel.limit = none)
    (hequal : Returns (fun d => Kernel.equal env.table d ty ty') k (.ok true k'))
    {r r' : EStateM.Result (Halt Failure) Elaborator Elaborated}
    (h : Returns (fun d => check env d ctx t ty) e r)
    (h' : Returns (fun d => check env d ctx t ty') e' r') :
    (∃ a a' s s', r = .ok a s ∧ r' = .ok a' s' ∧ a.code = a'.code) ∨
      ∃ f f' s s', r = .error (.failed f) s ∧ r' = .error (.failed f') s' := by
  -- no variable of the three terms can be issued, in the comparison or in either run
  simp only [List.forall_mem_cons, List.not_mem_nil, false_implies, implies_true, and_true]
    at hissued
  obtain ⟨hk, hleft, hright⟩ := hissued
  have havoids : ∀ u ∈ [t, ty, ty'], k.Avoids u := fun u hu id hid =>
    hk id (Context.mem_idsWith_iff.2 (.inr ⟨u, hu, hid⟩))
  obtain ⟨d, hd⟩ := hequal.exists_depth
  have hconv : Convertible env.table ty ty' :=
    .of_equal hfree (havoids ty (by simp)) (havoids ty' (by simp)) hd
  -- each variable of the context and of the three terms stands for itself
  let W := World.common ctx [t, ty, ty'] he he' hleft hright
  have hsame : SameType env.table W ty ty' :=
    .of_convertible hty hty' (World.fixes_common (by simp)) (World.fixes_common (by simp)) hconv
  have hterm : Counterpart env.table W t t := .refl ht (World.fixes_common (by simp))
  -- the two runs are compared within a depth that is enough for both
  obtain ⟨depth, hdepth, hdepth'⟩ := h.exists_common_depth h'
  have hmatched := (matchedWithin hclosed hfree depth depth).check (W := W)
    (.common hctx [t, ty, ty']) hterm hsame e e' rfl rfl
  rw [hdepth, hdepth'] at hmatched
  obtain ⟨_, a, a', s, s', hok, hok', hQ⟩ | hfailed := hmatched.cases h.1 h'.1
  · exact .inl ⟨a, a', s, s', hok, hok', hQ.code⟩
  · exact .inr hfailed

theorem wellScoped_outerContext : outerContext.WellScoped :=
  .extend outerVar .empty trivial fun id hid => by cases hid

/-- The variable of the context is of another group than the variables that are issued. -/
theorem not_canIssue_outerContext {ts : List Term}
    (hts : ∀ id ∈ ts.flatMap Term.freeIds, id = outerVar.id) (next : Nat) :
    ∀ id ∈ outerContext.idsWith ts, ¬ Supply.CanIssue ⟨0, next⟩ id := by
  have houter : ∀ id ∈ outerContext.idsWith ts, id = outerVar.id := by
    intro id hid
    obtain hid | hid := List.mem_append.1 hid
    · exact List.mem_singleton.1 hid
    · exact hts id hid
  rintro id hid ⟨hgroup, -⟩
  cases houter id hid
  cases hgroup

/-- A function that applies its parameter to the variable of the context. -/
def applier : Term :=
  .lam "x" false (.app (.bound 0) (.var outerVar) false)

/-- A function that applies its parameter to a variable of the one twin is accepted as a function
from either twin, with the same code. -/
theorem applier_at_either_twin :
    ∃ a a' s s', Returns (fun d => check ⟨Kernel.twins, true⟩ d outerContext applier (.ref "A"))
        (.start ⟨0, 0⟩ none) (.ok a s) ∧
      Returns (fun d => check ⟨Kernel.twins, true⟩ d outerContext applier (.ref "B"))
        (.start ⟨0, 5⟩ none) (.ok a' s') ∧
      a.code = .lam "x" (.app (.var "x") (.var "z")) ∧ a.code = a'.code := by
  have hids : ∀ id ∈ [applier, .ref "A", .ref "B"].flatMap Term.freeIds, id = outerVar.id := by
    decide
  have hissued : ∀ kernel ∈ [Kernel.start ⟨0, 0⟩ none, (start ⟨0, 0⟩ none).kernel,
      (start ⟨0, 5⟩ none).kernel], ∀ id ∈ outerContext.idsWith [applier, .ref "A", .ref "B"],
      ¬ kernel.supply.CanIssue id := by
    simp only [List.forall_mem_cons, List.not_mem_nil, false_implies, implies_true, and_true]
    exact ⟨not_canIssue_outerContext hids 0, not_canIssue_outerContext hids 0,
      not_canIssue_outerContext hids 5⟩
  obtain ⟨k, hequal⟩ := (Kernel.deepens_equal Kernel.twins (.ref "A") (.ref "B")).returns_of_value?
    (.start ⟨0, 0⟩ none) true 9 (by decide +kernel)
  obtain ⟨s, h⟩ := (deepens_check ⟨Kernel.twins, true⟩ outerContext applier
    (.ref "A")).returns_of_value? (.start ⟨0, 0⟩ none)
      ⟨.lam "x" (.app (.var "x") (.var "z")), .ref "A"⟩ 9 (by decide +kernel)
  obtain ⟨s', h'⟩ := (deepens_check ⟨Kernel.twins, true⟩ outerContext applier
    (.ref "B")).returns_of_value? (.start ⟨0, 5⟩ none)
      ⟨.lam "x" (.app (.var "x") (.var "z")), .ref "B"⟩ 9 (by decide +kernel)
  obtain ⟨a, a', s, s', hr, hr', hcode⟩ | ⟨f, -, s, -, hr, -⟩ :=
    check_respects_equal (by decide) (by decide) wellScoped_outerContext (by decide) (by decide)
      (by decide) hissued rfl rfl hequal h h'
  · cases hr
    cases hr'
    exact ⟨_, _, s, s', h, h', rfl, hcode⟩
  · cases hr

end Elaborator

end SelfTypes
