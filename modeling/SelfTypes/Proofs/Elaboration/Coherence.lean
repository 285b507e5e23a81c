import SelfTypes.Proofs.Elaboration.Interchange

/-!
# Inferred types check

A term is accepted at the type that was inferred for it, when it is checked against that type
afterwards. The second run issues other variables than the first one, so it finds its own forms of
the types, which can be interchanged with those of the first run. What the first run succeeded in,
the second one does not fail in. The type itself is the exception: a local definition that may be
duplicated leaves the variable that was issued for it in the type, and the second run issues another
one. Main statement: `Elaborator.check_inferred`.
-/

namespace SelfTypes

namespace Elaborator

/-! ## Computations that do not fail -/

/-- From the state, the computation does not come to a failure. -/
def Unfailing {α : Type} (x : ElaboratorM α) (e : Elaborator) : Prop :=
  ∀ f e', x e ≠ .error (.failed f) e'

namespace Unfailing

variable {α β : Type} {x : ElaboratorM α} {e : Elaborator}

theorem pure (a : α) (e : Elaborator) : Unfailing (Pure.pure a : ElaboratorM α) e := by
  intro f e' h
  cases h

theorem giveUp (e : Elaborator) : Unfailing (Elaborator.giveUp : ElaboratorM α) e := by
  intro f e' h
  cases h

theorem bind {f : α → ElaboratorM β} (hx : Unfailing x e)
    (hf : ∀ a e', x e = .ok a e' → Unfailing (f a) e') : Unfailing (x >>= f) e := by
  intro failure e' h
  obtain h | ⟨a, e₁, hxe, h⟩ := EStateM.error_of_bind_error h
  · exact hx failure e' h
  · exact hf a e₁ hxe failure e' h

theorem within (task : Task) (hx : Unfailing x { e with stack := task :: e.stack }) :
    Unfailing (within task x) e := by
  intro failure e' h
  obtain ⟨e₁, h⟩ := error_of_within h
  exact hx failure e₁ h

/-- With an unlimited budget, actions of the kernel do not fail. -/
theorem lift {x : KernelM α} (hfails : FailsAtLimit x) (hprog : Progresses Kernel.Follows x)
    (he : e.kernel.fuel.limit = none) : Unfailing (lift x) e := by
  intro failure e' h
  obtain ⟨err, k, hx, -⟩ := failed_of_lift h
  -- a computation of the kernel fails at a limit only, and there is none
  cases Matches.halt_eq_unfinished hfails hprog he hx

/-- What matches a success does not fail, and its success is related to that one. -/
theorem of_matched {W : World} {Q : World → α → α → Prop} {a : α} {s : Elaborator}
    (h : Matched W Q (.ok a s) (x e)) : Unfailing x e ∧ ∀ a' s', x e = .ok a' s' →
      ∃ W', W.Le W' ∧ s.kernel = W'.left ∧ s'.kernel = W'.right ∧ Q W' a a' := by
  generalize hr : x e = r' at h
  cases h with
  -- the left run has returned, so the right one has returned too or did not come to an end
  | @ok W' _ a' _ s' hW hs hs' hQ =>
    refine ⟨fun f s'' hfailed => ?_, fun a'' s'' hok => ?_⟩
    · rw [hr] at hfailed
      cases hfailed
    · cases hok
      exact ⟨W', hW, hs, hs', hQ⟩
  | right =>
    refine ⟨fun f s'' hfailed => ?_, fun a'' s'' hok => ?_⟩
    · rw [hr] at hfailed
      cases hfailed
    · cases hok

/-- An action of the kernel on the right moves the world on, and leaves its left side alone. -/
theorem lift_bind {W : World} {x : KernelM α} {f : α → ElaboratorM β} (hfails : FailsAtLimit x)
    (hprog : Progresses Kernel.Follows x) (he : e.kernel = W.right)
    (hf : ∀ a W' e', W.Le W' → W'.left = W.left → e'.kernel = W'.right →
      x W.right = .ok a W'.right → Unfailing (f a) e') :
    Unfailing (Elaborator.lift x >>= f) e := by
  refine .bind (.lift hfails hprog (he ▸ W.unlimitedRight)) fun a e' hok => ?_
  have hx := ok_of_lift hok
  rw [he] at hx
  have hfollows := hprog.of_ok hx
  exact hf a (W.advance (.refl _) hfollows) e' (W.le_advance _ _) rfl rfl hx

end Unfailing

/-! ## What was inferred -/

/-- On the left, a type is inferred for the term that can be interchanged with the one on the
right. -/
structure InferredAs (env : Environment) (W : World) (ctx ctx' : Context) (t t' ty' : Term) :
    Prop where
  context : ctx.Retyped env.table W ctx'
  term : Counterpart env.table W t t'
  ty : Settled W.right ty'
  run : ∃ depth e r s, e.kernel = W.left ∧ infer env depth ctx t e = .ok r s ∧
    Interconvertible env.table W.pairs r.ty ty'

namespace InferredAs

variable {env : Environment} {W W' : World} {ctx ctx' : Context} {t t' ty' : Term}

/-- The right side may move on. -/
theorem advance (h : InferredAs env W ctx ctx' t t' ty') (hW : W.Le W') (hleft : W'.left = W.left) :
    InferredAs env W' ctx ctx' t t' ty' := by
  obtain ⟨depth, e, r, s, he, hinfer, hsame⟩ := h.run
  exact ⟨h.context.mono hW, h.term.mono hW, h.ty.follows hW.right,
    depth, e, r, s, he.trans hleft.symm, hinfer, hsame.weaken hW.pairs⟩

end InferredAs

variable {env : Environment} {W : World} {ctx ctx' : Context} {t t' ty' : Term}
  {e e' s : Elaborator} {r : Elaborated} {depth depth' : Nat}

/-- A term without a rule of its own is inferred again, and found to have the type that is
expected. -/
theorem unfailing_infer_and_compare (hclosed : env.table.IsLocallyClosed)
    (hfree : env.table.IsVarFree) (h : InferredAs env W ctx ctx' t t' ty')
    (he' : e'.kernel = W.right) :
    Unfailing
      (do
        let result ← infer env depth' ctx' t'
        if env.subsumption then
          if ← equal env depth' result.ty ty' then return (⟨result.code, ty'⟩ : Elaborated)
          else raise (.mismatch ty' result.ty)
        else return ⟨result.code, ty'⟩) e' := by
  obtain ⟨depth, e, r, s, he, hinfer, hsame⟩ := h.run
  have hmatched := (matchedWithin hclosed hfree depth depth').infer h.context h.term e e' he he'
  rw [hinfer] at hmatched
  obtain ⟨hunfailing, hrelated⟩ := Unfailing.of_matched hmatched
  refine hunfailing.bind fun r' s' hr' => ?_
  obtain ⟨W', hW, -, hs', hr⟩ := hrelated r' s' hr'
  -- without subsumption the types are not compared at all
  split
  · refine .lift_bind (isCongruence_failsAtLimit.equal _ (.refl _) _ _)
      (Kernel.progresses_equal _ _ _ _) hs' fun same _ s'' _ _ _ hequal => ?_
    -- both types can be interchanged with the one on the left
    have hconv := (Interconvertible.convertible_iff hfree W'.joined.toOneToOne hr.ty.forms
      (hsame.weaken hW.pairs)).1 (.refl env.table r.ty)
    have hverdict := Kernel.eq_true_iff_convertible hfree hr.ty.right.avoided
      (h.ty.follows hW.right).avoided hequal
    rw [hverdict.2 hconv]
    exact .pure _ s''
  · exact .pure _ s'

/-- A local definition, given that elaborating its body does not fail where the body was
inferred. -/
theorem unfailing_elaborateLet (hclosed : env.table.IsLocallyClosed) (hfree : env.table.IsVarFree)
    {name : BinderName} {dup : Bool} {v b v' b' : Term}
    {onBody : Context → Term → ElaboratorM Elaborated} (hctx : ctx.Retyped env.table W ctx')
    (ht : Counterpart env.table W (.letIn name dup v b) (.letIn name dup v' b'))
    (hty : Settled W.right ty') (he : e.kernel = W.left) (he' : e'.kernel = W.right)
    (h : elaborateLet ctx name dup v b (infer env depth ctx v) (infer env depth) e = .ok r s)
    (hsame : Interconvertible env.table W.pairs r.ty ty')
    (hbody : ∀ {W' ctx ctx' t t' e'}, InferredAs env W' ctx ctx' t t' ty' → e'.kernel = W'.right →
      Unfailing (onBody ctx' t') e') :
    Unfailing (elaborateLet ctx' name dup v' b' (infer env depth' ctx' v') onBody) e' := by
  obtain ⟨value, s₁, hvalue, h⟩ := EStateM.ok_of_bind_ok h
  obtain ⟨x, s₂, hfresh, h⟩ := EStateM.ok_of_bind_ok h
  obtain ⟨result, s₃, hresult, h⟩ := EStateM.ok_of_bind_ok h
  cases h
  have hterm : Counterpart env.table W v v' := by
    cases ht.shape with
    | letIn hv _ => exact ⟨ht.left.expr, ht.right.expr, hv⟩
  -- the value is inferred on both sides, and a variable is issued
  have hmatched := (matchedWithin hclosed hfree depth depth').infer hctx hterm e e' he he'
  rw [hvalue] at hmatched
  obtain ⟨hunfailing, hrelated⟩ := Unfailing.of_matched hmatched
  refine hunfailing.bind fun value' q₁ hvalue' => ?_
  obtain ⟨W₁, hW₁, hs₁, hq₁, hr⟩ := hrelated value' q₁ hvalue'
  have hissued := Matches.fresh env.table name s₁ q₁ hs₁ hq₁
  rw [hfresh] at hissued
  obtain ⟨hunfailing, hrelated⟩ := Unfailing.of_matched hissued
  refine hunfailing.bind fun x' q₂ hfresh' => ?_
  obtain ⟨W₂, hW₂, hs₂, hq₂, hx⟩ := hrelated x' q₂ hfresh'
  have hW := hW₁.trans hW₂
  have hvalueTy := hr.ty.mono hW₂
  -- the left side has inferred the type of the body with its own variable
  have hinferred : InferredAs env W₂ (ctx.extend x value.ty) (ctx'.extend x' value'.ty)
      (b.instantiate [letStandIn dup x v value.ty])
      (b'.instantiate [letStandIn dup x' v' value'.ty]) ty' :=
    ⟨(hctx.mono hW).extend hx.named hvalueTy, (ht.mono hW).letBody hx hvalueTy,
      hty.follows hW.right, depth, s₂, result, s, hs₂, hresult, hsame.weaken hW.pairs⟩
  exact .bind (hbody hinferred hq₂) fun q q₃ _ => .pure _ q₃

/-- Where inference has succeeded, checking does not fail against a type that can be interchanged
with the one that was found. -/
theorem unfailing_check (hclosed : env.table.IsLocallyClosed) (hfree : env.table.IsVarFree)
    (h : InferredAs env W ctx ctx' t t' ty') (he' : e'.kernel = W.right) :
    Unfailing (check env depth' ctx' t' ty') e' := by
  induction depth' generalizing W ctx ctx' t t' e' with
  | zero => exact .giveUp e'
  | succ depth' ih =>
    simp only [check]
    refine .within _ (.lift_bind (isCongruence_failsAtLimit.note _) (Kernel.progresses_note _) he'
      fun _ W₁ e₁ hW₁ hleft₁ he₁ _ => ?_)
    -- the invariant is moved past each step of the kernel before the next one
    replace h := h.advance hW₁ hleft₁
    cases literal? t' with
    | some r => exact .pure r e₁
    | none =>
      refine .lift_bind (isCongruence_failsAtLimit.reduce _ (.refl _) _)
        (Kernel.progresses_reduce _ _ _) he₁ fun tyHead W₂ e₂ hW₂ hleft₂ he₂ _ => ?_
      replace h := h.advance hW₂ hleft₂
      split
      · exact .pure _ e₂
      -- neither a literal nor a universe: the rule is decided by the term, as on the left side
      · obtain ⟨depth, e, r, s, he, hinfer, hsame⟩ := h.run
        obtain ⟨depth, rfl⟩ : ∃ d, depth = d + 1 := by
          cases depth with
          | zero => cases hinfer
          | succ d => exact ⟨d, rfl⟩
        -- the left side has noted the inference, and comes to the rule for the term
        simp only [infer] at hinfer
        obtain ⟨s, hinfer, -⟩ := ok_of_within hinfer
        obtain ⟨_, e₀, hnote, hinfer⟩ := EStateM.ok_of_bind_ok hinfer
        have hnoted := follows_of_lift (Kernel.progresses_note _) hnote
        let W₃ := W₂.advance (he ▸ hnoted) (.refl _)
        have hW₃ : W₂.Le W₃ := W₂.le_advance _ _
        have hctx := h.context.mono hW₃
        have ht := h.term.mono hW₃
        cases ht.shape with
        -- a function has no inferred type, so the left run would have failed
        | lam => cases hinfer
        | loc hshape =>
          have hterm : Counterpart env.table W₃ _ _ := ⟨ht.left.loc, ht.right.loc, hshape⟩
          exact ih ⟨hctx, hterm, h.ty, depth, e₀, r, s, rfl, hinfer, hsame⟩ he₂
        | letIn =>
          exact unfailing_elaborateLet hclosed hfree hctx ht h.ty rfl he₂ hinfer hsame ih
        | _ => exact unfailing_infer_and_compare hclosed hfree h he₂

/-- The type that is inferred for a term is one that the term is accepted at afterwards, as far as
checking comes to an end: the check does not fail, unless the type mentions a variable that was
issued for a shared local definition. -/
theorem check_inferred {env : Environment} (hclosed : env.table.IsLocallyClosed)
    (hfree : env.table.IsVarFree) {ctx : Context} (hctx : ctx.WellScoped) {t : Term}
    (ht : t.IsLocallyClosed) {e e₁ : Elaborator}
    (hissued : ∀ id ∈ ctx.idsWith [t], ¬ e.kernel.supply.CanIssue id)
    (he : e.kernel.fuel.limit = none) {depth : Nat} {r : Elaborated}
    (h : infer env depth ctx t e = .ok r e₁)
    (hshared : t.infersShared = true → e.kernel.Avoids r.ty) (depth' : Nat) (f : Failure)
    (e₂ : Elaborator) : check env depth' ctx t r.ty e₁ ≠ .error (.failed f) e₂ := by
  have hderives := derives_of_infer h
  have hfollows := hderives.follows
  have htyClosed := hderives.isLocallyClosed_ty hclosed (fun p hp => (hctx.types p hp).1) ht
  -- without a shared local definition, the type has variables of the term and the context only
  have hty : e.kernel.Avoids r.ty := by
    intro id hid
    cases hderives.varSource_ty hfree hid with
    | term hid => exact hissued id (Context.mem_idsWith_iff.2 (.inr ⟨t, by simp, hid⟩))
    | context hp hid =>
      exact hissued id (Context.mem_idsWith_iff.2 (.inl ((hctx.types _ hp).2 id hid)))
    | shared hshare _ => exact hshared hshare id hid
  have hids : ∀ id ∈ ctx.idsWith [t, r.ty], ¬ e.kernel.supply.CanIssue id := by
    intro id hid
    simp only [Context.mem_idsWith_iff, List.mem_cons, List.not_mem_nil, or_false,
      exists_eq_or_imp, exists_eq_left] at hid hissued
    obtain hid | hid | hid := hid
    · exact hissued id (.inl hid)
    · exact hissued id (.inr hid)
    · exact hty id hid
  -- the second run starts where the first has ended, and with the same variables in common
  let W := World.common ctx [t, r.ty] he (hfollows.limit.trans he) hids
    fun id hid hissue => hids id hid (hfollows.canIssue hissue)
  have hsame : SameType env.table W r.ty r.ty := .refl htyClosed (World.fixes_common (by simp))
  have hinferred : InferredAs env W ctx ctx t t r.ty :=
    ⟨.common hctx [t, r.ty], .refl ht (World.fixes_common (by simp)), hsame.right,
      depth, e, r, e₁, rfl, h, hsame.forms⟩
  exact unfailing_check hclosed hfree hinferred rfl f e₂

/-- What is inferred for an application to a local definition that is not shared is accepted
afterwards. -/
theorem inlinedValue_accepted :
    ∃ r e₁, infer ⟨dependent, true⟩ 6 outerContext (appliedToLocal false (.var outerVar))
        (.start ⟨0, 0⟩ none) = .ok r e₁ ∧
      ∀ depth f e₂, check ⟨dependent, true⟩ depth outerContext
        (appliedToLocal false (.var outerVar)) r.ty e₁ ≠ .error (.failed f) e₂ := by
  have hissued : ∀ id ∈ outerContext.idsWith [appliedToLocal false (.var outerVar)],
      ¬ (start ⟨0, 0⟩ none).kernel.supply.CanIssue id :=
    not_canIssue_outerContext (by decide) 0
  obtain ⟨e₁, h⟩ : ∃ e₁, infer ⟨dependent, true⟩ 6 outerContext
      (appliedToLocal false (.var outerVar)) (.start ⟨0, 0⟩ none) =
        .ok ⟨.app (.ref "f") (.var "z"), typeOfApplied (.var outerVar)⟩ e₁ :=
    EStateM.Result.exists_ok_of_value? (by decide +kernel)
  have hnotShared : (appliedToLocal false (.var outerVar)).infersShared ≠ true := by decide
  exact ⟨_, e₁, h, check_inferred (by decide) (by decide) wellScoped_outerContext (by decide)
    hissued rfl h fun hshared => absurd hshared hnotShared⟩

/-- Why the application to a shared local definition is refused at the type that was inferred for
it: another variable is issued for the definition, and the type has the one before. -/
def sharedFailure : Failure where
  cause :=
    .mismatch (typeOfApplied (.var ⟨⟨0, 0⟩, "x"⟩)) (typeOfApplied (.var ⟨⟨0, 1⟩, "x"⟩))
  stack :=
    [.term (.app (.ref "f") (.ann true (.var ⟨⟨0, 1⟩, "x"⟩) (.ref "A")) false)
      (.analysis (typeOfApplied (.var ⟨⟨0, 0⟩, "x"⟩))),
     .term (appliedToLocal true (.ref "a")) (.analysis (typeOfApplied (.var ⟨⟨0, 0⟩, "x"⟩)))]

/-- What is inferred for an application to a shared local definition is refused afterwards. -/
theorem sharedValue_refused :
    (dependent.IsLocallyClosed ∧ dependent.IsVarFree) ∧
      (appliedToLocal true (.ref "a")).IsLocallyClosed ∧
      (appliedToLocal true (.ref "a")).freeIds = [] ∧
      ∃ r e₁, infer ⟨dependent, true⟩ 6 .empty (appliedToLocal true (.ref "a"))
          (.start ⟨0, 0⟩ none) = .ok r e₁ ∧
        ∃ e₂, check ⟨dependent, true⟩ 9 .empty (appliedToLocal true (.ref "a")) r.ty e₁ =
          .error (.failed sharedFailure) e₂ := by
  obtain ⟨e₁, h⟩ : ∃ e₁, infer ⟨dependent, true⟩ 6 .empty (appliedToLocal true (.ref "a"))
      (.start ⟨0, 0⟩ none) = .ok ⟨.letIn "x" (.ref "a") (.app (.ref "f") (.var "x")),
        typeOfApplied (.var ⟨⟨0, 0⟩, "x"⟩)⟩ e₁ :=
    EStateM.Result.exists_ok_of_value? (by decide +kernel)
  obtain ⟨e₂, hrefused⟩ : ∃ e₂,
      (infer ⟨dependent, true⟩ 6 .empty (appliedToLocal true (.ref "a")) >>= fun r =>
        check ⟨dependent, true⟩ 9 .empty (appliedToLocal true (.ref "a")) r.ty)
          (.start ⟨0, 0⟩ none) = .error (.failed sharedFailure) e₂ :=
    EStateM.Result.exists_error_of_halt? (by decide +kernel)
  -- the check starts in the state in which the inference has ended
  rw [EStateM.bind_of_ok h] at hrefused
  exact ⟨by decide, by decide, rfl, _, e₁, h, e₂, hrefused⟩

end Elaborator

end SelfTypes
