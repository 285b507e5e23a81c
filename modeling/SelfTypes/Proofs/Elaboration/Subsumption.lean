import SelfTypes.Proofs.Elaboration.Lockstep

/-!
# Elaboration without subsumption

A run that does not compare the types of terms with those they should have takes part of the steps
of one that does. It issues other variables, and has more of its budget left at every later step,
but it comes to the same values, as far as the other run comes to any. The relation `Spares` says so
of two computations that start with the pairs of variables that were issued together. Main
statement: `Elaborator.definition_without_subsumption`.
-/

namespace SelfTypes

/-! ## States -/

/-- The second kernel has taken no more steps than the first, under the same limit, and the pairs
are of variables that neither is yet to issue. -/
structure Kernel.Ahead (P : List (VarId × VarId)) (k k' : Kernel) : Prop
    extends Kernel.Joined P k k' where
  limit : k'.fuel.limit = k.fuel.limit
  used : k'.fuel.used ≤ k.fuel.used

namespace Kernel.Ahead

variable {P : List (VarId × VarId)} {k k' k₁ k₁' : Kernel}

/-- Steps that only the first run takes. -/
theorem follows_left (h : Ahead P k k') (hk : k.Follows k₁) : Ahead P k₁ k' where
  toJoined := h.toJoined.follows hk (.refl k')
  limit := h.limit.trans hk.limit.symm
  used := Nat.le_trans h.used hk.used

theorem note (h : Ahead P k k') (e e' : Event) :
    Ahead P { k with trace := e :: k.trace } { k' with trace := e' :: k'.trace } where
  toJoined := h.toJoined.follows ((progresses_note e).of_ok rfl) ((progresses_note e').of_ok rfl)
  limit := h.limit
  used := h.used

theorem fresh (h : Ahead P k k') {n n' : BinderName} {x x' : Var}
    (hx : Kernel.fresh n k = .ok x k₁) (hx' : Kernel.fresh n' k' = .ok x' k₁') :
    Ahead ((x.id, x'.id) :: P) k₁ k₁' where
  toJoined := h.toJoined.fresh hx hx'
  limit := by
    cases hx
    cases hx'
    exact h.limit
  used := by
    cases hx
    cases hx'
    exact h.used

/-- A step that the first budget allows is allowed by the second one, too. -/
theorem burn (h : Ahead P k k') (hk : Kernel.burn k = .ok () k₁) :
    ∃ k₁', Kernel.burn k' = .ok () k₁' ∧ Ahead P k₁ k₁' := by
  have hfollows := progresses_burn.of_ok hk
  obtain ⟨hallowed, rfl⟩ := burn_eq_ok_iff.1 hk
  -- both sides have the same limit, and the second one has used no more of it
  have hk' := burn_eq_ok_iff.2 ⟨fun limit hlimit =>
    Nat.lt_of_le_of_lt h.used (hallowed limit (h.limit.symm.trans hlimit)), rfl⟩
  exact ⟨_, hk', h.toJoined.follows hfollows (progresses_burn.of_ok hk'), h.limit,
    Nat.succ_le_succ h.used⟩

end Kernel.Ahead

/-! ## Runs that spare steps -/

/-- Where the first computation succeeds, so does the second, from every state that is ahead of that
of the first and to one that is, with a related value. -/
def Spares {ε σ : Type} (kernel : σ → Kernel) (α : Type) (ρ : VarRelation)
    (Q : VarRelation → α → α → Prop) (x x' : EStateM ε σ α) : Prop :=
  ∀ P s s' a t, ρ = Named P → Kernel.Ahead P (kernel s) (kernel s') → x s = .ok a t →
    ∃ P' a' t', P ⊆ P' ∧ Kernel.Ahead P' (kernel t) (kernel t') ∧ x' s' = .ok a' t' ∧
      Q (Named P') a a'

namespace Spares

variable {ε σ α β : Type} {kernel : σ → Kernel} {ρ : VarRelation}
  {Q : VarRelation → α → α → Prop} {R : VarRelation → β → β → Prop} {x x' : EStateM ε σ α}

theorem of_comparable {table : Table} (hfree : table.IsVarFree) {L : Likeness}
    (hL : ∀ n, L.known n) (h : Comparable L table table ρ → Spares kernel α ρ Q x x') :
    Spares kernel α ρ Q x x' := by
  intro P s s' a t hρ hP hx
  subst hρ
  exact h (hfree.comparable hL hP.toOneToOne.faithful) P s s' a t rfl hP hx

theorem pure {a a' : α} (h : Q ρ a a') :
    Spares kernel α ρ Q (Pure.pure a : EStateM ε σ α) (Pure.pure a') := by
  intro P s s' b t hρ hP hb
  subst hρ
  cases hb
  exact ⟨P, a', s', List.Subset.refl P, hP, rfl, h⟩

theorem bind {f f' : α → EStateM ε σ β} (hx : Spares kernel α ρ Q x x')
    (hf : ∀ ρ' a a', Subrelation ρ ρ' → Q ρ' a a' → Spares kernel β ρ' R (f a) (f' a')) :
    Spares kernel β ρ R (x >>= f) (x' >>= f') := by
  intro P s s' b t hρ hP h
  subst hρ
  obtain ⟨a, s₁, ha, hb⟩ := EStateM.ok_of_bind_ok h
  obtain ⟨P₁, a', s₁', hsub₁, hP₁, ha', hQ⟩ := hx P s s' a s₁ rfl hP ha
  obtain ⟨P₂, b', t', hsub₂, hP₂, hb', hR⟩ := hf (Named P₁) a a' (Named.mono hsub₁) hQ P₁ s₁ s₁' b t
    rfl hP₁ hb
  exact ⟨P₂, b', t', fun _ hp => hsub₂ (hsub₁ hp), hP₂, (EStateM.bind_of_ok ha').trans hb', hR⟩

/-- A computation without a value is followed by all others. -/
theorem of_ne_ok (h : ∀ s a t, x s ≠ .ok a t) : Spares kernel α ρ Q x x' :=
  fun _ s _ a t _ _ hx => absurd hx (h s a t)

end Spares

theorem Kernel.isLockstep_spares {table : Table} (hfree : table.IsVarFree) :
    IsLockstep {} table table (Spares id) where
  comparable := .of_comparable hfree fun _ => trivial
  pure := .pure
  bind := .bind
  giveUp := .of_ne_ok fun _ _ _ h => by cases h
  note _ := by
    intro P k k' a t hρ hP h
    cases h
    exact ⟨P, (), _, List.Subset.refl P, hP.note _ _, rfl, trivial⟩
  burn := by
    intro ρ P k k' a t hρ hP h
    obtain ⟨t', h', hP'⟩ := hP.burn h
    exact ⟨P, (), t', List.Subset.refl P, hP', h', trivial⟩
  fresh name := by
    intro P k k' x t hρ hP h
    -- issuing never fails, so the second side issues as well
    have h' : Kernel.fresh name k' =
        .ok ⟨k'.supply.issue.1, name⟩ { k' with supply := k'.supply.issue.2 } := rfl
    refine ⟨_, _, _, List.subset_cons_self _ _, hP.fresh h h', h', List.mem_cons_self, ?_⟩
    cases h
    rfl

namespace Elaborator

theorem spares_lift {α : Type} {ρ : VarRelation} {Q : VarRelation → α → α → Prop}
    {x x' : KernelM α} (hx : Spares id α ρ Q x x') :
    Spares Elaborator.kernel α ρ Q (lift x) (lift x') := by
  intro P e e' a t hρ hP h
  obtain ⟨P', a', k', hsub, hP', hk', hQ⟩ := hx P _ _ a _ hρ hP (ok_of_lift h)
  refine ⟨P', a', { e' with kernel := k' }, hsub, hP', ?_, hQ⟩
  rw [lift_apply]
  exact congrArg (liftEnding e') hk'

theorem spares_within {α : Type} {ρ : VarRelation} {Q : VarRelation → α → α → Prop}
    {task task' : Task} {x x' : ElaboratorM α} (hx : Spares Elaborator.kernel α ρ Q x x') :
    Spares Elaborator.kernel α ρ Q (within task x) (within task' x') := by
  intro P e e' a t hρ hP h
  obtain ⟨e₁, h₁, hkernel⟩ := ok_of_within h
  obtain ⟨P', a', e₁', hsub, hP', h₁', hQ⟩ := hx P { e with stack := task :: e.stack }
    { e' with stack := task' :: e'.stack } a e₁ hρ hP h₁
  refine ⟨P', a', { e₁' with stack := e'.stack }, hsub, hkernel ▸ hP', ?_, hQ⟩
  rw [within_apply, h₁']
  rfl

theorem isLockstep_spares {table : Table} (hfree : table.IsVarFree) :
    IsLockstep {} ⟨table, true⟩ ⟨table, false⟩ (Spares Elaborator.kernel) where
  builtins := ⟨fun _ => trivial, trivial, trivial⟩
  comparable := .of_comparable hfree fun _ => trivial
  pure := .pure
  bind := .bind
  giveUp := .of_ne_ok fun _ _ _ h => by cases h
  -- a failure promises nothing: only a success has to be followed
  raise _ := .of_ne_ok fun _ _ _ h => by cases h
  within _ := spares_within
  note he := spares_lift ((Kernel.isLockstep_spares hfree).note he)
  fresh name := spares_lift ((Kernel.isLockstep_spares hfree).fresh name)
  reduce depth ht := spares_lift ((Kernel.isLockstep_spares hfree).reduce id depth ht)
  equal depth ha hb := spares_lift ((Kernel.isLockstep_spares hfree).equal id depth ha hb)
  subsumption := by
    refine .inr ⟨rfl, fun {α ρ Q depth a b cause x x'} hx P e e' c t hρ hP h => ?_⟩
    obtain ⟨same, e₁, hsame, h⟩ := EStateM.ok_of_bind_ok h
    cases same with
    | false => cases h
    | true =>
      -- the comparison has only moved the first run on
      have hfollows := follows_of_lift (Kernel.progresses_equal _ _ _ _) hsame
      exact hx P e₁ e' c t hρ (hP.follows_left hfollows) h

/-- A definition that is accepted is accepted without subsumption, too, with the same code and with
no more steps. -/
theorem definition_without_subsumption {table : Table} (hfree : table.IsVarFree) {depth : Nat}
    {name : DefName} {e t : Elaborator} {code : Code}
    (h : definition ⟨table, true⟩ depth name e = .ok code t) :
    ∃ t', definition ⟨table, false⟩ depth name e = .ok code t' ∧
      t'.kernel.spent ≤ t.kernel.spent := by
  have hstart : Kernel.Ahead [] e.kernel e.kernel := ⟨.empty _ _, rfl, Nat.le_refl _⟩
  obtain ⟨P, code', t', -, hP, h', rfl⟩ :=
    (isLockstep_spares hfree).definition depth trivial [] e e code t rfl hstart h
  exact ⟨t', h', hP.used⟩

end Elaborator

end SelfTypes
