import SelfTypes.Proofs.Kernel.WeakHead
import SelfTypes.Proofs.Term.Substitution

/-!
# Head reduction step by step

`WeakHeadIn table steps h t w` refines `WeakHead table t w`: it counts the steps, and it can be told
which globals may be unfolded and which pairs of an application and a function may be contracted.
Main statements: `WeakHead.subst` and `WeakHeadIn.of_subst`, by which the reduction of a term after
substitution is the reduction of the term, continued after substitution, and
`WeakHeadIn.of_bare_eq`, by which annotations and locations play no part in it.
-/

namespace SelfTypes

/-! ## Steps -/

/-- The steps of reduction that are allowed. -/
structure HeadSteps where
  /-- The globals that may be unfolded. -/
  unfolds : DefName → Prop
  /-- The flags of an application and of a function that may be contracted. -/
  contracts : Bool → Bool → Prop

/-- All steps. -/
def HeadSteps.all : HeadSteps where
  unfolds _ := True
  contracts _ _ := True

/-- `w` is the weak head normal form of the first term, by as many of the allowed steps as the
number says; an application whose function is found to be none counts as one too. -/
inductive WeakHeadIn (table : Table) (steps : HeadSteps) : Nat → Term → Term → Prop where
  | bound (i : Nat) : WeakHeadIn table steps 0 (.bound i) (.bound i)
  | var (x : Var) : WeakHeadIn table steps 0 (.var x) (.var x)
  | typ : WeakHeadIn table steps 0 .typ .typ
  | all (s n : BinderName) (a b : Term) :
      WeakHeadIn table steps 0 (.all s n a b) (.all s n a b)
  | lam (n : BinderName) (er : Bool) (b : Term) :
      WeakHeadIn table steps 0 (.lam n er b) (.lam n er b)
  | unknown {name : DefName} :
      table.find? name = none → WeakHeadIn table steps 0 (.ref name) (.ref name)
  | unfold {h : Nat} {name : DefName} {d : Definition} {w : Term} :
      steps.unfolds name → table.find? name = some d → WeakHeadIn table steps h d.body w →
      WeakHeadIn table steps (h + 1) (.ref name) w
  | letIn {h : Nat} {n : BinderName} {dup : Bool} {e b w : Term} :
      WeakHeadIn table steps h (b.instantiate [e]) w →
      WeakHeadIn table steps (h + 1) (.letIn n dup e b) w
  | ann {h : Nat} {d : Bool} {e ty w : Term} :
      WeakHeadIn table steps h e w → WeakHeadIn table steps h (.ann d e ty) w
  | loc {h : Nat} {s : Span} {e w : Term} :
      WeakHeadIn table steps h e w → WeakHeadIn table steps h (.loc s e) w
  | beta {h h' : Nat} {f a b w : Term} {n : BinderName} {er er' : Bool} :
      steps.contracts er er' → WeakHeadIn table steps h f (.lam n er' b) →
      WeakHeadIn table steps h' (b.instantiate [a]) w →
      WeakHeadIn table steps (h + h' + 1) (.app f a er) w
  | stuck {h : Nat} {f a g : Term} {er : Bool} :
      WeakHeadIn table steps h f g → g.isLam = false →
      WeakHeadIn table steps (h + 1) (.app f a er) (.app g a er)

section

variable {table : Table} {steps : HeadSteps} {h : Nat} {t u w w' : Term} {σ : Var → Term}

/-- What some of the steps lead to is the normal form. -/
theorem WeakHeadIn.weakHead (ht : WeakHeadIn table steps h t w) : WeakHead table t w := by
  induction ht with
  | bound | var | typ | all | lam => constructor
  | unknown hname => exact .unknown hname
  | unfold _ hname _ ih => exact .unfold hname ih
  | letIn _ ih => exact .letIn ih
  | ann _ ih => exact .ann ih
  | loc _ ih => exact .loc ih
  | beta _ _ _ ih₁ ih₂ => exact .beta ih₁ ih₂
  | stuck _ hlam ih => exact .stuck ih hlam

/-- Every normal form takes some number of steps. -/
theorem WeakHead.exists_weakHeadIn (ht : WeakHead table t w) :
    ∃ h, WeakHeadIn table .all h t w := by
  induction ht with
  | bound i => exact ⟨0, .bound i⟩
  | var x => exact ⟨0, .var x⟩
  | typ => exact ⟨0, .typ⟩
  | all s n a b => exact ⟨0, .all s n a b⟩
  | lam n er b => exact ⟨0, .lam n er b⟩
  | unknown hname => exact ⟨0, .unknown hname⟩
  | unfold hname _ ih =>
    obtain ⟨h, hw⟩ := ih
    exact ⟨_, .unfold trivial hname hw⟩
  | letIn _ ih =>
    obtain ⟨h, hw⟩ := ih
    exact ⟨_, .letIn hw⟩
  | ann _ ih =>
    obtain ⟨h, hw⟩ := ih
    exact ⟨h, .ann hw⟩
  | loc _ ih =>
    obtain ⟨h, hw⟩ := ih
    exact ⟨h, .loc hw⟩
  | beta _ _ ih₁ ih₂ =>
    obtain ⟨h₁, hf⟩ := ih₁
    obtain ⟨h₂, hw⟩ := ih₂
    exact ⟨_, .beta trivial hf hw⟩
  | stuck _ hlam ih =>
    obtain ⟨h, hg⟩ := ih
    exact ⟨_, .stuck hg hlam⟩

/-! ## Normal forms -/

/-- A normal form is its own normal form. -/
theorem WeakHead.idem (ht : WeakHead table t w) : WeakHead table w w := by
  induction ht with
  | bound | var | typ | all | lam => constructor
  | unknown hname => exact .unknown hname
  | stuck _ hlam ih => exact .stuck ih hlam
  | unfold _ _ ih | letIn _ ih | ann _ ih | loc _ ih | beta _ _ _ ih => exact ih

/-- Normal forms of closed terms are closed. -/
theorem WeakHead.isLocallyClosed (htable : table.IsLocallyClosed) (ht : WeakHead table t w)
    (hclosed : t.IsLocallyClosed) : w.IsLocallyClosed := by
  induction ht with
  | bound | var | typ | all | lam | unknown => exact hclosed
  | unfold hname _ ih => exact ih (htable.body hname)
  | letIn _ ih => exact ih (hclosed.2.instantiate_one hclosed.1)
  | ann _ ih => exact ih hclosed.1
  | loc _ ih => exact ih hclosed
  | beta _ _ ih₁ ih₂ =>
    have hb := ih₁ hclosed.1
    exact ih₂ (Term.ClosedAt.instantiate_one hb hclosed.2)
  | stuck _ _ ih => exact ⟨ih hclosed.1, hclosed.2⟩

/-! ## Substitution -/

/-- Reducing a term and going on after a substitution is reducing after the substitution. -/
theorem WeakHead.subst (hfree : table.IsVarFree) (hσ : Term.ClosedSubst σ)
    (ht : WeakHead table t w) (hw : WeakHead table (w.subst σ) w') :
    WeakHead table (t.subst σ) w' := by
  induction ht generalizing w' with
  | bound | var | typ | all | lam | unknown => exact hw
  | unfold hname _ ih =>
    have hbody := ih hw
    rw [Term.subst_of_freeIds_eq_nil (hfree.body hname)] at hbody
    exact .unfold hname hbody
  | letIn _ ih =>
    have hbody := ih hw
    rw [Term.subst_instantiate hσ] at hbody
    exact .letIn hbody
  | ann _ ih => exact .ann (ih hw)
  | loc _ ih => exact .loc (ih hw)
  | beta _ _ ih₁ ih₂ =>
    have hbody := ih₂ hw
    rw [Term.subst_instantiate hσ] at hbody
    exact .beta (ih₁ (.lam _ _ _)) hbody
  | stuck _ _ ih =>
    -- after the substitution, the head may have become a function
    cases hw with
    | beta hg hbody => exact .beta (ih hg) hbody
    | stuck hg hlam => exact .stuck (ih hg) hlam

/-- The normal form after a substitution comes from that before it, in no more steps. -/
theorem WeakHeadIn.of_subst (hfree : table.IsVarFree) (hσ : Term.ClosedSubst σ)
    (ht : WeakHeadIn table steps h (t.subst σ) w) :
    ∃ v, (∃ i ≤ h, WeakHeadIn table steps i t v) ∧
      ∃ j ≤ h, WeakHeadIn table steps j (v.subst σ) w := by
  -- on the steps, and below that on the term, as annotations and locations take none
  induction h using Nat.strongRecOn generalizing t w with
  | ind h ih =>
  induction t generalizing w with
  | bound i => exact ⟨_, ⟨0, Nat.zero_le h, .bound i⟩, h, Nat.le_refl h, ht⟩
  | var x => exact ⟨_, ⟨0, Nat.zero_le h, .var x⟩, h, Nat.le_refl h, ht⟩
  | typ => exact ⟨_, ⟨0, Nat.zero_le h, .typ⟩, h, Nat.le_refl h, ht⟩
  | all s n a b => exact ⟨_, ⟨0, Nat.zero_le h, .all s n a b⟩, h, Nat.le_refl h, ht⟩
  | lam n er b => exact ⟨_, ⟨0, Nat.zero_le h, .lam n er b⟩, h, Nat.le_refl h, ht⟩
  | ann _ _ _ ihe _ =>
    cases ht with
    | ann ht =>
      obtain ⟨v, ⟨i, hi, hv⟩, hrest⟩ := ihe ht
      exact ⟨v, ⟨i, hi, .ann hv⟩, hrest⟩
  | loc _ _ ihe =>
    cases ht with
    | loc ht =>
      obtain ⟨v, ⟨i, hi, hv⟩, hrest⟩ := ihe ht
      exact ⟨v, ⟨i, hi, .loc hv⟩, hrest⟩
  | ref name =>
    cases ht with
    | unknown hname =>
      exact ⟨_, ⟨0, Nat.le_refl 0, .unknown hname⟩, 0, Nat.le_refl 0, .unknown hname⟩
    | @unfold j _ d _ hunfolds hname hbody =>
      rw [← Term.subst_of_freeIds_eq_nil (hfree.body hname) σ] at hbody
      obtain ⟨v, ⟨i, hi, hv⟩, k, hk, hw⟩ := ih j (Nat.lt_succ_self j) hbody
      exact ⟨v, ⟨i + 1, Nat.succ_le_succ hi, .unfold hunfolds hname hv⟩, k, Nat.le_succ_of_le hk,
        hw⟩
  | letIn n dup e b =>
    cases ht with
    | @letIn j _ _ _ _ _ hbody =>
      rw [← List.map_singleton, ← Term.subst_instantiate hσ] at hbody
      obtain ⟨v, ⟨i, hi, hv⟩, k, hk, hw⟩ := ih j (Nat.lt_succ_self j) hbody
      exact ⟨v, ⟨i + 1, Nat.succ_le_succ hi, .letIn hv⟩, k, Nat.le_succ_of_le hk, hw⟩
  | app f a er =>
    -- the function is found first; if it is one before the substitution, the body goes on
    cases ht with
    | @beta j j' _ _ b _ n _ er' hcontracts hf hbody =>
      obtain ⟨v, ⟨i, hi, hv⟩, k, hk, hg⟩ := ih j (by omega) hf
      cases hlam : v.isLam with
      | true =>
        cases v with
        | lam n' er'' b' =>
          cases hg
          rw [← List.map_singleton, ← Term.subst_instantiate hσ] at hbody
          obtain ⟨v', ⟨i', hi', hv'⟩, k', hk', hw⟩ := ih j' (by omega) hbody
          exact ⟨v', ⟨i + i' + 1, by omega, .beta hcontracts hv hv'⟩, k', by omega, hw⟩
        | _ => cases hlam
      | false =>
        -- the application is stuck before the substitution, and contracted after it
        exact ⟨_, ⟨i + 1, by omega, .stuck hv hlam⟩, k + j' + 1, by omega,
          .beta hcontracts hg hbody⟩
    | @stuck j _ _ g _ hf hlam =>
      obtain ⟨v, ⟨i, hi, hv⟩, k, hk, hg⟩ := ih j (by omega) hf
      have hvlam : v.isLam = false := by
        cases v with
        | lam n' er'' b' =>
          cases hg
          cases hlam
        | _ => rfl
      exact ⟨_, ⟨i + 1, by omega, .stuck hv hvlam⟩, k + 1, by omega, .stuck hg hlam⟩

/-! ## Annotations and locations -/

/-- Whether a term is an annotation or a location. -/
def Term.isWrapped : Term → Bool
  | .ann .. | .loc .. => true
  | _ => false

theorem WeakHeadIn.isWrapped (ht : WeakHeadIn table steps h t w) : w.isWrapped = false := by
  induction ht with
  | bound | var | typ | all | lam | unknown | stuck => rfl
  | unfold _ _ _ ih | letIn _ ih | ann _ ih | loc _ ih | beta _ _ _ _ ih => exact ih

/-- What is left of a term without the annotations and locations at its head reduces as the term
does. -/
theorem Term.exists_unwrapped {t u : Term} (hu : u.bare = t.bare) :
    ∃ v : Term, v.isWrapped = false ∧ v.bare = t.bare ∧ ∀ table steps h w,
      WeakHeadIn table steps h v w → WeakHeadIn table steps h u w := by
  induction u with
  | ann _ _ _ ih _ =>
    obtain ⟨v, hv, hbare, hback⟩ := ih hu
    exact ⟨v, hv, hbare, fun table steps h w hw => .ann (hback table steps h w hw)⟩
  | loc _ _ ih =>
    obtain ⟨v, hv, hbare, hback⟩ := ih hu
    exact ⟨v, hv, hbare, fun table steps h w hw => .loc (hback table steps h w hw)⟩
  | _ => exact ⟨_, rfl, hu, fun _ _ _ _ hw => hw⟩

/-- A term without annotations and locations at its head is a function if it is one without any. -/
theorem Term.isLam_bare {t : Term} (ht : t.isWrapped = false) : t.bare.isLam = t.isLam := by
  cases t with
  | ann | loc => cases ht
  | _ => rfl

/-! ### Terms by their bare form -/

section Bare

variable {v f a b e : Term} {s n : BinderName} {er dup : Bool}

/-- Whether a term has no parts. -/
def Term.isLeaf : Term → Bool
  | .bound _ | .var _ | .ref _ | .typ => true
  | _ => false

theorem Term.eq_of_bare (hv : v.isWrapped = false) (hw : w.isLeaf = true) (h : v.bare = w) :
    v = w := by
  cases v with
  | ann | loc => cases hv
  | bound | var | ref | typ => exact h
  | _ =>
    rw [← h] at hw
    cases hw

theorem Term.exists_all_of_bare (hv : v.isWrapped = false) (h : v.bare = .all s n a b) :
    ∃ a' b', v = .all s n a' b' ∧ a'.bare = a ∧ b'.bare = b := by
  cases v with
  | all _ _ a' b' =>
    cases h
    exact ⟨a', b', rfl, rfl, rfl⟩
  | ann | loc => cases hv
  | _ => cases h

theorem Term.exists_lam_of_bare (hv : v.isWrapped = false) (h : v.bare = .lam n er b) :
    ∃ b', v = .lam n er b' ∧ b'.bare = b := by
  cases v with
  | lam _ _ b' =>
    cases h
    exact ⟨b', rfl, rfl⟩
  | ann | loc => cases hv
  | _ => cases h

theorem Term.exists_app_of_bare (hv : v.isWrapped = false) (h : v.bare = .app f a er) :
    ∃ f' a', v = .app f' a' er ∧ f'.bare = f ∧ a'.bare = a := by
  cases v with
  | app f' a' _ =>
    cases h
    exact ⟨f', a', rfl, rfl, rfl⟩
  | ann | loc => cases hv
  | _ => cases h

theorem Term.exists_letIn_of_bare (hv : v.isWrapped = false) (h : v.bare = .letIn n dup e b) :
    ∃ e' b', v = .letIn n dup e' b' ∧ e'.bare = e ∧ b'.bare = b := by
  cases v with
  | letIn _ _ e' b' =>
    cases h
    exact ⟨e', b', rfl, rfl, rfl⟩
  | ann | loc => cases hv
  | _ => cases h

end Bare

/-- Terms that differ in annotations and locations only reduce in the same way. -/
theorem WeakHeadIn.of_bare_eq (ht : WeakHeadIn table steps h t w) (hu : u.bare = t.bare) :
    ∃ w', WeakHeadIn table steps h u w' ∧ w'.bare = w.bare := by
  -- on the reduction; what the other term has at its head is taken off in each case
  induction ht generalizing u with
  | ann _ ih => exact ih hu
  | loc _ ih => exact ih hu
  | bound i =>
    obtain ⟨v, hv, hbare, hback⟩ := Term.exists_unwrapped hu
    cases Term.eq_of_bare hv rfl hbare
    exact ⟨_, hback _ _ _ _ (.bound i), rfl⟩
  | var x =>
    obtain ⟨v, hv, hbare, hback⟩ := Term.exists_unwrapped hu
    cases Term.eq_of_bare hv rfl hbare
    exact ⟨_, hback _ _ _ _ (.var x), rfl⟩
  | typ =>
    obtain ⟨v, hv, hbare, hback⟩ := Term.exists_unwrapped hu
    cases Term.eq_of_bare hv rfl hbare
    exact ⟨_, hback _ _ _ _ .typ, rfl⟩
  | all s n a b =>
    obtain ⟨v, hv, hbare, hback⟩ := Term.exists_unwrapped hu
    obtain ⟨a', b', rfl, -, -⟩ := Term.exists_all_of_bare hv hbare
    exact ⟨_, hback _ _ _ _ (.all ..), hbare⟩
  | lam n er b =>
    obtain ⟨v, hv, hbare, hback⟩ := Term.exists_unwrapped hu
    obtain ⟨b', rfl, -⟩ := Term.exists_lam_of_bare hv hbare
    exact ⟨_, hback _ _ _ _ (.lam ..), hbare⟩
  | unknown hname =>
    obtain ⟨v, hv, hbare, hback⟩ := Term.exists_unwrapped hu
    cases Term.eq_of_bare hv rfl hbare
    exact ⟨_, hback _ _ _ _ (.unknown hname), rfl⟩
  | unfold hunfolds hname hbody =>
    obtain ⟨v, hv, hbare, hback⟩ := Term.exists_unwrapped hu
    cases Term.eq_of_bare hv rfl hbare
    exact ⟨_, hback _ _ _ _ (.unfold hunfolds hname hbody), rfl⟩
  | letIn _ ih =>
    obtain ⟨v, hv, hbare, hback⟩ := Term.exists_unwrapped hu
    obtain ⟨e', b', rfl, he, hb⟩ := Term.exists_letIn_of_bare hv hbare
    obtain ⟨w', hw, hbare'⟩ := ih (Term.bare_instantiate_one hb he)
    exact ⟨w', hback _ _ _ _ (.letIn hw), hbare'⟩
  | beta hcontracts hf _ ihf ihb =>
    obtain ⟨v, hv, hbare, hback⟩ := Term.exists_unwrapped hu
    obtain ⟨f', a', rfl, hbf, ha⟩ := Term.exists_app_of_bare hv hbare
    -- the head that is found is a function with the same body
    obtain ⟨g, hg, hgbare⟩ := ihf hbf
    obtain ⟨b', rfl, hb⟩ := Term.exists_lam_of_bare hg.isWrapped hgbare
    obtain ⟨w', hw, hbare'⟩ := ihb (Term.bare_instantiate_one hb ha)
    exact ⟨w', hback _ _ _ _ (.beta hcontracts hg hw), hbare'⟩
  | stuck hf hlam ihf =>
    obtain ⟨v, hv, hbare, hback⟩ := Term.exists_unwrapped hu
    obtain ⟨f', a', rfl, hbf, ha⟩ := Term.exists_app_of_bare hv hbare
    -- the head that is found is no function either
    obtain ⟨g, hg, hgbare⟩ := ihf hbf
    have hglam := Term.isLam_bare hg.isWrapped
    rw [hgbare, Term.isLam_bare hf.isWrapped, hlam] at hglam
    exact ⟨_, hback _ _ _ _ (.stuck hg hglam.symm), by simp only [Term.bare, hgbare, ha]⟩

end

end SelfTypes
