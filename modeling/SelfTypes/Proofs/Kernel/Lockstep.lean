import SelfTypes.Proofs.Kernel.Alike
import SelfTypes.Proofs.Term.Copy

/-!
# The kernel in lockstep

Two runs of the kernel are compared, on terms that are copies of each other under a strict likeness
and on tables with copies of the same definitions. A relation between runs says how the variables
stand for each other when the runs start, and how their values are related by the variables that do
so when they end. If sequencing and the actions of the kernel respect it (`Kernel.IsLockstep`), so
do reduction and comparison. Main statements: `IsLockstep.reduce` and `IsLockstep.equal`.
-/

namespace SelfTypes

/-- Relations between the runs of a monad: how variables stand for each other at the start, and how
values are related at the end. -/
abbrev RunRelation (m : Type → Type) :=
  ∀ α : Type, VarRelation → (VarRelation → α → α → Prop) → m α → m α → Prop

/-- The same events, about terms that `R` relates. -/
inductive Event.Related (R : Term → Term → Prop) : Event → Event → Prop where
  | unfolding (name : DefName) : Related R (.unfolding name) (.unfolding name)
  | comparison {a a' b b' : Term} :
      R a a' → R b b' → Related R (.comparison a b) (.comparison a' b')
  | inference {t t' : Term} : R t t' → Related R (.inference t) (.inference t')
  | checking {t t' : Term} : R t t' → Related R (.checking t) (.checking t')
  | definition (name : DefName) : Related R (.definition name) (.definition name)

namespace Kernel

/-- Pairs of terms that are copies of each other, in order. -/
abbrev CopiedPairs (L : Likeness) (ρ : VarRelation) :
    List (Term × Term) → List (Term × Term) → Prop :=
  List.Forall₂ fun p p' => p.1.Copy L ρ p'.1 ∧ p.2.Copy L ρ p'.2

namespace CopiedPairs

variable {L : Likeness} {ρ ρ' : VarRelation} {pairs pairs' : List (Term × Term)}

theorem mono (h : CopiedPairs L ρ pairs pairs') (hsub : Subrelation ρ ρ') :
    CopiedPairs L ρ' pairs pairs' :=
  List.Forall₂.imp (fun _ _ hp => ⟨hp.1.mono hsub, hp.2.mono hsub⟩) h

/-- A pair is in the one list if its copy is in the other. -/
theorem mem_iff (hρ : Relator.BiUnique ρ) (hL : ¬ L.loose) (h : CopiedPairs L ρ pairs pairs')
    {a a' b b' : Term} (ha : a.Copy L ρ a') (hb : b.Copy L ρ b') :
    (a, b) ∈ pairs ↔ (a', b') ∈ pairs' := by
  have hcopy := Term.Copy.biUnique hρ hL
  have hpairs : Relator.BiUnique fun p p' : Term × Term =>
      p.1.Copy L ρ p'.1 ∧ p.2.Copy L ρ p'.2 :=
    ⟨fun _ _ _ h h' => Prod.ext (hcopy.1 h.1 h'.1) (hcopy.1 h.2 h'.2),
      fun _ _ _ h h' => Prod.ext (hcopy.2 h.1 h'.1) (hcopy.2 h.2 h'.2)⟩
  exact List.rel_mem hpairs ⟨ha, hb⟩ h

end CopiedPairs

/-- A relation between runs on two tables that sequencing and the actions of the kernel respect. -/
structure IsLockstep (L : Likeness) (table table' : Table) (rel : RunRelation KernelM) : Prop where
  comparable : ∀ {α ρ Q} {x x' : KernelM α},
    (Comparable L table table' ρ → rel α ρ Q x x') → rel α ρ Q x x'
  pure : ∀ {α ρ Q} {a a' : α}, Q ρ a a' → rel α ρ Q (Pure.pure a) (Pure.pure a')
  bind : ∀ {α β ρ Q R} {x x' : KernelM α} {f f' : α → KernelM β}, rel α ρ Q x x' →
    (∀ ρ' a a', Subrelation ρ ρ' → Q ρ' a a' → rel β ρ' R (f a) (f' a')) →
    rel β ρ R (x >>= f) (x' >>= f')
  giveUp : ∀ {α ρ Q}, rel α ρ Q Kernel.giveUp Kernel.giveUp
  note : ∀ {ρ e e'}, Event.Related (Term.Copy L ρ) e e' →
    rel Unit ρ (fun _ _ _ => True) (Kernel.note e) (Kernel.note e')
  burn : ∀ {ρ}, rel Unit ρ (fun _ _ _ => True) Kernel.burn Kernel.burn
  fresh : ∀ {ρ} name, rel Var ρ (fun ρ' x x' => ρ' x x') (Kernel.fresh name) (Kernel.fresh name)

namespace IsLockstep

variable {L : Likeness} {table table' : Table} {rel : RunRelation KernelM} {ρ : VarRelation}
  {a a' b b' t t' : Term}

theorem reduce (C : IsLockstep L table table' rel) (hL : ¬ L.loose) (depth : Nat)
    (ht : t.Copy L ρ t') :
    rel Term ρ (fun ρ' => Term.CopyNode L ρ') (Kernel.reduce table depth t)
      (Kernel.reduce table' depth t') := by
  induction depth generalizing ρ t t' with
  | zero => exact C.giveUp
  | succ depth ih =>
    refine C.comparable fun hρ => ?_
    have hnode := ht.sameNode_of_strict hL
    cases ht with
    | bound | var | typ | all | lam =>
      -- a normal form is returned at once
      exact C.pure hnode
    -- an annotation or a location is passed by on both sides
    | ann he => exact ih he
    | loc he => exact ih he
    | locLeft hloose => exact absurd hloose hL
    | locRight hloose => exact absurd hloose hL
    | letIn he hb =>
      exact C.bind C.burn fun ρ₁ _ _ hsub _ =>
        ih ((hb.mono hsub).instantiate_one (he.mono hsub))
    | @ref name hname =>
      simp only [Kernel.reduce]
      -- the global is defined in both tables or in neither
      rcases none_or_some_of_rel (hρ.find? name hname) with ⟨hd, hd'⟩ | ⟨d, d', hd, hd', hcopy⟩
      · rw [hd, hd']
        exact C.pure hnode
      · rw [hd, hd']
        refine C.bind C.burn fun ρ₁ _ _ hsub _ => ?_
        refine C.bind (C.note (.unfolding name)) fun ρ₂ _ _ hsub₂ _ => ?_
        exact ih ((hcopy.body.mono hsub).mono hsub₂)
    | @app f f' a a' er hf ha =>
      refine C.bind (ih hf) fun ρ₁ head head' hsub hhead => ?_
      have hstuck : (Term.app head a er).CopyNode L ρ₁ (.app head' a' er) :=
        .app hhead.copy (ha.mono hsub)
      -- what comes next depends on the head alone
      cases hhead with
      | lam hb =>
        exact C.bind C.burn fun ρ₂ _ _ hsub₂ _ =>
          ih ((hb.mono hsub₂).instantiate_one ((ha.mono hsub).mono hsub₂))
      | _ => exact C.pure hstuck

/-- Two normal forms that start with the same nodes on both sides, given how parts are compared. -/
theorem congruent (C : IsLockstep L table table' rel)
    {compare compare' : Term → Term → KernelM Bool}
    (hcompare : ∀ {ρ' a a' b b'}, Subrelation ρ ρ' → a.Copy L ρ' a' → b.Copy L ρ' b' →
      rel Bool ρ' (fun _ r r' => r = r') (compare a b) (compare' a' b'))
    (ha : a.CopyNode L ρ a') (hb : b.CopyNode L ρ b') :
    rel Bool ρ (fun _ r r' => r = r') (Kernel.congruent compare a b)
      (Kernel.congruent compare' a' b') := by
  refine C.comparable fun hρ => ?_
  -- terms with different heads are told apart without an action
  cases ha <;> cases hb <;> try exact C.pure rfl
  case var.var x x' hx y y' hy =>
    refine C.pure ?_
    rw [Bool.eq_iff_iff, beq_iff_eq, beq_iff_eq]
    exact hρ.faithful.id_eq_iff hx hy
  case all.all s n c c' d d' ha hb _ _ e e' f f' he hf =>
    refine C.bind (hcompare id ha he) fun ρ₁ same same' hsub hsame => ?_
    cases hsame
    cases same with
    | false => exact C.pure rfl
    | true =>
      refine C.bind (C.fresh s) fun ρ₂ x x' hsub₂ hx =>
        C.bind (C.fresh n) fun ρ₃ y y' hsub₃ hy => ?_
      -- what holds before the two variables are issued holds after it
      have hsub' : Subrelation ρ ρ₃ := fun h => hsub₃ (hsub₂ (hsub h))
      exact hcompare hsub'
        ((hb.mono hsub').instantiate_two (.var (hsub₃ hx)) (.var hy))
        ((hf.mono hsub').instantiate_two (.var (hsub₃ hx)) (.var hy))
  case lam.lam n er c c' hb _ er' d d' hd =>
    simp only [Kernel.congruent]
    split
    · exact C.bind (C.fresh n) fun ρ₁ x x' hsub hx =>
        hcompare hsub ((hb.mono hsub).instantiate_one (.var hx))
          ((hd.mono hsub).instantiate_one (.var hx))
    · exact C.pure rfl
  case app.app f f' c c' er hf hc g g' d d' er' hg hd =>
    simp only [Kernel.congruent]
    split
    · refine C.bind (hcompare id hf hg) fun ρ₁ same same' hsub hsame => ?_
      cases hsame
      cases same with
      | false => exact C.pure rfl
      | true => exact hcompare hsub (hc.mono hsub) (hd.mono hsub)
    · exact C.pure rfl

theorem equalUnder (C : IsLockstep L table table' rel) (hL : ¬ L.loose) (depth : Nat)
    {assumed assumed' : List (Term × Term)} (hassumed : CopiedPairs L ρ assumed assumed')
    (ha : a.Copy L ρ a') (hb : b.Copy L ρ b') :
    rel Bool ρ (fun _ r r' => r = r') (Kernel.equalUnder table depth assumed a b)
      (Kernel.equalUnder table' depth assumed' a' b') := by
  induction depth generalizing ρ assumed assumed' a a' b b' with
  | zero => exact C.giveUp
  | succ depth ih =>
    refine C.comparable fun hρ => ?_
    -- equal terms have equal copies, so both sides take the shortcut or neither does
    simp only [Kernel.equalUnder, ha.eq_iff hρ.faithful hL hb]
    split
    · exact C.pure rfl
    · refine C.bind (C.reduce hL depth ha) fun ρ₁ v v' hsub hv => ?_
      refine C.bind (C.reduce hL depth (hb.mono hsub)) fun ρ₂ w w' hsub₂ hw => ?_
      refine C.comparable fun hρ₂ => ?_
      have hv₂ := hv.copy.mono hsub₂
      have hassumed₂ := (hassumed.mono hsub).mono hsub₂
      simp only [hv₂.eq_iff hρ₂.faithful hL hw.copy,
        hassumed₂.mem_iff hρ₂.faithful.biUnique hL hv₂ hw.copy]
      split
      · exact C.pure rfl
      · refine C.bind (C.note (.comparison hv₂ hw.copy)) fun ρ₃ _ _ hsub₃ _ => ?_
        refine C.congruent (fun hsub₄ ha hb => ih ?_ ha hb)
          ((hv₂.mono hsub₃).sameNode_of_strict hL) ((hw.copy.mono hsub₃).sameNode_of_strict hL)
        -- the pair that is compared is assumed on both sides from now on
        exact .cons ⟨(hv₂.mono hsub₃).mono hsub₄, (hw.copy.mono hsub₃).mono hsub₄⟩
          ((hassumed₂.mono hsub₃).mono hsub₄)

theorem equal (C : IsLockstep L table table' rel) (hL : ¬ L.loose) (depth : Nat)
    (ha : a.Copy L ρ a') (hb : b.Copy L ρ b') :
    rel Bool ρ (fun _ r r' => r = r') (Kernel.equal table depth a b)
      (Kernel.equal table' depth a' b') :=
  C.equalUnder hL depth .nil ha hb

end IsLockstep

end Kernel

/-! ## Variables that were issued together -/

/-- The variables are one of the pairs, and are displayed under the same name. -/
def Named (P : List (VarId × VarId)) : VarRelation :=
  fun x x' => Paired P x x' ∧ x.name = x'.name

theorem Named.mono {P P' : List (VarId × VarId)} (h : P ⊆ P') : Subrelation (Named P) (Named P') :=
  fun hx => ⟨h hx.1, hx.2⟩

theorem OneToOne.faithful {P : List (VarId × VarId)} (hP : OneToOne P) : Faithful (Named P) where
  id_eq_iff hx hy := hP.id_eq_iff hx.1 hy.1
  name_eq hx := hx.2

/-- In a table without free variables, all definitions are copies of themselves. -/
theorem Table.IsVarFree.comparable {table : Table} (hfree : table.IsVarFree) {L : Likeness}
    (hL : ∀ n, L.known n) {ρ : VarRelation} (hρ : Faithful ρ) : Comparable L table table ρ where
  faithful := hρ
  find? n _ := by
    cases hd : table.find? n with
    | none => exact .none
    | some d =>
      obtain ⟨hty, hbody⟩ := hfree d (List.mem_of_find?_eq_some hd)
      refine .some ⟨.refl ?_ fun m _ => hL m, .refl ?_ fun m _ => hL m⟩
      · simp [hty]
      · simp [hbody]

end SelfTypes
