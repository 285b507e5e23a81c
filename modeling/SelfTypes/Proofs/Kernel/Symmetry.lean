import Mathlib.Data.List.ProdSigma
import SelfTypes.Proofs.Kernel.HeadCopy

/-!
# Equality is symmetric

A comparison and the one with the sides exchanged do the same things, but each pair of reductions in
the other order, and with the names of the other side for the variables that they issue. The
variables of the one run stand for those of the other with the same identity, `Mirrors`, and terms
are copies of each other under that relation. Whether two terms are equal as they stand, or a pair
is assumed, is then the same on both sides although names differ. Where one reduction comes after
the other, what counts is the cost of both together.

So where one run answers, the other gives the same answer at the same cost, and where a limit stops
one, it stops the other. Main statement: `equal_comm`.
-/

namespace SelfTypes.Kernel

variable {α : Type} {table : Table} {ρ ρ' : VarRelation} {k k' k₁ k₂ t : Kernel}

/-! ## States -/

/-- The kernels are about to issue the same variables and have the same budget. The relation pairs
variables of one identity that was issued before, each with one other. -/
structure Mirrors (ρ : VarRelation) (k k' : Kernel) : Prop where
  biUnique : Relator.BiUnique ρ
  id_eq : ∀ {x x'}, ρ x x' → x.id = x'.id
  issued : ∀ {x x'}, ρ x x' → ¬ k.supply.CanIssue x.id
  supply : k'.supply = k.supply
  fuel : k'.fuel = k.fuel

/-- The relation with one more pair. -/
def withPair (ρ : VarRelation) (x x' : Var) : VarRelation :=
  fun y y' => ρ y y' ∨ y = x ∧ y' = x'

theorem biUnique_withPair {x x' : Var} (hρ : Relator.BiUnique ρ) (hx : ∀ y', ¬ ρ x y')
    (hx' : ∀ y, ¬ ρ y x') : Relator.BiUnique (withPair ρ x x') := by
  refine ⟨?_, ?_⟩
  -- the new pair has no variable in common with the old ones
  · rintro y z y' (hy | ⟨rfl, rfl⟩) (hz | ⟨rfl, hz⟩)
    · exact hρ.1 hy hz
    · exact absurd (hz ▸ hy) (hx' _)
    · exact absurd hz (hx' _)
    · rfl
  · rintro y y' z' (hy | ⟨rfl, rfl⟩) (hz | ⟨hz, rfl⟩)
    · exact hρ.2 hy hz
    · exact absurd (hz ▸ hy) (hx _)
    · exact absurd hz (hx _)
    · rfl

namespace Mirrors

theorem mono (h : Mirrors ρ' k k') (hsub : Subrelation ρ ρ') : Mirrors ρ k k' where
  biUnique := ⟨fun _ _ _ hx hy => h.biUnique.1 (hsub hx) (hsub hy),
    fun _ _ _ hx hy => h.biUnique.2 (hsub hx) (hsub hy)⟩
  id_eq hx := h.id_eq (hsub hx)
  issued hx := h.issued (hsub hx)
  supply := h.supply
  fuel := h.fuel

theorem note (h : Mirrors ρ k k') {e : Event} {u : Unit} (hk : note e k = .ok u k₁) (e' : Event) :
    ∃ k₁', Kernel.note e' k' = .ok () k₁' ∧ Mirrors ρ k₁ k₁' := by
  cases hk
  exact ⟨_, rfl, h.biUnique, h.id_eq, h.issued, h.supply, h.fuel⟩

/-- The variables that are issued next have the same identity, and names of their own. -/
theorem fresh (h : Mirrors ρ k k') {n : BinderName} {x : Var} (hk : fresh n k = .ok x k₁)
    (n' : BinderName) :
    ∃ x' k₁', Kernel.fresh n' k' = .ok x' k₁' ∧ Mirrors (withPair ρ x x') k₁ k₁' := by
  have hnew : k.supply.CanIssue x.id := canIssue_of_fresh hk
  have hissued := avoids_of_fresh hk
  have hfollows := (progresses_fresh n).of_ok hk
  cases hk
  refine ⟨⟨k.supply.issue.1, n'⟩, { k' with supply := k.supply.issue.2 }, ?_, ?_, ?_, ?_, rfl,
    h.fuel⟩
  · simp only [Kernel.fresh, h.supply]
  -- the pairs are about variables that were issued before, and the new one was not
  · refine biUnique_withPair h.biUnique (fun y' hy => h.issued hy hnew) fun y hy => ?_
    have hid := h.id_eq hy
    exact h.issued hy (hid ▸ hnew)
  · rintro y y' (hy | ⟨rfl, rfl⟩)
    · exact h.id_eq hy
    · rfl
  · rintro y y' (hy | ⟨rfl, rfl⟩)
    · exact fun hissue => h.issued hy (hfollows.canIssue hissue)
    · exact hissued _ (List.mem_singleton.2 rfl)

end Mirrors

/-! ## Answers -/

/-- The family returns the value, in a state that mirrors the given one. -/
def ReturnsMirrored (ρ : VarRelation) (run : Nat → KernelM α) (k' : Kernel) (a : α) (t : Kernel) :
    Prop :=
  ∃ t', Returns run k' (.ok a t') ∧ Mirrors ρ t t'

namespace ReturnsMirrored

variable {β : Type} {run : Nat → KernelM α} {a : α} {f : Nat → α → KernelM β}
  {b c : β}

theorem mono (h : ReturnsMirrored ρ' run k' a t) (hsub : Subrelation ρ ρ') :
    ReturnsMirrored ρ run k' a t := by
  obtain ⟨t', ht', hmirrors⟩ := h
  exact ⟨t', ht', hmirrors.mono hsub⟩

theorem of_succ (h : ReturnsMirrored ρ (fun d => run (d + 1)) k' a t) :
    ReturnsMirrored ρ run k' a t := by
  obtain ⟨t', ht', hmirrors⟩ := h
  exact ⟨t', ht'.of_succ, hmirrors⟩

theorem pure (hk : Mirrors ρ k k') (h : (Pure.pure b : KernelM β) k = .ok c t) :
    ReturnsMirrored ρ (fun _ => (Pure.pure b : KernelM β)) k' c t := by
  cases h
  exact ⟨k', returns_const rfl (isAnswer_ok _ _), hk⟩

theorem of_returns_bind (h : Returns run k' (.ok a k₁))
    (hnext : ReturnsMirrored ρ (fun d => f d a) k₁ b t) :
    ReturnsMirrored ρ (fun d => run d >>= f d) k' b t := by
  obtain ⟨t', ht', hmirrors⟩ := hnext
  exact ⟨t', h.bind ht', hmirrors⟩

theorem bind (h : ReturnsMirrored ρ run k' a k₁)
    (hnext : ∀ k₁', Mirrors ρ k₁ k₁' → ReturnsMirrored ρ (fun d => f d a) k₁' b t) :
    ReturnsMirrored ρ (fun d => run d >>= f d) k' b t := by
  obtain ⟨k₁', h, hk₁⟩ := h
  exact of_returns_bind h (hnext k₁' hk₁)

theorem fresh_bind {f : Nat → Var → KernelM β} {n n' : BinderName} {x : Var} (hk : Mirrors ρ k k')
    (hx : fresh n k = .ok x k₁)
    (hnext : ∀ x' k₁', Mirrors (withPair ρ x x') k₁ k₁' →
      ReturnsMirrored (withPair ρ x x') (fun d => f d x') k₁' b t) :
    ReturnsMirrored ρ (fun d => fresh n' >>= f d) k' b t := by
  obtain ⟨x', k₁', hx', hk₁⟩ := hk.fresh hx n'
  have hrest := (hnext x' k₁' hk₁).mono (ρ := ρ) fun hy => .inl hy
  exact of_returns_bind (returns_const hx' (isAnswer_ok _ _)) hrest

end ReturnsMirrored

/-! ## Comparison -/

section

variable {assumed assumed' : List (Term × Term)} {a a' b b' v v' w w' : Term} {depth : Nat}
  {r : Bool}

/-- Terms are equal where their copies are, with the sides exchanged. -/
theorem Mirrors.eq_iff (hk : Mirrors ρ k k') (ha : a.Copy {} ρ a') (hb : b.Copy {} ρ b') :
    a = b ↔ b' = a' :=
  (Relator.rel_eq (Term.Copy.biUnique hk.biUnique id) ha hb).trans eq_comm

/-- Two reductions whose cost together is left return one after the other, and issue no variable. -/
theorem returns_both {m n : Nat} (hv : HeadPath table a m v) (hnormal : HeadNormal table v)
    (hw : HeadPath table b n w) (hnormal' : HeadNormal table w)
    (haffords : k.fuel.Affords (m + n)) :
    ∃ k₁ k₂, Returns (fun d => reduce table d a) k (.ok v k₁) ∧
      Returns (fun d => reduce table d b) k₁ (.ok w k₂) ∧ Spends k (m + n) k₂ ∧
      k₂.supply = k.supply := by
  obtain ⟨k₁, hfirst, hspends⟩ :=
    returns_of_headPath hv hnormal (haffords.mono (Nat.le_add_right m n))
  obtain ⟨k₂, hsecond, hspends'⟩ :=
    returns_of_headPath hw hnormal' (hspends.affords_iff.2 haffords)
  have hsupply := hfirst.progresses fun d => supply_reduce table d a
  have hsupply' := hsecond.progresses fun d => supply_reduce table d b
  exact ⟨k₁, k₂, hfirst, hsecond, hspends.trans hspends', hsupply'.trans hsupply⟩

/-- Two reductions, one after the other, cost the same in the other order. -/
theorem exists_exchanged (hfree : table.IsVarFree) (hk : Mirrors ρ k k') (ha : a.Copy {} ρ a')
    (hb : b.Copy {} ρ b') (hv : reduce table depth a k = .ok v k₁)
    (hw : reduce table depth b k₁ = .ok w k₂) :
    ∃ v' w' k₁' k₂', Returns (fun d => reduce table d b') k' (.ok w' k₁') ∧
      Returns (fun d => reduce table d a') k₁' (.ok v' k₂') ∧ Mirrors ρ k₂ k₂' ∧
      v.CopyNode {} ρ v' ∧ w.CopyNode {} ρ w' := by
  have hbodies := hfree.copiedBodies (L := {}) (fun _ => trivial) ρ
  have hfollows := ((progresses_reduce table depth a).of_ok hv).trans
    ((progresses_reduce table depth b).of_ok hw)
  have hsupply := ((supply_reduce table depth b).of_ok hw).trans
    ((supply_reduce table depth a).of_ok hv)
  have halong := endsAlong_reduce table depth a k
  have halong' := endsAlong_reduce table depth b k₁
  rw [hv] at halong
  rw [hw] at halong'
  cases halong with
  | @ok n _ _ hpath hnormal hspends =>
  cases halong' with
  | @ok m _ _ hpath' hnormal' hspends' =>
  have htotal := hspends.trans hspends'
  -- the two sides are reduced in the other order, so their costs are added in the other order
  have haffords : k'.fuel.Affords (m + n) := by
    rw [hk.fuel, Nat.add_comm]
    exact htotal.affords
  obtain ⟨v', hpathA, hnormalA, hnode⟩ := hpath.copy_normal hbodies hnormal ha
  obtain ⟨w', hpathB, hnormalB, hnode'⟩ := hpath'.copy_normal hbodies hnormal' hb
  obtain ⟨k₁', k₂', hfirst, hsecond, hspendsBoth, hsupplyBoth⟩ :=
    returns_both hpathB hnormalB hpathA hnormalA haffords
  -- both supplies are where they were, and both have spent the two costs
  refine ⟨v', w', k₁', k₂', hfirst, hsecond, ⟨hk.biUnique, hk.id_eq, ?_, ?_, ?_⟩, hnode, hnode'⟩
  · exact fun hx hissue => hk.issued hx (hfollows.canIssue hissue)
  · rw [hsupplyBoth, hk.supply, hsupply]
  · rw [hspendsBoth.fuel, htotal.fuel, hk.fuel, Nat.add_comm m n]

/-- Normal forms are compared in the same way with the sides exchanged, if their parts are. -/
theorem mirrored_congruent {compare : Term → Term → KernelM Bool}
    {compare' : Nat → Term → Term → KernelM Bool}
    (hcompare : ∀ {ρ' a a' b b' k k' r t}, Subrelation ρ ρ' → Mirrors ρ' k k' →
      a.Copy {} ρ' a' → b.Copy {} ρ' b' → compare a b k = .ok r t →
      ReturnsMirrored ρ' (fun d => compare' d b' a') k' r t)
    (hk : Mirrors ρ k k') (hv : v.CopyNode {} ρ v') (hw : w.CopyNode {} ρ w')
    (h : congruent compare v w k = .ok r t) :
    ReturnsMirrored ρ (fun d => congruent (compare' d) w' v') k' r t := by
  -- terms with different heads are told apart without an action
  cases hv <;> cases hw <;> try exact .pure hk h
  case bound.bound i j =>
    simp only [congruent, Bool.beq_comm (a := j)]
    exact .pure hk h
  case var.var x x' hx y y' hy =>
    simp only [congruent, ← hk.id_eq hx, ← hk.id_eq hy, Bool.beq_comm (a := y.id)]
    exact .pure hk h
  case ref.ref m _ n _ =>
    simp only [congruent, Bool.beq_comm (a := n)]
    exact .pure hk h
  case all.all s n c c' d d' hc hd s₂ n₂ e e' f f' he hf =>
    obtain ⟨same, k₁, hsame, h⟩ := EStateM.ok_of_bind_ok h
    refine (hcompare id hk hc he hsame).bind fun k₁' hk₁ => ?_
    cases same with
    | false => exact .pure hk₁ h
    | true =>
      obtain ⟨x, k₂, hx, h⟩ := EStateM.ok_of_bind_ok h
      obtain ⟨y, k₃, hy, h⟩ := EStateM.ok_of_bind_ok h
      refine .fresh_bind hk₁ hx fun x' k₂' hk₂ => .fresh_bind hk₂ hy fun y' k₃' hk₃ => ?_
      have hsub : Subrelation ρ (withPair (withPair ρ x x') y y') := fun h => .inl (.inl h)
      have hself : (Term.var x).Copy {} (withPair (withPair ρ x x') y y') (.var x') :=
        .var (.inl (.inr ⟨rfl, rfl⟩))
      have harg : (Term.var y).Copy {} (withPair (withPair ρ x x') y y') (.var y') :=
        .var (.inr ⟨rfl, rfl⟩)
      exact hcompare hsub hk₃ ((hd.mono hsub).instantiate_two hself harg)
        ((hf.mono hsub).instantiate_two hself harg) h
  case lam.lam n er c c' hc n₂ er₂ d d' hd =>
    simp only [congruent] at h ⊢
    by_cases her : er = er₂
    · rw [if_pos her] at h
      simp only [if_pos her.symm]
      obtain ⟨x, k₁, hx, h⟩ := EStateM.ok_of_bind_ok h
      refine .fresh_bind hk hx fun x' k₁' hk₁ => ?_
      have hsub : Subrelation ρ (withPair ρ x x') := fun h => .inl h
      have harg : (Term.var x).Copy {} (withPair ρ x x') (.var x') := .var (.inr ⟨rfl, rfl⟩)
      exact hcompare hsub hk₁ ((hc.mono hsub).instantiate_one harg)
        ((hd.mono hsub).instantiate_one harg) h
    · rw [if_neg her] at h
      simp only [if_neg (Ne.symm her)]
      exact .pure hk h
  case app.app f f' c c' er hf hc g g' d d' er₂ hg hd =>
    simp only [congruent] at h ⊢
    by_cases her : er = er₂
    · rw [if_pos her] at h
      simp only [if_pos her.symm]
      obtain ⟨same, k₁, hsame, h⟩ := EStateM.ok_of_bind_ok h
      refine (hcompare id hk hf hg hsame).bind fun k₁' hk₁ => ?_
      cases same with
      | false => exact .pure hk₁ h
      | true => exact hcompare id hk₁ hc hd h
    · rw [if_neg her] at h
      simp only [if_neg (Ne.symm her)]
      exact .pure hk h

/-- A comparison that answers gives the same answer, at the same cost, with the sides exchanged. -/
theorem mirrored_equalUnder (hfree : table.IsVarFree) (depth : Nat) (hk : Mirrors ρ k k')
    (hassumed : CopiedPairs {} ρ assumed (assumed'.map Prod.swap)) (ha : a.Copy {} ρ a')
    (hb : b.Copy {} ρ b') (h : equalUnder table depth assumed a b k = .ok r t) :
    ReturnsMirrored ρ (fun d => equalUnder table d assumed' b' a') k' r t := by
  induction depth generalizing ρ assumed assumed' a a' b b' k k' r t with
  | zero => cases h
  | succ depth ih =>
    refine .of_succ ?_
    have heq := hk.eq_iff ha hb
    simp only [equalUnder] at h ⊢
    by_cases hab : a = b
    · rw [if_pos hab] at h
      simp only [if_pos (heq.1 hab)]
      exact .pure hk h
    · rw [if_neg hab] at h
      simp only [if_neg (heq.not.1 hab)]
      obtain ⟨v, k₁, hv, h⟩ := EStateM.ok_of_bind_ok h
      obtain ⟨w, k₂, hw, h⟩ := EStateM.ok_of_bind_ok h
      obtain ⟨v', w', k₁', k₂', hw', hv', hk₂, hnode, hnode'⟩ :=
        exists_exchanged hfree hk ha hb hv hw
      refine .of_returns_bind hw' (.of_returns_bind hv' ?_)
      have hknown : v = w ∨ (v, w) ∈ assumed ↔ w' = v' ∨ (w', v') ∈ assumed' :=
        or_congr (hk₂.eq_iff hnode.copy hnode'.copy)
          ((hassumed.mem_iff hk.biUnique id hnode.copy hnode'.copy).trans
            (List.mem_map_swap w' v' assumed'))
      by_cases hvw : v = w ∨ (v, w) ∈ assumed
      · rw [if_pos hvw] at h
        simp only [if_pos (hknown.1 hvw)]
        exact .pure hk₂ h
      · rw [if_neg hvw] at h
        simp only [if_neg (hknown.not.1 hvw)]
        obtain ⟨_, k₃, hnote, h⟩ := EStateM.ok_of_bind_ok h
        obtain ⟨k₃', hnote', hk₃⟩ := hk₂.note hnote (.comparison w' v')
        refine .of_returns_bind (returns_const hnote' (isAnswer_ok _ _)) ?_
        refine mirrored_congruent (fun hsub hk ha hb h => ih hk ?_ ha hb h) hk₃ hnode hnode' h
        exact .cons ⟨hnode.copy.mono hsub, hnode'.copy.mono hsub⟩ (hassumed.mono hsub)

end

/-! ## Exchanged sides -/

section

variable {a b : Term}

/-- The variables that are not to be issued stand for themselves. -/
theorem mirrors_self (k : Kernel) :
    Mirrors (fun x y => x = y ∧ ¬ k.supply.CanIssue x.id) k k where
  biUnique := ⟨fun _ _ _ hx hy => hx.1.trans hy.1.symm, fun _ _ _ hx hy => hx.1.symm.trans hy.1⟩
  id_eq hx := congrArg Var.id hx.1
  issued hx := hx.2
  supply := rfl
  fuel := rfl

theorem equal_comm_of_ok (hfree : table.IsVarFree) (ha : k.Avoids a) (hb : k.Avoids b) {r : Bool}
    (h : Returns (fun d => equal table d a b) k (.ok r t)) :
    ∃ t', Returns (fun d => equal table d b a) k (.ok r t') ∧ t'.fuel = t.fuel := by
  obtain ⟨depth, h⟩ := h.exists_depth
  have hself : ∀ {u : Term}, k.Avoids u →
      u.Copy {} (fun x y => x = y ∧ ¬ k.supply.CanIssue x.id) u := fun hu =>
    .refl (fun x hx => ⟨rfl, hu x.id hx⟩) fun _ _ => trivial
  -- nothing is assumed on either side
  have hassumed : CopiedPairs {} (fun x y => x = y ∧ ¬ k.supply.CanIssue x.id) []
      (([] : List (Term × Term)).map Prod.swap) := .nil
  obtain ⟨t', ht', hmirrors⟩ :=
    mirrored_equalUnder hfree depth (mirrors_self k) hassumed (hself ha) (hself hb) h
  exact ⟨t', ht', hmirrors.fuel⟩

/-- A comparison that ends does so in the same way, with the same budget left, with the sides
exchanged. -/
theorem equal_comm_of_returns (hfree : table.IsVarFree) (ha : k.Avoids a) (hb : k.Avoids b)
    {r : EStateM.Result (Halt OutOfFuel) Kernel Bool}
    (h : Returns (fun d => equal table d a b) k r) :
    ∃ r', Returns (fun d => equal table d b a) k r' ∧ r.verdict = r'.verdict ∧
      r.state.fuel = r'.state.fuel := by
  cases r with
  | ok r t =>
    obtain ⟨t', ht', hfuel⟩ := equal_comm_of_ok hfree ha hb h
    exact ⟨_, ht', rfl, hfuel.symm⟩
  | error halt t =>
    cases halt with
    | unfinished => exact absurd rfl (h.1 t)
    | failed e =>
      obtain ⟨d, hd⟩ := h.exists_depth
      obtain ⟨hlimit, hfuel⟩ := (staysWithin_equal table d a b).fuel_of_failed hd
      obtain ⟨r', hr'⟩ := terminates_equal table hlimit b a
      cases r' with
      | ok r t' =>
        -- the other comparison would have answered, too
        obtain ⟨t'', ht'', -⟩ := equal_comm_of_ok hfree hb ha hr'
        cases h.unique ht''
      | error halt t' =>
        cases halt with
        | unfinished => exact absurd rfl (hr'.1 t')
        | failed e' =>
          obtain ⟨d', hd'⟩ := hr'.exists_depth
          obtain ⟨hlimit', hfuel'⟩ := (staysWithin_equal table d' b a).fuel_of_failed hd'
          rw [hlimit] at hlimit'
          cases e
          cases e'
          cases hlimit'
          exact ⟨_, hr', rfl, hfuel.trans hfuel'.symm⟩

/-- Equality is symmetric in its verdict and in its cost: two comparisons with the sides exchanged,
from the same state and under any budget, both go on for ever, or both end in the same way, be that
an answer or the lack of fuel, with the same number of steps spent. -/
theorem equal_comm (hfree : table.IsVarFree) (ha : k.Avoids a) (hb : k.Avoids b) :
    (¬ Terminates (fun d => equal table d a b) k ∧ ¬ Terminates (fun d => equal table d b a) k) ∨
    ∃ r r', Returns (fun d => equal table d a b) k r ∧ Returns (fun d => equal table d b a) k r' ∧
      r.verdict = r'.verdict ∧ r.state.spent = r'.state.spent := by
  by_cases h : Terminates (fun d => equal table d a b) k
  · obtain ⟨r, hr⟩ := h
    obtain ⟨r', hr', hverdict, hfuel⟩ := equal_comm_of_returns hfree ha hb hr
    exact .inr ⟨r, r', hr, hr', hverdict, congrArg Fuel.used hfuel⟩
  · refine .inl ⟨h, ?_⟩
    rintro ⟨r', hr'⟩
    obtain ⟨r, hr, -⟩ := equal_comm_of_returns hfree hb ha hr'
    exact h ⟨r, hr⟩

/-- Identity under a name. -/
def namedIdentity : Table :=
  .ofList [⟨"id", .typ, .lam "x" false (.bound 0)⟩]

/-- Identity is equal to its definition with another name for the parameter, in either order and at
the same cost. -/
theorem namedIdentity_equal_comm :
    ∃ t t', Returns (fun d => equal namedIdentity d (.ref "id") (.lam "y" false (.bound 0)))
        (.start ⟨0, 0⟩ (some 1)) (.ok true t) ∧
      Returns (fun d => equal namedIdentity d (.lam "y" false (.bound 0)) (.ref "id"))
        (.start ⟨0, 0⟩ (some 1)) (.ok true t') ∧ t.spent = t'.spent := by
  have hfree : namedIdentity.IsVarFree := by decide
  have ha : (Kernel.start ⟨0, 0⟩ (some 1)).Avoids (.ref "id") := fun id hid => by cases hid
  have hb : (Kernel.start ⟨0, 0⟩ (some 1)).Avoids (.lam "y" false (.bound 0)) :=
    fun id hid => by cases hid
  obtain ⟨t, h⟩ := (deepens_equal namedIdentity (.ref "id")
    (.lam "y" false (.bound 0))).returns_of_value? (.start ⟨0, 0⟩ (some 1)) true 5
    (by decide +kernel)
  rcases equal_comm hfree ha hb with ⟨hnot, -⟩ | ⟨r, r', hr, hr', hverdict, hspent⟩
  · exact absurd ⟨_, h⟩ hnot
  · cases h.unique hr
    cases r' with
    | ok r' t' =>
      cases hverdict
      exact ⟨t, t', h, hr', hspent⟩
    | error => cases hverdict

end

end SelfTypes.Kernel
