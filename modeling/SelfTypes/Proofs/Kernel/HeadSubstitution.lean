import SelfTypes.Proofs.Kernel.HeadStep
import SelfTypes.Proofs.Term.Closing

/-!
# Steps at the head after a substitution

A substitution that leaves the bodies of the table alone takes each step at the head of a term to a
step of the same cost. The end of the steps need not stay one: a variable that nothing could be done
with may become a function that is applied.

Main statement: `reduce_commutes_subst`, by which the reduction after a substitution is the
reduction before it, continued after the substitution.
-/

namespace SelfTypes

section

variable {table : Table} {c n : Nat} {t u w : Term} {σ : Var → Term}

/-! ## Steps -/

theorem HeadStep.subst (hσ : Term.ClosedSubst σ)
    (hfix : ∀ d ∈ table.entries, d.body.subst σ = d.body) (h : HeadStep table t c u) :
    HeadStep table (t.subst σ) c (u.subst σ) := by
  induction h with
  | ann d e ty => exact .ann d (e.subst σ) (ty.subst σ)
  | loc s e => exact .loc s (e.subst σ)
  | @unfold name d hname =>
    -- a body of the table is not touched by the substitution
    rw [hfix d (List.mem_of_find?_eq_some hname)]
    exact .unfold hname
  | letIn n dup e b =>
    rw [Term.subst_instantiate hσ]
    exact .letIn n dup (e.subst σ) (b.subst σ)
  | beta n er er' a b =>
    rw [Term.subst_instantiate hσ]
    exact .beta n er er' (a.subst σ) (b.subst σ)
  | head a er _ ih => exact .head (a.subst σ) er ih

theorem HeadPath.subst (hσ : Term.ClosedSubst σ)
    (hfix : ∀ d ∈ table.entries, d.body.subst σ = d.body) (h : HeadPath table t n u) :
    HeadPath table (t.subst σ) n (u.subst σ) := by
  induction h with
  | refl t => exact .refl (t.subst σ)
  | step hstep _ ih => exact .step (hstep.subst hσ hfix) ih

/-! ## Reduction -/

namespace Kernel

variable {k k' s s' : Kernel} {v : Term}

/-- What a reduction without limit returns is the end of the steps of the term. -/
theorem headPath_of_returns {r : EStateM.Result (Halt OutOfFuel) Kernel Term}
    (hk : k.fuel.limit = none) (h : Returns (fun d => reduce table d t) k r) :
    ∃ n w k', r = .ok w k' ∧ HeadPath table t n w ∧ HeadNormal table w ∧
      k'.spent = k.spent + n := by
  cases endsAlong_of_returns h with
  | ok hpath hw hspends => exact ⟨_, _, _, rfl, hpath, hw, hspends.used⟩
  | failed _ hn _ => exact absurd (Fuel.affords_of_unlimited hk _) hn
  | unfinished => exact absurd rfl (h.1 _)

/-- Without a limit, a term that leads to another one at some cost is reduced as that one is, at so
much more cost. -/
theorem reduce_of_headPath (hpath : HeadPath table t n u) (hs : s.fuel.limit = none)
    (hs' : s'.fuel.limit = none) :
    (Terminates (fun d => reduce table d t) s ↔ Terminates (fun d => reduce table d u) s') ∧
    ∀ r, Returns (fun d => reduce table d u) s' r → ∃ v j s₁ s₁',
      r = .ok v s₁' ∧ s₁'.spent = s'.spent + j ∧
      Returns (fun d => reduce table d t) s (.ok v s₁) ∧ s₁.spent = s.spent + (n + j) := by
  have forth : ∀ r, Returns (fun d => reduce table d u) s' r → ∃ v j s₁ s₁',
      r = .ok v s₁' ∧ s₁'.spent = s'.spent + j ∧
      Returns (fun d => reduce table d t) s (.ok v s₁) ∧ s₁.spent = s.spent + (n + j) := by
    intro r hr
    obtain ⟨j, v, s₁', rfl, hrest, hv, hspent⟩ := headPath_of_returns hs' hr
    obtain ⟨s₁, hreturns, hspends⟩ :=
      returns_of_headPath (hpath.trans hrest) hv (Fuel.affords_of_unlimited hs _)
    exact ⟨v, j, s₁, s₁', rfl, hspent, hreturns, hspends.used⟩
  refine ⟨⟨?_, ?_⟩, forth⟩
  · rintro ⟨r, hr⟩
    -- the steps of the first term that are left are those of the second
    obtain ⟨m, v, -, -, hpath', hv, -⟩ := headPath_of_returns hs hr
    obtain ⟨j, hrest, -⟩ := hpath.exists_rest hpath' hv
    exact terminates_of_headPath hrest (.inl hv)
  · rintro ⟨r, hr⟩
    obtain ⟨v, -, s₁, -, -, -, hreturns, -⟩ := forth r hr
    exact ⟨_, hreturns⟩

/-- Reduction commutes with substitution: without a limit, where a term is reduced to another one in
`n` steps, the term after a substitution is reduced iff that other one after the substitution is, to
the same term, and in exactly `n` steps more. The variable that is substituted must not be in the
table, and what is put in its place must be closed. -/
theorem reduce_commutes_subst {x : VarId}
    (hx : ∀ d ∈ table.entries, x ∉ d.ty.freeIds ∧ x ∉ d.body.freeIds) (hu : u.IsLocallyClosed)
    (hk : k.fuel.limit = none) (ht : Returns (fun d => reduce table d t) k (.ok w k'))
    (hn : k'.spent = k.spent + n) (hs : s.fuel.limit = none) (hs' : s'.fuel.limit = none) :
    (Terminates (fun d => reduce table d ((t.abstractOver [x]).instantiate [u])) s ↔
      Terminates (fun d => reduce table d ((w.abstractOver [x]).instantiate [u])) s') ∧
    ∀ r, Returns (fun d => reduce table d ((w.abstractOver [x]).instantiate [u])) s' r →
      ∃ v j s₁ s₁', r = .ok v s₁' ∧ s₁'.spent = s'.spent + j ∧
        Returns (fun d => reduce table d ((t.abstractOver [x]).instantiate [u])) s (.ok v s₁) ∧
        s₁.spent = s.spent + (n + j) := by
  -- the substitution, under whatever name the variable is displayed
  let xs : List Var := [⟨x, default⟩]
  have hσ : Term.ClosedSubst (Term.assign .var xs [u]) :=
    Term.closedSubst_var.assign xs (List.forall_mem_singleton.2 hu)
  have hfix : ∀ d ∈ table.entries, d.body.subst (Term.assign .var xs [u]) = d.body := by
    intro d hd
    have hnot : ∀ y ∈ xs, y.id ∉ d.body.freeIds := List.forall_mem_singleton.2 (hx d hd).2
    rw [Term.subst_assign_of_notMem hnot, Term.subst_var]
  have hclose : ∀ t : Term, (t.abstractOver [x]).instantiate [u] =
      t.subst (Term.assign .var xs [u]) := @Term.instantiate_abstractOver xs [u] rfl
  obtain ⟨m, v, k₁, heq, hpath, -, hspent⟩ := headPath_of_returns hk ht
  -- the given answer and the one along the sequence are the same
  cases heq
  cases Nat.add_left_cancel (hspent.symm.trans hn)
  rw [hclose, hclose]
  exact reduce_of_headPath (hpath.subst hσ hfix) hs hs'

/-- A table with the function that applies its argument to the universe. -/
def feeding : Table :=
  .ofList [⟨"feed", .typ, .lam "f" false (.app (.bound 0) .typ false)⟩]

/-- A variable that is fed is stuck after two steps, and identity in its place makes a third one. -/
theorem feeding_commutes_subst :
    ∃ k', Returns (fun d => reduce feeding d
        (((Term.app (.ref "feed") (.var ⟨⟨1, 0⟩, "g"⟩) false).abstractOver [⟨1, 0⟩]).instantiate
          [.lam "y" false (.bound 0)])) (.start ⟨0, 0⟩ none) (.ok .typ k') ∧ k'.spent = 3 := by
  let k₀ : Kernel := .start ⟨0, 0⟩ none
  have hu : (Term.lam "y" false (.bound 0)).IsLocallyClosed := Nat.zero_lt_one
  have ht : Returns (fun d => reduce feeding d (.app (.ref "feed") (.var ⟨⟨1, 0⟩, "g"⟩) false)) k₀
      (.ok (.app (.var ⟨⟨1, 0⟩, "g"⟩) .typ false)
        { k₀ with fuel := ⟨none, 2⟩, trace := [.unfolding "feed"] }) :=
    (deepens_reduce _ _).returns 3 (isAnswer_ok _ _)
  have hrest : Returns (fun d => reduce feeding d
      (((Term.app (.var ⟨⟨1, 0⟩, "g"⟩) .typ false).abstractOver [⟨1, 0⟩]).instantiate
        [.lam "y" false (.bound 0)])) k₀ (.ok .typ { k₀ with fuel := ⟨none, 1⟩ }) :=
    (deepens_reduce _ _).returns 2 (isAnswer_ok _ _)
  have hk : k₀.fuel.limit = none := rfl
  have hcommutes := reduce_commutes_subst (x := ⟨1, 0⟩) (n := 2) (by decide) hu hk ht rfl hk hk
  obtain ⟨v, j, k', k'', heq, hspent, hreturns, htotal⟩ := hcommutes.2 _ hrest
  cases heq
  have hj : 1 = 0 + j := hspent
  have hk' : k'.spent = 0 + (2 + j) := htotal
  exact ⟨k', hreturns, by omega⟩

end Kernel

end

end SelfTypes
