import Mathlib.Data.List.Forall2
import SelfTypes.Proofs.Kernel.Convertibility

/-!
# Convertibility is a congruence

Convertible terms stay convertible when convertible terms are put in the places of their free
variables. So types that were found equal below a binder are still convertible once the bound
variable has a value.

`Substituted` closes convertibility under such substitutions. That it is a simulation again is shown
by induction on the number of steps to the normal form, and for one number by induction on how the
terms came to be substituted: the normal form after a substitution comes from the one before it, and
where that is stuck at a variable, what was put in its place goes on, in fewer steps. Main
statements: `Convertible.subst` and `Convertible.of_all`.
-/

namespace SelfTypes

/-- Convertible closed terms, after any substitutions of terms that are related like this for
their free variables. -/
inductive Substituted (table : Table) : Term → Term → Prop where
  | convertible {a b : Term} :
      a.IsLocallyClosed → b.IsLocallyClosed → Convertible table a b → Substituted table a b
  | subst {a b : Term} {σ τ : Var → Term} :
      Substituted table a b → Term.ClosedSubst σ → Term.ClosedSubst τ →
      (∀ x y : Var, x.id = y.id → Substituted table (σ x) (τ y)) →
      Substituted table (a.subst σ) (b.subst τ)

namespace Substituted

variable {table : Table} {a b : Term} {σ τ : Var → Term}

theorem refl (table : Table) {a : Term} (ha : a.IsLocallyClosed) : Substituted table a a :=
  .convertible ha ha (.refl table a)

theorem isLocallyClosed (h : Substituted table a b) :
    a.IsLocallyClosed ∧ b.IsLocallyClosed := by
  induction h with
  | convertible ha hb _ => exact ⟨ha, hb⟩
  | subst _ hσ hτ _ ih _ => exact ⟨ih.1.subst hσ, ih.2.subst hτ⟩

theorem symm (h : Substituted table a b) : Substituted table b a := by
  induction h with
  | convertible ha hb h => exact .convertible hb ha h.symm
  | subst _ hσ hτ _ ih ihvar => exact .subst ih hτ hσ fun x y hid => ihvar y x hid.symm

/-- Occurrences of one variable are related. -/
theorem var {x y : Var} (hid : x.id = y.id) : Substituted table (.var x) (.var y) :=
  .convertible trivial trivial (.of_sameHead (.var x) (.var y) (.var hid))

/-- Assignments of related values. -/
theorem assign (hvar : ∀ x y : Var, x.id = y.id → Substituted table (σ x) (τ y))
    {values values' : List Term} (hvalues : List.Forall₂ (Substituted table) values values')
    (xs : List Var) (x y : Var) (hid : x.id = y.id) :
    Substituted table (Term.assign σ xs values x) (Term.assign τ xs values' y) := by
  induction hvalues generalizing xs with
  | nil => cases xs <;> exact hvar x y hid
  | cons hvalue _ ih =>
    cases xs with
    -- with no variables left there is nothing to assign, and with no values neither
    | nil => exact hvar x y hid
    | cons z xs =>
      simp only [Term.assign, hid]
      split
      · exact hvalue
      · exact ih xs

theorem closed_of_forall₂ {values values' : List Term}
    (h : List.Forall₂ (Substituted table) values values') :
    (∀ v ∈ values, v.IsLocallyClosed) ∧ ∀ v ∈ values', v.IsLocallyClosed := by
  induction h with
  | nil => simp
  | cons hvalue _ ih =>
    exact ⟨List.forall_mem_cons.2 ⟨hvalue.isLocallyClosed.1, ih.1⟩,
      List.forall_mem_cons.2 ⟨hvalue.isLocallyClosed.2, ih.2⟩⟩

theorem closed_of_mem_map_var {xs : List Var} {v : Term} (hv : v ∈ xs.map Term.var) :
    v.IsLocallyClosed := by
  obtain ⟨x, -, rfl⟩ := List.mem_map.1 hv
  trivial

/-- Related bodies, opened with related values after related substitutions. -/
theorem subst_instantiate {body body' : Term} {values values' : List Term}
    (h : OpenedFresh (Substituted table) values.length body body')
    (hσ : Term.ClosedSubst σ) (hτ : Term.ClosedSubst τ)
    (hvar : ∀ x y : Var, x.id = y.id → Substituted table (σ x) (τ y))
    (hvalues : List.Forall₂ (Substituted table) values values') :
    Substituted table ((body.subst σ).instantiate values)
      ((body'.subst τ).instantiate values') := by
  -- the bodies are opened with variables of no use elsewhere, which are assigned the values
  obtain ⟨avoided, h⟩ := h
  obtain ⟨xs, hlength, hnodup, hxs⟩ :=
    exists_fresh_vars (avoided ++ (body.freeIds ++ body'.freeIds)) values.length
  have hnotMem : ∀ x ∈ xs, x.id ∉ avoided ∧ x.id ∉ body.freeIds ∧ x.id ∉ body'.freeIds := by
    intro x hx
    have hnot := hxs x hx
    simp only [List.mem_append, not_or] at hnot
    exact hnot
  obtain ⟨hclosed, hclosed'⟩ := closed_of_forall₂ hvalues
  have hopened := h xs hlength hnodup fun x hx => (hnotMem x hx).1
  have hsubst := hopened.subst (hσ.assign xs hclosed) (hτ.assign xs hclosed')
    (assign hvar hvalues xs)
  rwa [Term.subst_assign_instantiate hσ hclosed hlength hnodup fun x hx => (hnotMem x hx).2.1,
    Term.subst_assign_instantiate hτ hclosed' (hlength.trans hvalues.length_eq) hnodup
      fun x hx => (hnotMem x hx).2.2] at hsubst

/-- Related bodies stay related after related substitutions. -/
theorem openedFresh_subst {arity : Nat} {body body' : Term}
    (h : OpenedFresh (Substituted table) arity body body')
    (hσ : Term.ClosedSubst σ) (hτ : Term.ClosedSubst τ)
    (hvar : ∀ x y : Var, x.id = y.id → Substituted table (σ x) (τ y)) :
    OpenedFresh (Substituted table) arity (body.subst σ) (body'.subst τ) := by
  refine ⟨[], fun xs hlength _ _ => ?_⟩
  have hvalues : List.Forall₂ (Substituted table) (xs.map Term.var) (xs.map Term.var) :=
    List.forall₂_same.2 fun v hv => refl table (closed_of_mem_map_var hv)
  exact subst_instantiate (by simpa [hlength] using h) hσ hτ hvar hvalues

/-- Related bodies, opened with related values. -/
theorem instantiate {body body' : Term} {values values' : List Term}
    (h : OpenedFresh (Substituted table) values.length body body')
    (hvalues : List.Forall₂ (Substituted table) values values') :
    Substituted table (body.instantiate values) (body'.instantiate values') := by
  have hvar : ∀ x y : Var, x.id = y.id → Substituted table (Term.var x) (Term.var y) :=
    fun _ _ => var
  have hopened := subst_instantiate h Term.closedSubst_var Term.closedSubst_var hvar hvalues
  rwa [Term.subst_var, Term.subst_var] at hopened

/-- Related applications. -/
theorem app {f f' a a' : Term} (hf : Substituted table f f') (ha : Substituted table a a')
    (er : Bool) : Substituted table (.app f a er) (.app f' a' er) := by
  -- the application of two variables, opened with the parts
  have hbody : OpenedFresh (Substituted table) [f, a].length (.app (.bound 1) (.bound 0) er)
      (.app (.bound 1) (.bound 0) er) := by
    refine ⟨[], fun xs hlength _ _ => refl table ?_⟩
    refine Term.ClosedAt.instantiate ?_ fun v hv => closed_of_mem_map_var hv
    rw [List.length_map, hlength]
    exact ⟨Nat.lt_succ_self 1, Nat.zero_lt_succ 1⟩
  have hparts : List.Forall₂ (Substituted table) [f, a] [f', a'] := .cons hf (.cons ha .nil)
  exact instantiate hbody hparts

theorem openedFresh_of_convertible {arity : Nat} {body body' : Term}
    (hbody : body.ClosedAt arity) (hbody' : body'.ClosedAt arity)
    (h : OpenedFresh (Convertible table) arity body body') :
    OpenedFresh (Substituted table) arity body body' := by
  obtain ⟨avoided, h⟩ := h
  refine ⟨avoided, fun xs hlength hnodup hxs => ?_⟩
  -- variables are closed, so the opened bodies are closed
  have hopened : ∀ {b : Term}, b.ClosedAt arity →
      (b.instantiate (xs.map .var)).IsLocallyClosed := by
    intro b hb
    refine Term.ClosedAt.instantiate ?_ fun v hv => closed_of_mem_map_var hv
    rwa [List.length_map, hlength]
  exact .convertible (hopened hbody) (hopened hbody') (h xs hlength hnodup hxs)

/-- Parts of closed normal forms are closed. -/
theorem sameHead_of_convertible {w w' : Term} (hw : w.IsLocallyClosed) (hw' : w'.IsLocallyClosed)
    (h : SameHead (Convertible table) (OpenedFresh (Convertible table)) w w') :
    SameHead (Substituted table) (OpenedFresh (Substituted table)) w w' := by
  cases h with
  | bound i => exact .bound i
  | var hid => exact .var hid
  | ref name => exact .ref name
  | typ => exact .typ
  | all ha hb =>
    exact .all (.convertible hw.1 hw'.1 ha) (openedFresh_of_convertible hw.2 hw'.2 hb)
  | lam hb => exact .lam (openedFresh_of_convertible hw hw' hb)
  | app hf ha => exact .app (.convertible hw.1 hw'.1 hf) (.convertible hw.2 hw'.2 ha)

/-! ## A simulation -/

/-- What a simulation asks of two related terms, if the first one reduces in a number of steps. -/
def Simulates (table : Table) (h : Nat) (a b : Term) : Prop :=
  ∀ w, WeakHeadIn table .all h a w → ∃ w', WeakHead table b w' ∧ Substituted table w w' ∧
    SameHead (Substituted table) (OpenedFresh (Substituted table)) w w'

/-- Applications of related functions to related arguments, from what takes fewer steps. -/
theorem simulates_app {h : Nat} (ih : ∀ i < h, ∀ a b, Substituted table a b → Simulates table i a b)
    {f f' a a' : Term} {er : Bool} (hf : Substituted table f f') (ha : Substituted table a a') :
    Simulates table h (.app f a er) (.app f' a' er) := by
  intro w hw
  cases hw with
  | @beta i j _ _ b _ n _ er' _ hfunc hbody =>
    -- the head is one step smaller, and so is what is contracted
    obtain ⟨g', hg', -, hhead⟩ := ih i (by omega) f f' hf _ hfunc
    cases hhead with
    | @lam _ n' _ _ b' hb =>
      have hopened : OpenedFresh (Substituted table) [a].length b b' := hb
      have hcontracted : Substituted table (b.instantiate [a]) (b'.instantiate [a']) :=
        instantiate hopened (.cons ha .nil)
      obtain ⟨w', hw', hresult⟩ := ih j (by omega) _ _ hcontracted w hbody
      exact ⟨w', .beta hg' hw', hresult⟩
  | @stuck i _ _ g _ hfunc hlam =>
    obtain ⟨g', hg', hrelated, hhead⟩ := ih i (by omega) f f' hf g hfunc
    have hlam' : g'.isLam = false := hhead.isLam_eq.symm.trans hlam
    exact ⟨_, .stuck hg' hlam', app hrelated ha er, .app hrelated ha⟩

/-- The closure of convertibility under substitutions is a simulation. -/
theorem simulates (hclosed : table.IsLocallyClosed) (hfree : table.IsVarFree) (h : Nat) :
    ∀ a b, Substituted table a b → Simulates table h a b := by
  induction h using Nat.strongRecOn with
  | ind h ih =>
  intro a b hab
  -- for all numbers of steps up to `h`, so that the term before a substitution is covered too
  suffices hle : ∀ i ≤ h, Simulates table i a b from hle h (Nat.le_refl h)
  induction hab with
  | @convertible a b ha hb hconv =>
    intro i _ w hw
    obtain ⟨w', hw', hhead⟩ := Convertible.isSimulation table a b w hconv hw.weakHead
    have hwclosed := hw.weakHead.isLocallyClosed hclosed ha
    have hwclosed' := hw'.isLocallyClosed hclosed hb
    refine ⟨w', hw', .convertible hwclosed hwclosed' ?_,
      sameHead_of_convertible hwclosed hwclosed' hhead⟩
    exact .of_sameHead hw.weakHead.idem hw'.idem hhead
  | @subst a b σ τ hab hσ hτ hvar ihab ihvar =>
    intro i hi w hw
    -- the reduction is cut at the normal form that the term has before the substitution
    obtain ⟨v, ⟨j, hj, hv⟩, k, hk, hw⟩ := hw.of_subst hfree hσ
    obtain ⟨v', hv', hrelated, hhead⟩ := ihab j (Nat.le_trans hj hi) v hv
    have hki : k ≤ h := Nat.le_trans hk hi
    -- what the normal forms before the substitution become, and how they go on
    suffices hgoal : ∃ w', WeakHead table (v'.subst τ) w' ∧ Substituted table w w' ∧
        SameHead (Substituted table) (OpenedFresh (Substituted table)) w w' by
      obtain ⟨w', hw', hresult⟩ := hgoal
      exact ⟨w', hv'.subst hfree hτ hw', hresult⟩
    cases hhead with
    -- only a variable and an application may go on after the substitution
    | bound n => exact absurd hrelated.isLocallyClosed.1 (Nat.not_lt_zero n)
    | @var x y hid => exact ihvar x y hid k hki w hw
    | ref name =>
      cases hw.weakHead.unique hv.weakHead.idem
      exact ⟨_, hv'.idem, hrelated, .ref name⟩
    | typ =>
      cases hw
      exact ⟨_, .typ, hrelated, .typ⟩
    | all ha hb =>
      cases hw
      exact ⟨_, .all _ _ _ _, hrelated.subst hσ hτ hvar,
        .all (ha.subst hσ hτ hvar) (openedFresh_subst hb hσ hτ hvar)⟩
    | lam hb =>
      cases hw
      exact ⟨_, .lam _ _ _, hrelated.subst hσ hτ hvar, .lam (openedFresh_subst hb hσ hτ hvar)⟩
    | app hf ha =>
      exact simulates_app (fun i hi => ih i (Nat.lt_of_lt_of_le hi hki)) (hf.subst hσ hτ hvar)
        (ha.subst hσ hτ hvar) w hw

/-- What substitutions make of convertible terms is convertible. -/
theorem toConvertible (hclosed : table.IsLocallyClosed) (hfree : table.IsVarFree)
    (h : Substituted table a b) : Convertible table a b := by
  refine ⟨Substituted table, fun _ _ => symm, ?_, h⟩
  intro a b w hab hw
  obtain ⟨i, hi⟩ := hw.exists_weakHeadIn
  obtain ⟨w', hw', -, hhead⟩ := simulates hclosed hfree i a b hab w hi
  exact ⟨w', hw', hhead⟩

end Substituted

/-! ## Convertibility under substitution -/

namespace Convertible

variable {table : Table} {a b : Term}

/-- Convertible terms stay so when convertible terms are put in the places of their variables. -/
theorem subst (hclosed : table.IsLocallyClosed) (hfree : table.IsVarFree)
    (ha : a.IsLocallyClosed) (hb : b.IsLocallyClosed) (h : Convertible table a b)
    {σ τ : Var → Term} (hσ : Term.ClosedSubst σ) (hτ : Term.ClosedSubst τ)
    (hvar : ∀ x y : Var, x.id = y.id → Convertible table (σ x) (τ y)) :
    Convertible table (a.subst σ) (b.subst τ) := by
  have hsubst : Substituted table (a.subst σ) (b.subst τ) :=
    .subst (.convertible ha hb h) hσ hτ fun x y hid =>
      .convertible (hσ x) (hτ y) (hvar x y hid)
  exact hsubst.toConvertible hclosed hfree

/-- Convertible bodies of self types, opened with convertible values. -/
theorem open_two (hclosed : table.IsLocallyClosed) (hfree : table.IsVarFree)
    {body body' u u' v v' : Term} (hbody : body.ClosedAt 2) (hbody' : body'.ClosedAt 2)
    (h : OpenedFresh (Convertible table) 2 body body') (hu : u.IsLocallyClosed)
    (hu' : u'.IsLocallyClosed) (hv : v.IsLocallyClosed) (hv' : v'.IsLocallyClosed)
    (huu : Convertible table u u') (hvv : Convertible table v v') :
    Convertible table (body.instantiate [u, v]) (body'.instantiate [u', v']) := by
  have hopened : OpenedFresh (Substituted table) [u, v].length body body' :=
    Substituted.openedFresh_of_convertible hbody hbody' h
  have hvalues : List.Forall₂ (Substituted table) [u, v] [u', v'] :=
    .cons (.convertible hu hu' huu) (.cons (.convertible hv hv' hvv) .nil)
  exact (Substituted.instantiate hopened hvalues).toConvertible hclosed hfree

/-- A self type is convertible only with self types that have convertible parts. -/
theorem of_all (hclosed : table.IsLocallyClosed) (hfree : table.IsVarFree)
    (ha : a.IsLocallyClosed) (hb : b.IsLocallyClosed) (h : Convertible table a b)
    {s n : BinderName} {bind body : Term} (hall : WeakHead table a (.all s n bind body)) :
    ∃ s' n' bind' body', WeakHead table b (.all s' n' bind' body') ∧
      Convertible table bind bind' ∧
      ∀ u v : Term, u.IsLocallyClosed → v.IsLocallyClosed →
        Convertible table (body.instantiate [u, v]) (body'.instantiate [u, v]) := by
  obtain ⟨w, hw, hhead⟩ := isSimulation table a b _ h hall
  have hwa := hall.isLocallyClosed hclosed ha
  have hwb := hw.isLocallyClosed hclosed hb
  cases hhead with
  | @all _ s' _ n' _ bind' _ body' hbind hbody =>
    refine ⟨s', n', bind', body', hw, hbind, fun u v hu hv => ?_⟩
    exact open_two hclosed hfree hwa.2 hwb.2 hbody hu hu hv hv (.refl table u) (.refl table v)

/-- A body opened with convertible values. -/
theorem instantiate_two (hclosed : table.IsLocallyClosed) (hfree : table.IsVarFree)
    {body u u' v v' : Term} (hbody : body.ClosedAt 2) (hu : u.IsLocallyClosed)
    (hu' : u'.IsLocallyClosed) (hv : v.IsLocallyClosed) (hv' : v'.IsLocallyClosed)
    (huu : Convertible table u u') (hvv : Convertible table v v') :
    Convertible table (body.instantiate [u, v]) (body.instantiate [u', v']) :=
  open_two hclosed hfree hbody hbody ⟨[], fun _ _ _ _ => .refl table _⟩ hu hu' hv hv' huu hvv

/-- Only what reduces to the universe is convertible with what does. -/
theorem weakHead_typ_iff (h : Convertible table a b) :
    WeakHead table a .typ ↔ WeakHead table b .typ := by
  have hforward : ∀ {a b : Term}, Convertible table a b → WeakHead table a .typ →
      WeakHead table b .typ := by
    intro a b h ha
    obtain ⟨w, hw, hhead⟩ := isSimulation table a b _ h ha
    cases hhead
    exact hw
  exact ⟨hforward h, hforward h.symm⟩

end Convertible

end SelfTypes
