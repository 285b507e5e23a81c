import SelfTypes.Proofs.Elaboration.Derivation
import SelfTypes.Proofs.Term.Path

/-!
# What elaboration overlooks

The dependency sorter leaves unknown names for the elaborator to report, so the elaborator should
come to every place that the sorter goes to. It does not go into literals, and it does not look at
what is checked against a type that reduces to the universe. `ComesTo` follows elaboration along a
path, and says in which mode it comes to the part at the end; `Overlooked` gathers the paths that
end inside a literal or in the place of a type. Main statement: `Derives.overlooked`, by which a
term that is elaborated has references to unknown names at overlooked places only.
-/

namespace SelfTypes

/-! ## Where elaboration comes to -/

/-- In the context, the elaboration of a term in some mode, from the kernel on, comes to the part at
the end of the path in the last mode. Of the kernels, only the variables matter that they issue. -/
inductive ComesTo (env : Environment) :
    Context → Term → Mode → Kernel → List Branch → Mode → Prop where
  | here {ctx : Context} {t : Term} {mode : Mode} {k : Kernel} : ComesTo env ctx t mode k [] mode
  /-- Events, reductions and classifications lead from one kernel to a later one. -/
  | later {ctx : Context} {t : Term} {mode goal : Mode} {k k₁ : Kernel} {p : List Branch} :
      k.Follows k₁ → ComesTo env ctx t mode k₁ p goal → ComesTo env ctx t mode k p goal
  | func {ctx : Context} {f a : Term} {er : Bool} {goal : Mode} {k : Kernel} {p : List Branch} :
      ComesTo env ctx f .synthesis k p goal →
      ComesTo env ctx (.app f a er) .synthesis k (.func :: p) goal
  /-- An argument is checked against the type of the parameter. -/
  | arg {ctx : Context} {f a bind body : Term} {er : Bool} {s n : BinderName} {func : Elaborated}
      {goal : Mode} {k k₁ : Kernel} {p : List Branch} :
      Derives env ctx f .synthesis k func k₁ →
      WeakHead env.table func.ty (.all s n bind body) →
      ComesTo env ctx a (.analysis bind) k₁ p goal →
      ComesTo env ctx (.app f a er) .synthesis k (.arg :: p) goal
  | value {ctx : Context} {name : BinderName} {dup : Bool} {e b : Term} {mode goal : Mode}
      {k : Kernel} {p : List Branch} :
      ComesTo env ctx e .synthesis k p goal →
      ComesTo env ctx (.letIn name dup e b) mode k (.value :: p) goal
  | letBody {ctx : Context} {name : BinderName} {dup : Bool} {e b : Term} {mode goal : Mode}
      {x : Var} {value : Elaborated} {k k₁ k₂ : Kernel} {p : List Branch} :
      Derives env ctx e .synthesis k value k₁ →
      Kernel.fresh name k₁ = .ok x k₂ →
      ComesTo env (ctx.extend x value.ty) (b.instantiate [letStandIn dup x e value.ty]) mode
        k₂ p goal →
      ComesTo env ctx (.letIn name dup e b) mode k (.body :: p) goal
  | lamBody {ctx : Context} {name s n : BinderName} {er : Bool} {body ty bind tyBody : Term}
      {x : Var} {goal : Mode} {k k₁ : Kernel} {p : List Branch} :
      WeakHead env.table ty (.all s n bind tyBody) →
      Kernel.fresh name k = .ok x k₁ →
      ComesTo env (ctx.extend x bind) (body.instantiate [.ann true (.var x) bind])
        (.analysis
          (tyBody.instantiate [.ann true (.lam name er body) ty, .ann true (.var x) bind]))
        k₁ p goal →
      ComesTo env ctx (.lam name er body) (.analysis ty) k (.body :: p) goal
  /-- What is annotated is checked against its type. -/
  | expr {ctx : Context} {done : Bool} {e ty : Term} {goal : Mode} {k : Kernel}
      {p : List Branch} :
      ComesTo env ctx e (.analysis ty) k p goal →
      ComesTo env ctx (.ann done e ty) .synthesis k (.expr :: p) goal
  | loc {ctx : Context} {span : Span} {e : Term} {mode goal : Mode} {k : Kernel}
      {p : List Branch} :
      ComesTo env ctx e mode k p goal → ComesTo env ctx (.loc span e) mode k p goal
  /-- A term without a rule of its own shows its type. -/
  | infer {ctx : Context} {t ty : Term} {goal : Mode} {k : Kernel} {p : List Branch} :
      t.hasCheckRule = false → ComesTo env ctx t .synthesis k p goal →
      ComesTo env ctx t (.analysis ty) k p goal

/-- At the head of a term, elaboration is in the mode that it starts in, or infers. -/
theorem ComesTo.mode_of_nil {env : Environment} {ctx : Context} {t : Term} {mode goal : Mode}
    {k : Kernel} (h : ComesTo env ctx t mode k [] goal) : goal = mode ∨ goal = .synthesis := by
  generalize hp : ([] : List Branch) = p at h
  induction h with
  | here => exact .inl rfl
  | later _ _ ih | loc _ ih => exact ih hp
  | infer _ _ ih => exact .inr ((ih hp).elim id id)
  | func | arg | value | letBody | lamBody | expr => cases hp

/-- A term is checked against the type that it is to be checked against. -/
theorem ComesTo.ty_of_nil {env : Environment} {ctx : Context} {t ty ty' : Term} {k : Kernel}
    (h : ComesTo env ctx t (.analysis ty) k [] (.analysis ty')) : ty' = ty := by
  obtain hmode | hmode := h.mode_of_nil
  · cases hmode
    rfl
  · cases hmode

/-- Elaboration comes into an argument with the type of the parameter, which is found by
inference. -/
theorem ComesTo.exists_of_arg {env : Environment} {ctx : Context} {f a : Term} {er : Bool}
    {mode goal : Mode} {k : Kernel} {p : List Branch}
    (h : ComesTo env ctx (.app f a er) mode k (.arg :: p) goal) :
    ∃ s n bind body func k₀ k₁, Derives env ctx f .synthesis k₀ func k₁ ∧
      WeakHead env.table func.ty (.all s n bind body) ∧
      ComesTo env ctx a (.analysis bind) k₁ p goal := by
  -- the form of the term and the first step of the path are indices, so they are generalised
  generalize ht : Term.app f a er = t, hp : Branch.arg :: p = q at h
  induction h with
  | later _ _ ih | infer _ _ ih => exact ih ht hp
  | arg hfunc hall hgoal =>
    cases ht
    cases hp
    exact ⟨_, _, _, _, _, _, _, hfunc, hall, hgoal⟩
  -- a location is no application, and the other rules take another first step
  | loc => cases ht
  | here | func | value | letBody | lamBody | expr => cases hp

/-- The path ends in a part of the term that is elaborated without being looked at. -/
inductive Overlooked (env : Environment) (ctx : Context) (t : Term) (mode : Mode) (k : Kernel)
    (p : List Branch) : Prop where
  /-- The part belongs to a literal. -/
  | literal {q : List Branch} {u : Term} {r : Elaborated} :
      q <+: p → t.follow q = some u → Elaborator.literal? u = some r →
      Overlooked env ctx t mode k p
  /-- The part belongs to what is checked against a type that reduces to the universe. -/
  | type {q : List Branch} {ty : Term} :
      q <+: p → ComesTo env ctx t mode k q (.analysis ty) → WeakHead env.table ty .typ →
      Overlooked env ctx t mode k p

namespace Overlooked

variable {env : Environment} {ctx ctx' : Context} {t t' : Term} {mode mode' : Mode}
  {k k' : Kernel} {p : List Branch}

/-- What is overlooked in one elaboration is overlooked in another one of the same term that comes
to the same parts. -/
theorem imp (h : Overlooked env ctx t mode k p)
    (hcomes : ∀ {q goal}, ComesTo env ctx t mode k q goal → ComesTo env ctx t mode' k' q goal) :
    Overlooked env ctx t mode' k' p := by
  cases h with
  | literal hq hu hr => exact .literal hq hu hr
  | type hq hgoal hty => exact .type hq (hcomes hgoal) hty

/-- What is overlooked in a part of a term is overlooked in the term. -/
theorem cons {branch : Branch} (h : Overlooked env ctx' t' mode' k' p)
    (hchild : t.peel.child? branch = some t')
    (hcomes : ∀ {q goal}, ComesTo env ctx' t' mode' k' q goal →
      ComesTo env ctx t mode k (branch :: q) goal) :
    Overlooked env ctx t mode k (branch :: p) := by
  cases h with
  | literal hq hu hr =>
    exact .literal ((List.prefix_cons_inj branch).2 hq) (Term.follow_cons.2 ⟨t', hchild, hu⟩) hr
  | type hq hgoal hty => exact .type ((List.prefix_cons_inj branch).2 hq) (hcomes hgoal) hty

/-- What is overlooked in the body of a binder, opened with an annotated value, is overlooked in the
term with the binder: the value brings no literal. -/
theorem cons_body {b v : Term} {n : DefName}
    (h : Overlooked env ctx' (b.instantiate [v]) mode' k' p) (hv : v.isAnn = true)
    (hchild : t.peel.child? .body = some b) (hp : b.follow p = some (.ref n))
    (hcomes : ∀ {q goal}, ComesTo env ctx' (b.instantiate [v]) mode' k' q goal →
      ComesTo env ctx t mode k (.body :: q) goal) :
    Overlooked env ctx t mode k (.body :: p) := by
  cases h with
  | @literal q u r hq hu hr =>
    have hvalues : ∀ w ∈ [v].reverse, w.isAnn = true := List.forall_mem_singleton.2 hv
    -- the path leads to a part of the body before it is opened, which is the literal already
    obtain ⟨w, hw⟩ := Term.exists_follow_of_prefix hp hq
    obtain ⟨depth, hopened⟩ := Term.follow_openAt hvalues hw 0
    rw [Term.instantiate_eq_openAt] at hu
    cases hopened.symm.trans hu
    rw [Term.literal?_openAt hvalues] at hr
    exact .literal ((List.prefix_cons_inj _).2 hq) (Term.follow_cons.2 ⟨b, hchild, hw⟩) hr
  | type hq hgoal hty => exact .type ((List.prefix_cons_inj _).2 hq) (hcomes hgoal) hty

/-- What is overlooked in a term is overlooked in the term with a location. -/
theorem located {span : Span} (h : Overlooked env ctx t mode k p) :
    Overlooked env ctx (.loc span t) mode k p := by
  cases h with
  | literal hq hu hr => exact .literal hq ((Term.follow_loc span t _).trans hu) hr
  | type hq hgoal hty => exact .type hq (.loc hgoal) hty

end Overlooked

/-! ## References to unknown names -/

/-- A term that is elaborated refers to unknown names only where it is overlooked. -/
theorem Derives.overlooked {env : Environment} {ctx : Context} {t : Term} {mode : Mode}
    {k k' : Kernel} {r : Elaborated} (h : Derives env ctx t mode k r k') {p : List Branch}
    {n : DefName} (hp : t.follow p = some (.ref n)) (hn : env.table.find? n = none) :
    Overlooked env ctx t mode k p := by
  -- on the derivation; each rule comes to the parts that the term has paths to, or ends there
  induction h generalizing p with
  | later hk _ _ ih => exact (ih hp).imp (.later hk)
  -- no reference is inside these, so there is no path to one
  | var | typ | all => cases p <;> cases hp
  | ref hd =>
    cases p with
    -- a reference that was derived is defined
    | nil =>
      cases hp
      rw [hn] at hd
      cases hd
    | cons => cases hp
  -- the derivation ends at the literal or the type, and everything below is overlooked
  | literal hliteral =>
    exact .literal List.nil_prefix rfl ((Term.literal?_peel _).trans hliteral)
  | type hty => exact .type List.nil_prefix .here hty
  | app hfunc hall _ ihf iha =>
    -- of the first steps of a path, an application has two
    rcases p with _ | ⟨_ | _ | _ | _ | _, p⟩
    case cons.func => exact (ihf hp).cons rfl .func
    case cons.arg => exact (iha hp).cons rfl (.arg hfunc hall)
    all_goals cases hp
  | @letIn ctx _ dup e b _ x value _ _ _ _ _ hvalue hx _ ihe ihb =>
    rcases p with _ | ⟨_ | _ | _ | _ | _, p⟩
    case cons.value => exact (ihe hp).cons rfl .value
    case cons.body =>
      have hopened : (b.instantiate [letStandIn dup x e value.ty]).follow p = some (.ref n) :=
        Term.follow_instantiate rfl hp
      exact (ihb hopened).cons_body rfl rfl hp (.letBody hvalue hx)
    all_goals cases hp
  | ann _ ih =>
    rcases p with _ | ⟨_ | _ | _ | _ | _, p⟩
    case cons.expr => exact (ih hp).cons rfl .expr
    all_goals cases hp
  | loc _ _ ih =>
    rw [Term.follow_loc] at hp
    exact (ih hp).located
  | @lam ctx _ _ _ _ body _ bind _ x _ _ _ _ _ hall hx _ ih =>
    rcases p with _ | ⟨_ | _ | _ | _ | _, p⟩
    case cons.body =>
      have hopened : (body.instantiate [.ann true (.var x) bind]).follow p = some (.ref n) :=
        Term.follow_instantiate rfl hp
      exact (ih hopened).cons_body rfl rfl hp (.lamBody hall hx)
    all_goals cases hp
  | infer hrule _ _ _ _ ih => exact (ih hp).imp (.infer hrule)

end SelfTypes
