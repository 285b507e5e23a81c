import SelfTypes.Proofs.Term.Closed

/-!
# Substitution of free variables

`Term.subst` puts terms in the place of free variables, `Term.bare` drops annotations and locations.
Both pass through the opening of a scope, substitution if the terms that it brings are locally
closed. Main statement: `subst_assign_instantiate`, by which a scope that is opened with new
variables, which are then substituted, is the scope opened with what is put in their places.
-/

namespace SelfTypes.Term

/-! ## Closed terms -/

theorem ClosedAt.mono {t : Term} {depth depth' : Nat} (h : t.ClosedAt depth)
    (hle : depth ≤ depth') : t.ClosedAt depth' := by
  induction t generalizing depth depth' with
  | bound => exact Nat.lt_of_lt_of_le h hle
  | var | ref | typ => trivial
  | all _ _ _ _ ih₁ ih₂ => exact ⟨ih₁ h.1 hle, ih₂ h.2 (Nat.add_le_add_right hle 2)⟩
  | lam _ _ _ ih => exact ih h (Nat.succ_le_succ hle)
  | app _ _ _ ih₁ ih₂ | ann _ _ _ ih₁ ih₂ => exact ⟨ih₁ h.1 hle, ih₂ h.2 hle⟩
  | letIn _ _ _ _ ih₁ ih₂ => exact ⟨ih₁ h.1 hle, ih₂ h.2 (Nat.succ_le_succ hle)⟩
  | loc _ _ ih => exact ih h hle

/-- A closed term has no index for an opened scope to replace. -/
theorem ClosedAt.openAt_eq {values : List Term} {t : Term} {depth : Nat} (h : t.ClosedAt depth) :
    t.openAt values depth = t := by
  induction t generalizing depth with
  | bound i =>
    have hi : i < depth := h
    -- the index belongs to a scope inside, which is not opened
    simp [openIndex, hi]
  | var | ref | typ => rfl
  | lam _ _ _ ih => rw [openAt_lam, ih h]
  | loc _ _ ih => rw [openAt_loc, ih h]
  | all _ _ _ _ ih₁ ih₂ => rw [openAt_all, ih₁ h.1, ih₂ h.2]
  | app _ _ _ ih₁ ih₂ => rw [openAt_app, ih₁ h.1, ih₂ h.2]
  | letIn _ _ _ _ ih₁ ih₂ => rw [openAt_letIn, ih₁ h.1, ih₂ h.2]
  | ann _ _ _ ih₁ ih₂ => rw [openAt_ann, ih₁ h.1, ih₂ h.2]

/-- Opening a scope with closed values closes its body. -/
theorem ClosedAt.openAt {values : List Term} {t : Term} {depth : Nat}
    (h : t.ClosedAt (depth + values.length)) (hvalues : ∀ v ∈ values, v.IsLocallyClosed) :
    (t.openAt values depth).ClosedAt depth := by
  induction t generalizing depth with
  | bound i =>
    have hi : i < depth + values.length := h
    simp only [openAt_bound, openIndex]
    split
    · assumption
    -- there is a value for the index, and it is closed, so it is closed at any depth
    · have hlt : i - depth < values.length := by omega
      rw [List.getElem?_eq_getElem hlt]
      exact (hvalues _ (List.getElem_mem hlt)).mono (Nat.zero_le depth)
  | var | ref | typ => trivial
  | all _ _ _ _ ih₁ ih₂ =>
    refine ⟨ih₁ h.1, ih₂ ?_⟩
    -- the depth grows by the binder, and the number of values stays
    rw [Nat.add_right_comm]
    exact h.2
  | lam _ _ _ ih =>
    refine ih (?_ : ClosedAt _ _)
    rw [Nat.add_right_comm]
    exact h
  | letIn _ _ _ _ ih₁ ih₂ =>
    refine ⟨ih₁ h.1, ih₂ ?_⟩
    rw [Nat.add_right_comm]
    exact h.2
  | app _ _ _ ih₁ ih₂ | ann _ _ _ ih₁ ih₂ => exact ⟨ih₁ h.1, ih₂ h.2⟩
  | loc _ _ ih => exact ih h

/-- A scope opened with as many closed values as it has binders is closed. -/
theorem ClosedAt.instantiate {args : List Term} {t : Term} (h : t.ClosedAt args.length)
    (hargs : ∀ v ∈ args, v.IsLocallyClosed) : (t.instantiate args).IsLocallyClosed := by
  rw [instantiate_eq_openAt]
  refine ClosedAt.openAt ?_ fun v hv => hargs v (List.mem_reverse.1 hv)
  rwa [List.length_reverse, Nat.zero_add]

theorem ClosedAt.instantiate_one {b v : Term} (hb : b.ClosedAt 1) (hv : v.IsLocallyClosed) :
    (b.instantiate [v]).IsLocallyClosed :=
  ClosedAt.instantiate hb (List.forall_mem_singleton.2 hv)

theorem ClosedAt.instantiate_two {b u v : Term} (hb : b.ClosedAt 2) (hu : u.IsLocallyClosed)
    (hv : v.IsLocallyClosed) : (b.instantiate [u, v]).IsLocallyClosed :=
  ClosedAt.instantiate hb (List.forall_mem_cons.2 ⟨hu, List.forall_mem_singleton.2 hv⟩)

theorem ClosedAt.unlocate {t : Term} {depth : Nat} (h : t.ClosedAt depth) :
    t.unlocate.ClosedAt depth := by
  induction t generalizing depth with
  | bound => exact h
  | var | ref | typ => trivial
  | lam _ _ _ ih | loc _ _ ih => exact ih h
  | all _ _ _ _ ih₁ ih₂ | app _ _ _ ih₁ ih₂ | letIn _ _ _ _ ih₁ ih₂ | ann _ _ _ ih₁ ih₂ =>
    exact ⟨ih₁ h.1, ih₂ h.2⟩

/-! ## Substitution -/

/-- The term with other terms in the place of its free variables. -/
def subst (σ : Var → Term) : Term → Term
  | bound i => bound i
  | var x => σ x
  | ref n => ref n
  | typ => typ
  | all s n a b => all s n (a.subst σ) (b.subst σ)
  | lam n er b => lam n er (b.subst σ)
  | app f a er => app (f.subst σ) (a.subst σ) er
  | letIn n d e b => letIn n d (e.subst σ) (b.subst σ)
  | ann d e t => ann d (e.subst σ) (t.subst σ)
  | loc s e => loc s (e.subst σ)

theorem subst_var (t : Term) : t.subst var = t := by
  induction t <;> simp_all [subst]

/-- Only what becomes of the free variables of the term matters. -/
theorem subst_congr {σ τ : Var → Term} {t : Term} (h : ∀ x, x.id ∈ t.freeIds → σ x = τ x) :
    t.subst σ = t.subst τ := by
  induction t with
  | bound | ref | typ => rfl
  | var x => exact h x (List.mem_singleton.2 rfl)
  | lam _ _ _ ih | loc _ _ ih => simp only [subst, ih h]
  | all _ _ _ _ ih₁ ih₂ | app _ _ _ ih₁ ih₂ | letIn _ _ _ _ ih₁ ih₂ | ann _ _ _ ih₁ ih₂ =>
    simp only [subst, ih₁ fun x hx => h x (List.mem_append.2 (.inl hx)),
      ih₂ fun x hx => h x (List.mem_append.2 (.inr hx))]

theorem subst_of_freeIds_eq_nil {t : Term} (h : t.freeIds = []) (σ : Var → Term) :
    t.subst σ = t := by
  calc
    t.subst σ = t.subst var := subst_congr fun x hx => by simp [h] at hx
    _ = t := t.subst_var

/-- The terms that a substitution brings are locally closed. -/
def ClosedSubst (σ : Var → Term) : Prop :=
  ∀ x, (σ x).IsLocallyClosed

theorem closedSubst_var : ClosedSubst var := fun _ => trivial

section Closed

variable {σ : Var → Term}

theorem ClosedAt.subst {t : Term} {depth : Nat} (h : t.ClosedAt depth) (hσ : ClosedSubst σ) :
    (t.subst σ).ClosedAt depth := by
  induction t generalizing depth with
  | bound => exact h
  | var x => exact (hσ x).mono (Nat.zero_le depth)
  | ref | typ => trivial
  | lam _ _ _ ih | loc _ _ ih => exact ih h
  | all _ _ _ _ ih₁ ih₂ | app _ _ _ ih₁ ih₂ | letIn _ _ _ _ ih₁ ih₂ | ann _ _ _ ih₁ ih₂ =>
    exact ⟨ih₁ h.1, ih₂ h.2⟩

theorem subst_openAt (hσ : ClosedSubst σ) (values : List Term) (t : Term) (depth : Nat) :
    (t.openAt values depth).subst σ = (t.subst σ).openAt (values.map (subst σ)) depth := by
  induction t generalizing depth with
  | bound i =>
    simp only [openAt_bound, subst, openIndex, List.getElem?_map, List.length_map]
    split
    · rfl
    · cases values[i - depth]? <;> rfl
  -- what a closed substitution puts in has nothing to open
  | var x => exact ((hσ x).mono (Nat.zero_le depth)).openAt_eq.symm
  | ref | typ => rfl
  | lam _ _ _ ih | loc _ _ ih => simp only [subst, openAt_lam, openAt_loc, ih]
  | all _ _ _ _ ih₁ ih₂ | app _ _ _ ih₁ ih₂ | letIn _ _ _ _ ih₁ ih₂ | ann _ _ _ ih₁ ih₂ =>
    simp only [subst, openAt_all, openAt_app, openAt_letIn, openAt_ann, ih₁, ih₂]

/-- Substitution passes through an opened scope. -/
theorem subst_instantiate (hσ : ClosedSubst σ) (args : List Term) (body : Term) :
    (body.instantiate args).subst σ = (body.subst σ).instantiate (args.map (subst σ)) := by
  rw [instantiate_eq_openAt, subst_openAt hσ, List.map_reverse, instantiate_eq_openAt]

end Closed

/-! ## Assignments -/

/-- The substitution that puts `values` in the places of the variables `xs`, and goes on like `σ`
for others. -/
def assign (σ : Var → Term) : List Var → List Term → Var → Term
  | x :: xs, v :: values => fun y => if y.id = x.id then v else assign σ xs values y
  | _, _ => σ

theorem ClosedSubst.assign {σ : Var → Term} (hσ : ClosedSubst σ) (xs : List Var)
    {values : List Term} (hvalues : ∀ v ∈ values, v.IsLocallyClosed) :
    ClosedSubst (assign σ xs values) := by
  induction xs generalizing values with
  | nil => exact hσ
  | cons x xs ih =>
    cases values with
    | nil => exact hσ
    | cons v values =>
      -- the first variable of the name gets the first value, and the others are looked up further
      -- on
      rw [List.forall_mem_cons] at hvalues
      intro y
      simp only [Term.assign]
      split
      · exact hvalues.1
      · exact ih hvalues.2 y

theorem assign_of_notMem {σ : Var → Term} {xs : List Var} {values : List Term} {y : Var}
    (hy : ∀ x ∈ xs, y.id ≠ x.id) : assign σ xs values y = σ y := by
  induction xs generalizing values with
  | nil => rfl
  | cons x xs ih =>
    cases values with
    | nil => rfl
    | cons v values =>
      rw [List.forall_mem_cons] at hy
      simp only [assign, hy.1, if_false]
      exact ih hy.2

theorem map_assign {σ : Var → Term} {xs : List Var} {values : List Term}
    (hlength : xs.length = values.length) (hnodup : (xs.map Var.id).Nodup) :
    xs.map (assign σ xs values) = values := by
  induction xs generalizing values with
  | nil => exact (List.length_eq_zero_iff.1 hlength.symm).symm
  | cons x xs ih =>
    -- there are as many values as variables
    cases values with
    | nil => cases hlength
    | cons v values =>
      -- the later variables are not `x`, so they get the later values
      obtain ⟨hx, hnodup⟩ := List.nodup_cons.1 hnodup
      have htail : xs.map (assign σ (x :: xs) (v :: values)) =
          xs.map (assign σ xs values) := by
        refine List.map_congr_left fun y hy => ?_
        have hne : y.id ≠ x.id := fun h => hx (h ▸ List.mem_map_of_mem hy)
        simp only [assign, hne, if_false]
      rw [List.map_cons, htail, ih (Nat.succ.inj hlength) hnodup]
      simp only [assign, if_true]

/-- A term without the assigned variables does not notice the assignment. -/
theorem subst_assign_of_notMem {σ : Var → Term} {xs : List Var} {values : List Term} {t : Term}
    (ht : ∀ x ∈ xs, x.id ∉ t.freeIds) : t.subst (assign σ xs values) = t.subst σ :=
  subst_congr fun _ hy => assign_of_notMem fun x hx heq => ht x hx (heq ▸ hy)

/-- Opening a body with new variables and putting values in their places is opening it with the
values. -/
theorem subst_assign_instantiate {σ : Var → Term} {xs : List Var} {values : List Term}
    {b : Term} (hσ : ClosedSubst σ) (hvalues : ∀ v ∈ values, v.IsLocallyClosed)
    (hlength : xs.length = values.length) (hnodup : (xs.map Var.id).Nodup)
    (hb : ∀ x ∈ xs, x.id ∉ b.freeIds) :
    (b.instantiate (xs.map var)).subst (assign σ xs values) =
      (b.subst σ).instantiate values := by
  -- the variables are the arguments, and each of them becomes its value
  have hargs : (xs.map var).map (subst (assign σ xs values)) = values := by
    rw [List.map_map]
    exact map_assign hlength hnodup
  rw [subst_instantiate (hσ.assign xs hvalues), subst_assign_of_notMem hb, hargs]

/-! ## Bare terms -/

/-- The term without annotations and locations, in types as well. -/
def bare : Term → Term
  | bound i => bound i
  | var x => var x
  | ref n => ref n
  | typ => typ
  | all s n a b => all s n a.bare b.bare
  | lam n er b => lam n er b.bare
  | app f a er => app f.bare a.bare er
  | letIn n d e b => letIn n d e.bare b.bare
  | ann _ e _ => e.bare
  | loc _ e => e.bare

theorem bare_openAt (values : List Term) (t : Term) (depth : Nat) :
    (t.openAt values depth).bare = t.bare.openAt (values.map bare) depth := by
  induction t generalizing depth with
  | bound i =>
    simp only [openAt_bound, bare, openIndex, List.getElem?_map, List.length_map]
    -- an index below the depth is not opened on either side
    split
    · rfl
    · cases values[i - depth]? <;> rfl
  | var | ref | typ => rfl
  | lam _ _ _ ih => simp only [openAt_lam, bare, ih]
  | all _ _ _ _ ih₁ ih₂ => simp only [openAt_all, bare, ih₁, ih₂]
  | app _ _ _ ih₁ ih₂ => simp only [openAt_app, bare, ih₁, ih₂]
  | letIn _ _ _ _ ih₁ ih₂ => simp only [openAt_letIn, bare, ih₁, ih₂]
  | ann _ _ _ ih => simp only [openAt_ann, bare, ih]
  | loc _ _ ih => simp only [openAt_loc, bare, ih]

theorem bare_instantiate (args : List Term) (body : Term) :
    (body.instantiate args).bare = body.bare.instantiate (args.map bare) := by
  rw [instantiate_eq_openAt, bare_openAt, List.map_reverse, instantiate_eq_openAt]

/-- Scopes that differ in annotations and locations, opened with terms that do. -/
theorem bare_instantiate_congr {b b' : Term} {args args' : List Term} (hb : b.bare = b'.bare)
    (hargs : args.map bare = args'.map bare) :
    (b.instantiate args).bare = (b'.instantiate args').bare := by
  rw [bare_instantiate, bare_instantiate, hb, hargs]

theorem bare_instantiate_one {b b' v v' : Term} (hb : b.bare = b'.bare) (hv : v.bare = v'.bare) :
    (b.instantiate [v]).bare = (b'.instantiate [v']).bare :=
  bare_instantiate_congr hb (by simp [hv])

theorem bare_unlocate (t : Term) : t.unlocate.bare = t.bare := by
  induction t with
  | bound | var | ref | typ => rfl
  | lam _ _ _ ih | loc _ _ ih => simp only [unlocate, bare, ih]
  | all _ _ _ _ ih₁ ih₂ | app _ _ _ ih₁ ih₂ | letIn _ _ _ _ ih₁ ih₂ | ann _ _ _ ih₁ ih₂ =>
    simp only [unlocate, bare, ih₁, ih₂]

end SelfTypes.Term
