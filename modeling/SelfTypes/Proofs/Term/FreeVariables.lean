import SelfTypes.Table
import SelfTypes.Term.Location
import SelfTypes.Term.Scope

/-!
# Free variables and their renaming

`Term.freeIds` lists the free variables of a term by identity, and `Term.rename` puts other
variables in their place. Opening a scope is compatible with both: no variable turns up that is in
neither the body nor the values (`freeIds_instantiate`), and renaming passes to the body and to the
values (`rename_instantiate`).
-/

namespace SelfTypes

namespace Term

/-! ## Opening at a depth -/

/-- Opens a scope with the given values, listed innermost first, in a term that stands below
`depth` inner binders. -/
def openAt (values : List Term) (depth : Nat) (t : Term) : Term :=
  mapLeaves (openIndex values) (fun _ x => var x) depth t

theorem instantiate_eq_openAt (args : List Term) (body : Term) :
    body.instantiate args = body.openAt args.reverse 0 := rfl

section OpenAt

variable (values : List Term) (depth : Nat)

@[simp] theorem openAt_bound (i : Nat) :
    (bound i).openAt values depth = openIndex values depth i := rfl

@[simp] theorem openAt_var (x : Var) : (var x).openAt values depth = var x := rfl

@[simp] theorem openAt_ref (n : DefName) : (ref n).openAt values depth = ref n := rfl

@[simp] theorem openAt_typ : typ.openAt values depth = typ := rfl

@[simp] theorem openAt_all (s n : BinderName) (a b : Term) :
    (all s n a b).openAt values depth =
      all s n (a.openAt values depth) (b.openAt values (depth + 2)) := rfl

@[simp] theorem openAt_lam (n : BinderName) (er : Bool) (b : Term) :
    (lam n er b).openAt values depth = lam n er (b.openAt values (depth + 1)) := rfl

@[simp] theorem openAt_app (f a : Term) (er : Bool) :
    (app f a er).openAt values depth =
      app (f.openAt values depth) (a.openAt values depth) er := rfl

@[simp] theorem openAt_letIn (n : BinderName) (d : Bool) (e b : Term) :
    (letIn n d e b).openAt values depth =
      letIn n d (e.openAt values depth) (b.openAt values (depth + 1)) := rfl

@[simp] theorem openAt_ann (d : Bool) (e t : Term) :
    (ann d e t).openAt values depth =
      ann d (e.openAt values depth) (t.openAt values depth) := rfl

@[simp] theorem openAt_loc (s : Span) (e : Term) :
    (loc s e).openAt values depth = loc s (e.openAt values depth) := rfl

end OpenAt

/-- What an index becomes when a scope is opened: an index again, or one of the values. -/
theorem openIndex_cases (values : List Term) (depth i : Nat) :
    (∃ j, openIndex values depth i = bound j) ∨ openIndex values depth i ∈ values := by
  unfold openIndex
  split
  · exact .inl ⟨i, rfl⟩
  · cases hv : values[i - depth]? with
    | none => exact .inl ⟨i - values.length, rfl⟩
    | some t => exact .inr (List.mem_of_getElem? hv)

/-- Whether a term is an annotation. -/
def isAnn : Term → Bool
  | ann .. => true
  | _ => false

/-- An opened index is an index or an annotation. -/
theorem openIndex_of_isAnn {values : List Term} (hvalues : ∀ v ∈ values, v.isAnn = true)
    (depth i : Nat) :
    (∃ j, openIndex values depth i = bound j) ∨
      ∃ done e ty, openIndex values depth i = ann done e ty := by
  refine (openIndex_cases values depth i).imp_right fun hv => ?_
  -- the value that is put in is one of those given, and all of them are annotated
  have hann := hvalues _ hv
  generalize openIndex values depth i = v at hann ⊢
  cases v with
  | ann done e ty => exact ⟨done, e, ty, rfl⟩
  | _ => cases hann

/-! ## Free variables -/

/-- The identities of the free variables of a term, in order of occurrence. -/
def freeIds : Term → List VarId
  | bound _ | ref _ | typ => []
  | var x => [x.id]
  | all _ _ a b => a.freeIds ++ b.freeIds
  | lam _ _ b => b.freeIds
  | app f a _ => f.freeIds ++ a.freeIds
  | letIn _ _ e b => e.freeIds ++ b.freeIds
  | ann _ e t => e.freeIds ++ t.freeIds
  | loc _ e => e.freeIds

theorem freeIds_openAt {values : List Term} {id : VarId} {t : Term} {depth : Nat}
    (h : id ∈ (t.openAt values depth).freeIds) :
    id ∈ t.freeIds ∨ ∃ v ∈ values, id ∈ v.freeIds := by
  induction t generalizing depth with
  | bound i =>
    -- what was no variable of the term came in with a value
    rcases openIndex_cases values depth i with ⟨j, hj⟩ | hv
    · rw [openAt_bound, hj] at h
      cases h
    · exact .inr ⟨_, hv, h⟩
  | var | ref | typ => exact .inl h
  | lam _ _ _ ih => exact ih h
  | loc _ _ ih => exact ih h
  -- all nodes with two parts have the variables of the first and then of the second
  | all _ _ _ _ ih₁ ih₂ | app _ _ _ ih₁ ih₂ | letIn _ _ _ _ ih₁ ih₂ | ann _ _ _ ih₁ ih₂ =>
    rcases List.mem_append.1 h with h | h
    · exact (ih₁ h).imp_left fun h => List.mem_append.2 (.inl h)
    · exact (ih₂ h).imp_left fun h => List.mem_append.2 (.inr h)

/-- A variable of an opened scope comes from its body or from its values. -/
theorem freeIds_instantiate {args : List Term} {id : VarId} {body : Term}
    (h : id ∈ (body.instantiate args).freeIds) :
    id ∈ body.freeIds ∨ ∃ v ∈ args, id ∈ v.freeIds := by
  rw [instantiate_eq_openAt] at h
  rcases freeIds_openAt h with h | ⟨v, hv, h⟩
  · exact .inl h
  · exact .inr ⟨v, List.mem_reverse.1 hv, h⟩

theorem freeIds_unlocate (t : Term) : t.unlocate.freeIds = t.freeIds := by
  induction t with
  | bound | var | ref | typ => rfl
  | lam _ _ _ ih | loc _ _ ih => simp only [unlocate, freeIds, ih]
  | all _ _ _ _ ih₁ ih₂ | app _ _ _ ih₁ ih₂ | letIn _ _ _ _ ih₁ ih₂ | ann _ _ _ ih₁ ih₂ =>
    simp only [unlocate, freeIds, ih₁, ih₂]

/-! ## Renaming -/

/-- The term with other variables in the place of its free variables. -/
def rename (σ : Var → Var) : Term → Term
  | bound i => bound i
  | var x => var (σ x)
  | ref n => ref n
  | typ => typ
  | all s n a b => all s n (a.rename σ) (b.rename σ)
  | lam n er b => lam n er (b.rename σ)
  | app f a er => app (f.rename σ) (a.rename σ) er
  | letIn n d e b => letIn n d (e.rename σ) (b.rename σ)
  | ann d e t => ann d (e.rename σ) (t.rename σ)
  | loc s e => loc s (e.rename σ)

theorem rename_id (t : Term) : t.rename id = t := by
  induction t <;> simp_all [rename]

/-- Only what becomes of the free variables of the term matters. -/
theorem rename_congr {σ τ : Var → Var} {t : Term} (h : ∀ x, x.id ∈ t.freeIds → σ x = τ x) :
    t.rename σ = t.rename τ := by
  induction t with
  | bound | ref | typ => rfl
  | var x => simp only [rename, h x (List.mem_singleton.2 rfl)]
  | lam _ _ _ ih | loc _ _ ih => simp only [rename, ih h]
  | all _ _ _ _ ih₁ ih₂ | app _ _ _ ih₁ ih₂ | letIn _ _ _ _ ih₁ ih₂ | ann _ _ _ ih₁ ih₂ =>
    simp only [rename, ih₁ fun x hx => h x (List.mem_append.2 (.inl hx)),
      ih₂ fun x hx => h x (List.mem_append.2 (.inr hx))]

theorem rename_of_freeIds_eq_nil {t : Term} (h : t.freeIds = []) (σ : Var → Var) :
    t.rename σ = t := by
  calc
    t.rename σ = t.rename id := rename_congr fun x hx => by simp [h] at hx
    _ = t := t.rename_id

theorem rename_openIndex (σ : Var → Var) (values : List Term) (depth i : Nat) :
    (openIndex values depth i).rename σ = openIndex (values.map (rename σ)) depth i := by
  simp only [openIndex, List.getElem?_map, List.length_map]
  split
  · rfl
  · cases values[i - depth]? <;> rfl

theorem rename_openAt (σ : Var → Var) (values : List Term) (t : Term) (depth : Nat) :
    (t.openAt values depth).rename σ = (t.rename σ).openAt (values.map (rename σ)) depth := by
  induction t generalizing depth with
  | bound i => exact rename_openIndex σ values depth i
  | var | ref | typ => rfl
  | lam _ _ _ ih | loc _ _ ih => simp only [rename, openAt_lam, openAt_loc, ih]
  | all _ _ _ _ ih₁ ih₂ | app _ _ _ ih₁ ih₂ | letIn _ _ _ _ ih₁ ih₂ | ann _ _ _ ih₁ ih₂ =>
    simp only [rename, openAt_all, openAt_app, openAt_letIn, openAt_ann, ih₁, ih₂]

/-- Renaming passes through an opened scope. -/
theorem rename_instantiate (σ : Var → Var) (args : List Term) (body : Term) :
    (body.instantiate args).rename σ = (body.rename σ).instantiate (args.map (rename σ)) := by
  rw [instantiate_eq_openAt, rename_openAt, List.map_reverse, instantiate_eq_openAt]

end Term

/-- No type and no body of the table has a free variable. -/
def Table.IsVarFree (t : Table) : Prop :=
  ∀ d ∈ t.entries, d.ty.freeIds = [] ∧ d.body.freeIds = []

instance (t : Table) : Decidable t.IsVarFree :=
  inferInstanceAs (Decidable (∀ d ∈ t.entries, d.ty.freeIds = [] ∧ d.body.freeIds = []))

theorem Table.IsVarFree.body {t : Table} (h : t.IsVarFree) {n : DefName} {d : Definition}
    (hd : t.find? n = some d) : d.body.freeIds = [] :=
  (h d (List.mem_of_find?_eq_some hd)).2

end SelfTypes
