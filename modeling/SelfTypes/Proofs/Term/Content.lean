import SelfTypes.Dependency
import SelfTypes.Proofs.Term.FreeVariables
import SelfTypes.Term.Location

/-!
# What stands in places with content

Elaboration looks at a term in places with content at run time, not in self types nor in the types
of annotations. `Term.gather` collects what variables, references and binders contribute in such
places. Main statement: `mem_gather_instantiate`, by which an opened scope has nothing that is
neither in its body nor in its values.
-/

namespace SelfTypes.Term

variable {α : Type} (onVar : Var → List α) (onRef : DefName → List α)
  (onBinder : BinderName → List α)

/-- What variables, references and binders contribute in places with content. -/
def gather : Term → List α
  | bound _ | typ | all .. => []
  | var x => onVar x
  | ref n => onRef n
  | lam n _ b => onBinder n ++ b.gather
  | app f a _ => f.gather ++ a.gather
  | letIn n _ e b => e.gather ++ onBinder n ++ b.gather
  | ann _ e _ => e.gather
  | loc _ e => e.gather

variable {onVar onRef onBinder} {x : α}

theorem mem_gather_openAt {values : List Term} {t : Term} {depth : Nat}
    (h : x ∈ (t.openAt values depth).gather onVar onRef onBinder) :
    x ∈ t.gather onVar onRef onBinder ∨ ∃ v ∈ values, x ∈ v.gather onVar onRef onBinder := by
  induction t generalizing depth with
  | bound i =>
    -- an opened index has content only if a value takes its place
    rcases openIndex_cases values depth i with ⟨j, hj⟩ | hv
    · rw [openAt_bound, hj] at h
      cases h
    · exact .inr ⟨_, hv, h⟩
  | var | ref | typ | all => exact .inl h
  | ann _ _ _ ih | loc _ _ ih => exact ih h
  -- the binder itself is gathered before its body
  | lam n _ _ ih =>
    rcases List.mem_append.1 h with h | h
    · exact .inl (List.mem_append.2 (.inl h))
    · exact (ih h).imp_left fun h => List.mem_append.2 (.inr h)
  | app _ _ _ ih₁ ih₂ =>
    rcases List.mem_append.1 h with h | h
    · exact (ih₁ h).imp_left fun h => List.mem_append.2 (.inl h)
    · exact (ih₂ h).imp_left fun h => List.mem_append.2 (.inr h)
  | letIn n _ _ _ ih₁ ih₂ =>
    -- value, binder and body, in the order in which they are gathered
    rcases List.mem_append.1 h with h | h
    · rcases List.mem_append.1 h with h | h
      · exact (ih₁ h).imp_left fun h => List.mem_append.2 (.inl (List.mem_append.2 (.inl h)))
      · exact .inl (List.mem_append.2 (.inl (List.mem_append.2 (.inr h))))
    · exact (ih₂ h).imp_left fun h => List.mem_append.2 (.inr h)

/-- What an opened scope has in places with content comes from its body or from its values. -/
theorem mem_gather_instantiate {args : List Term} {body : Term}
    (h : x ∈ (body.instantiate args).gather onVar onRef onBinder) :
    x ∈ body.gather onVar onRef onBinder ∨ ∃ v ∈ args, x ∈ v.gather onVar onRef onBinder := by
  rw [instantiate_eq_openAt] at h
  rcases mem_gather_openAt h with h | ⟨v, hv, h⟩
  · exact .inl h
  · exact .inr ⟨v, List.mem_reverse.1 hv, h⟩

theorem gather_unlocate (t : Term) :
    t.unlocate.gather onVar onRef onBinder = t.gather onVar onRef onBinder := by
  induction t with
  | bound | var | ref | typ | all => rfl
  | lam _ _ _ ih | ann _ _ _ ih | loc _ _ ih => simp only [unlocate, gather, ih]
  | app _ _ _ ih₁ ih₂ | letIn _ _ _ _ ih₁ ih₂ => simp only [unlocate, gather, ih₁, ih₂]

/-! ## References and variables -/

/-- The dependencies of a term are its references in places with content. -/
theorem dependencies_eq_gather (t : Term) :
    t.dependencies = t.gather (fun _ => []) (fun n => [n]) fun _ => [] := by
  induction t with
  | bound | var | ref | typ | all => rfl
  | lam _ _ _ ih | ann _ _ _ ih | loc _ _ ih => exact ih
  | app _ _ _ ih₁ ih₂ => simp only [dependencies, gather, ih₁, ih₂]
  | letIn _ _ _ _ ih₁ ih₂ => simp only [dependencies, gather, ih₁, ih₂, List.append_nil]

/-- The variables of a term in places with content. -/
def contentVars (t : Term) : List Var :=
  t.gather (fun x => [x]) (fun _ => []) fun _ => []

theorem dependencies_instantiate {args : List Term} {body : Term} {n : DefName}
    (h : n ∈ (body.instantiate args).dependencies) :
    n ∈ body.dependencies ∨ ∃ v ∈ args, n ∈ v.dependencies := by
  simp only [dependencies_eq_gather] at h ⊢
  exact mem_gather_instantiate h

theorem dependencies_unlocate (t : Term) : t.unlocate.dependencies = t.dependencies := by
  simp only [dependencies_eq_gather, gather_unlocate]

/-- Variables in places with content are free variables. -/
theorem id_mem_freeIds_of_contentVars {t : Term} {x : Var} (h : x ∈ t.contentVars) :
    x.id ∈ t.freeIds := by
  unfold contentVars at h
  induction t with
  | bound | ref | typ | all => cases h
  | var y =>
    cases List.mem_singleton.1 h
    exact List.mem_singleton.2 rfl
  | lam _ _ _ ih | loc _ _ ih => exact ih h
  | ann _ _ _ ih => exact List.mem_append.2 (.inl (ih h))
  | app _ _ _ ih₁ ih₂ =>
    rcases List.mem_append.1 h with h | h
    · exact List.mem_append.2 (.inl (ih₁ h))
    · exact List.mem_append.2 (.inr (ih₂ h))
  | letIn _ _ _ _ ih₁ ih₂ =>
    -- binders are not asked for here, so the list for them is empty
    simp only [gather, List.append_nil] at h
    rcases List.mem_append.1 h with h | h
    · exact List.mem_append.2 (.inl (ih₁ h))
    · exact List.mem_append.2 (.inr (ih₂ h))

end SelfTypes.Term
