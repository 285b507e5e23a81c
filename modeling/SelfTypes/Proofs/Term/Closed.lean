import SelfTypes.Proofs.Term.FreeVariables
import SelfTypes.Term.Location

/-!
# Closed terms

A term is locally closed if none of its indices points out of it. Elaboration looks at the indices
of a term in places with content at run time only, not at those in types, so there is a weaker
notion for these, `Term.ContentClosedAt`. Opening a scope with closed values keeps it.
-/

namespace SelfTypes

namespace Term

/-! ## Closed below binders -/

/-- Every index of the term points to a binder of the term or to one of `depth` binders around. -/
def ClosedAt : (depth : Nat) → Term → Prop
  | depth, bound i => i < depth
  | _, var _ | _, ref _ | _, typ => True
  -- a self type binds itself and its parameter
  | depth, all _ _ a b => a.ClosedAt depth ∧ b.ClosedAt (depth + 2)
  | depth, lam _ _ b => b.ClosedAt (depth + 1)
  | depth, app f a _ => f.ClosedAt depth ∧ a.ClosedAt depth
  | depth, letIn _ _ e b => e.ClosedAt depth ∧ b.ClosedAt (depth + 1)
  | depth, ann _ e t => e.ClosedAt depth ∧ t.ClosedAt depth
  | depth, loc _ e => e.ClosedAt depth

instance decidableClosedAt : (depth : Nat) → (t : Term) → Decidable (t.ClosedAt depth)
  | depth, bound i => inferInstanceAs (Decidable (i < depth))
  | _, var _ | _, ref _ | _, typ => inferInstanceAs (Decidable True)
  | depth, all _ _ a b =>
    @instDecidableAnd _ _ (decidableClosedAt depth a) (decidableClosedAt (depth + 2) b)
  | depth, lam _ _ b => decidableClosedAt (depth + 1) b
  | depth, app f a _ =>
    @instDecidableAnd _ _ (decidableClosedAt depth f) (decidableClosedAt depth a)
  | depth, letIn _ _ e b =>
    @instDecidableAnd _ _ (decidableClosedAt depth e) (decidableClosedAt (depth + 1) b)
  | depth, ann _ e t =>
    @instDecidableAnd _ _ (decidableClosedAt depth e) (decidableClosedAt depth t)
  | depth, loc _ e => decidableClosedAt depth e

/-- No index of the term points out of it. -/
abbrev IsLocallyClosed (t : Term) : Prop :=
  t.ClosedAt 0

/-! ## Closed in places with content -/

/-- Every index that stands neither in a self type nor in the type of an annotation points to a
binder of the term or to one of `depth` binders around. -/
def ContentClosedAt : (depth : Nat) → Term → Prop
  | depth, bound i => i < depth
  | _, var _ | _, ref _ | _, typ | _, all .. => True
  | depth, lam _ _ b => b.ContentClosedAt (depth + 1)
  | depth, app f a _ => f.ContentClosedAt depth ∧ a.ContentClosedAt depth
  | depth, letIn _ _ e b => e.ContentClosedAt depth ∧ b.ContentClosedAt (depth + 1)
  | depth, ann _ e _ => e.ContentClosedAt depth
  | depth, loc _ e => e.ContentClosedAt depth

theorem ClosedAt.content {t : Term} {depth : Nat} (h : t.ClosedAt depth) :
    t.ContentClosedAt depth := by
  induction t generalizing depth with
  | bound => exact h
  | var | ref | typ | all => trivial
  | lam _ _ _ ih | loc _ _ ih => exact ih h
  | app _ _ _ ih₁ ih₂ | letIn _ _ _ _ ih₁ ih₂ => exact ⟨ih₁ h.1, ih₂ h.2⟩
  | ann _ _ _ ih => exact ih h.1

namespace ContentClosedAt

variable {t : Term} {depth depth' : Nat}

theorem mono (h : t.ContentClosedAt depth) (hle : depth ≤ depth') :
    t.ContentClosedAt depth' := by
  induction t generalizing depth depth' with
  | bound => exact Nat.lt_of_lt_of_le h hle
  | var | ref | typ | all => trivial
  | lam _ _ _ ih => exact ih h (Nat.succ_le_succ hle)
  | app _ _ _ ih₁ ih₂ => exact ⟨ih₁ h.1 hle, ih₂ h.2 hle⟩
  | letIn _ _ _ _ ih₁ ih₂ => exact ⟨ih₁ h.1 hle, ih₂ h.2 (Nat.succ_le_succ hle)⟩
  | ann _ _ _ ih | loc _ _ ih => exact ih h hle

theorem unlocate (h : t.ContentClosedAt depth) : t.unlocate.ContentClosedAt depth := by
  induction t generalizing depth with
  | bound => exact h
  | var | ref | typ | all => trivial
  | lam _ _ _ ih | ann _ _ _ ih | loc _ _ ih => exact ih h
  | app _ _ _ ih₁ ih₂ | letIn _ _ _ _ ih₁ ih₂ => exact ⟨ih₁ h.1, ih₂ h.2⟩

theorem openIndex {values : List Term} {i : Nat} (hi : i < depth + values.length)
    (hvalues : ∀ v ∈ values, v.ContentClosedAt 0) :
    (openIndex values depth i).ContentClosedAt depth := by
  unfold Term.openIndex
  split
  · assumption
  · have hlt : i - depth < values.length := by omega
    -- there is a value for the index, and it is closed, so the depth does not matter
    rw [List.getElem?_eq_getElem hlt]
    exact (hvalues _ (List.getElem_mem hlt)).mono (Nat.zero_le depth)

/-- Opening a scope with closed values closes its body. -/
theorem openAt {values : List Term} (h : t.ContentClosedAt (depth + values.length))
    (hvalues : ∀ v ∈ values, v.ContentClosedAt 0) :
    (t.openAt values depth).ContentClosedAt depth := by
  induction t generalizing depth with
  | bound i => exact openIndex h hvalues
  | var | ref | typ | all => trivial
  | lam _ _ _ ih =>
    refine ih (?_ : ContentClosedAt _ _)
    -- the binder counts for the depth and not for the values
    rw [Nat.add_right_comm]
    exact h
  | letIn _ _ _ _ ih₁ ih₂ =>
    refine ⟨ih₁ h.1, ih₂ (?_ : ContentClosedAt _ _)⟩
    rw [Nat.add_right_comm]
    exact h.2
  | app _ _ _ ih₁ ih₂ => exact ⟨ih₁ h.1, ih₂ h.2⟩
  | ann _ _ _ ih | loc _ _ ih => exact ih h

/-- The body of a binder, opened with a closed value, is closed. -/
theorem instantiate {v : Term} (h : t.ContentClosedAt 1) (hv : v.ContentClosedAt 0) :
    (t.instantiate [v]).ContentClosedAt 0 := by
  refine openAt h fun u hu => ?_
  rw [List.mem_singleton.1 hu]
  exact hv

end ContentClosedAt

end Term

/-- All types and bodies of the table are locally closed. -/
def Table.IsLocallyClosed (t : Table) : Prop :=
  ∀ d ∈ t.entries, d.ty.IsLocallyClosed ∧ d.body.IsLocallyClosed

instance (t : Table) : Decidable t.IsLocallyClosed :=
  inferInstanceAs (Decidable (∀ d ∈ t.entries, d.ty.IsLocallyClosed ∧ d.body.IsLocallyClosed))

theorem Table.IsLocallyClosed.body {t : Table} (h : t.IsLocallyClosed) {n : DefName}
    {d : Definition} (hd : t.find? n = some d) : d.body.IsLocallyClosed :=
  (h d (List.mem_of_find?_eq_some hd)).2

end SelfTypes
