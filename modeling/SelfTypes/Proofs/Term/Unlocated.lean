import SelfTypes.Proofs.Term.Location

/-!
# Removing locations

`Term.unlocate` removes the locations of a term under binders and in types as well, and changes
nothing else: a term without locations stays as it is. Opening and closing a scope rebuild a term
from its leaves, and a term that is rebuilt so loses its locations as its leaves do
(`unlocate_mapLeaves`). Main statement: `unlocate_complete_homomorphism`.
-/

namespace SelfTypes.Term

/-! ## Places in the text -/

/-- The spans of the locations of a term, in types as well, from left to right and outermost
first. -/
def spans : Term → List Span
  | bound _ | var _ | ref _ | typ => []
  | all _ _ a b => a.spans ++ b.spans
  | lam _ _ b => b.spans
  | app f a _ => f.spans ++ a.spans
  | letIn _ _ e b => e.spans ++ b.spans
  | ann _ e t => e.spans ++ t.spans
  | loc s e => s :: e.spans

theorem spans_unlocate (t : Term) : t.unlocate.spans = [] := by
  induction t with
  | bound | var | ref | typ => rfl
  | lam _ _ _ ih | loc _ _ ih => exact ih
  | all _ _ _ _ ih₁ ih₂ | app _ _ _ ih₁ ih₂ | letIn _ _ _ _ ih₁ ih₂ | ann _ _ _ ih₁ ih₂ =>
    simp only [unlocate, spans, ih₁, ih₂, List.append_nil]

theorem unlocate_of_spans_eq_nil {t : Term} (h : t.spans = []) : t.unlocate = t := by
  induction t with
  | bound | var | ref | typ => rfl
  | loc => cases h
  | lam _ _ _ ih => rw [unlocate, ih h]
  | all _ _ _ _ ih₁ ih₂ | app _ _ _ ih₁ ih₂ | letIn _ _ _ _ ih₁ ih₂ | ann _ _ _ ih₁ ih₂ =>
    obtain ⟨h₁, h₂⟩ := List.append_eq_nil_iff.1 h
    rw [unlocate, ih₁ h₁, ih₂ h₂]

theorem unlocate_eq_self_iff {t : Term} : t.unlocate = t ↔ t.spans = [] :=
  ⟨fun h => h ▸ spans_unlocate t, unlocate_of_spans_eq_nil⟩

/-! ## Scopes -/

/-- A term that is rebuilt from its leaves loses its locations as the leaves do. -/
theorem unlocate_mapLeaves (onBound : Nat → Nat → Term) (onVar : Nat → Var → Term) (depth : Nat)
    (t : Term) :
    (mapLeaves onBound onVar depth t).unlocate =
      mapLeaves (fun d i => (onBound d i).unlocate) (fun d x => (onVar d x).unlocate) depth
        t.unlocate := by
  induction t generalizing depth with
  -- leaves have no locations of their own, and what they become is left to the two functions
  | bound | var | ref | typ => rfl
  | lam _ _ _ ih => simp only [mapLeaves, unlocate, ih]
  | loc _ _ ih => exact ih depth
  | all _ _ _ _ ih₁ ih₂ | app _ _ _ ih₁ ih₂ | letIn _ _ _ _ ih₁ ih₂ | ann _ _ _ ih₁ ih₂ =>
    simp only [mapLeaves, unlocate, ih₁, ih₂]

/-- What takes the place of an index loses its locations with the values that are put in. -/
theorem unlocate_openIndex (values : List Term) (depth i : Nat) :
    (openIndex values depth i).unlocate = openIndex (values.map unlocate) depth i := by
  simp only [openIndex, List.getElem?_map, List.length_map]
  split
  · rfl
  · cases values[i - depth]? <;> rfl

theorem unlocate_closeIndex (arity depth i : Nat) :
    (closeIndex arity depth i).unlocate = closeIndex arity depth i := by
  unfold closeIndex
  split <;> rfl

theorem unlocate_closeVar (ids : List VarId) (depth : Nat) (x : Var) :
    (closeVar ids depth x).unlocate = closeVar ids depth x := by
  unfold closeVar
  split <;> rfl

theorem unlocate_instantiate (args : List Term) (body : Term) :
    (body.instantiate args).unlocate = body.unlocate.instantiate (args.map unlocate) := by
  simp only [instantiate, unlocate_mapLeaves, unlocate_openIndex, unlocate, List.map_reverse]

theorem unlocate_abstractOver (ids : List VarId) (body : Term) :
    (body.abstractOver ids).unlocate = body.unlocate.abstractOver ids := by
  simp only [abstractOver, unlocate_mapLeaves, unlocate_closeIndex, unlocate_closeVar]

theorem isInRange_unlocate (t : Term) : t.unlocate.isInRange = t.isInRange := by
  simp only [isInRange, indexBound_unlocate]

theorem unlocate_abstractOver? (ids : List VarId) (body : Term) :
    (body.abstractOver? ids).map unlocate = body.unlocate.abstractOver? ids := by
  simp only [abstractOver?, ← unlocate_abstractOver, isInRange_unlocate, Option.map_if]

/-- A term that has lost its locations has none at any depth, and loses nothing if they are removed
again; only terms without locations stay as they are. Locations can be removed from a scope and from
the values it is opened with before or after it is opened, and from a body before or after a scope
is closed around it, be it that the indices of the scope stay in range or that they do not. -/
theorem unlocate_complete_homomorphism (t : Term) :
    t.unlocate.spans = [] ∧ t.unlocate.unlocate = t.unlocate ∧ (t.unlocate = t ↔ t.spans = []) ∧
    (∀ args : List Term,
      (t.instantiate args).unlocate = t.unlocate.instantiate (args.map unlocate)) ∧
    ∀ ids : List VarId, (t.abstractOver ids).unlocate = t.unlocate.abstractOver ids ∧
      (t.abstractOver? ids).map unlocate = t.unlocate.abstractOver? ids := by
  -- the first three parts are about the term alone, the other two say what opening and closing do
  have hnone : t.unlocate.spans = [] := spans_unlocate t
  refine ⟨hnone, unlocate_of_spans_eq_nil hnone, unlocate_eq_self_iff, fun args => ?_,
    fun ids => ?_⟩
  · exact unlocate_instantiate args t
  · exact ⟨unlocate_abstractOver ids t, unlocate_abstractOver? ids t⟩

end SelfTypes.Term
