import SelfTypes.Proofs.Term.Copy
import SelfTypes.Proofs.Term.Substitution
import SelfTypes.Term.Printer

/-!
# Terms and tables without locations

Locations do not show when a term is printed (`Term.text_unlocate`), and a table keeps its names,
its closed terms and its free variables when it loses them. Terms that are copies of each other up
to locations print alike once their variables have the same names (`Term.Copy.text_rename`).
-/

namespace SelfTypes

/-! ## Printing -/

namespace Term

theorem isAtomic_unlocate (t : Term) : t.unlocate.isAtomic = t.isAtomic := by
  induction t with
  | loc _ _ ih => exact ih
  | _ => rfl

theorem doc_unlocate (indent : Int) (names : List BinderName) (t : Term) :
    t.unlocate.doc indent names = t.doc indent names := by
  induction t generalizing names with
  | bound | var | ref | typ => rfl
  | lam _ _ _ ih | loc _ _ ih => simp only [unlocate, doc, ih]
  | app f _ _ ih₁ ih₂ => simp only [unlocate, doc, f.isAtomic_unlocate, ih₁, ih₂]
  | all _ _ _ _ ih₁ ih₂ | letIn _ _ _ _ ih₁ ih₂ | ann _ _ _ ih₁ ih₂ =>
    simp only [unlocate, doc, ih₁, ih₂]

theorem text_unlocate (t : Term) : t.unlocate.text = t.text :=
  congrArg (Doc.render _) (doc_unlocate _ _ t)

theorem indexBound_unlocate (t : Term) : t.unlocate.indexBound = t.indexBound := by
  induction t with
  | bound | var | ref | typ => rfl
  | lam _ _ _ ih | loc _ _ ih => simp only [unlocate, indexBound, ih]
  | all _ _ _ _ ih₁ ih₂ | app _ _ _ ih₁ ih₂ | letIn _ _ _ _ ih₁ ih₂ | ann _ _ _ ih₁ ih₂ =>
    simp only [unlocate, indexBound, ih₁, ih₂]

theorem isPrintable_unlocate (t : Term) : t.unlocate.isPrintable = t.isPrintable := by
  simp only [isPrintable, indexBound_unlocate]

/-! ## Copies -/

namespace Copy

variable {L : Likeness} {ρ : VarRelation} {σ : Var → Var} {t t' : Term}

/-- Under a loose likeness, the right side may lose its locations. -/
theorem unlocate_right (hL : L.loose) (h : t.Copy L ρ t') : t.Copy L ρ t'.unlocate := by
  induction h with
  | bound i => exact .bound i
  | var h => exact .var h
  | ref h => exact .ref h
  | typ => exact .typ
  | all _ _ iha ihb => exact .all iha ihb
  | lam _ ih => exact .lam ih
  | app _ _ ihf iha => exact .app ihf iha
  | letIn _ _ ihe ihb => exact .letIn ihe ihb
  | ann _ _ ihe iht => exact .ann ihe iht
  -- the right side loses its location, and the one on the left is then without a counterpart
  | loc _ ih | locLeft _ _ ih => exact .locLeft hL ih
  | locRight _ _ ih => exact ih

/-- Under a loose likeness, the locations at the head do not matter. -/
theorem of_peel_left (hL : L.loose) (h : t.peel.Copy L ρ t') : t.Copy L ρ t' := by
  induction t with
  | loc _ _ ih => exact .locLeft hL (ih h)
  | _ => exact h

/-- Under a loose likeness, the right side may be given locations. -/
theorem of_unlocate_right (hL : L.loose) (h : t.Copy L ρ t'.unlocate) : t.Copy L ρ t' := by
  -- the right term is taken apart, as its locations are what is put back
  induction t' generalizing t with
  | bound | var | ref | typ => exact h
  | loc _ _ ih => exact .locRight hL (ih h)
  -- the left term may have locations around its head, which are passed over first
  | all _ _ _ _ ih₁ ih₂ =>
    refine .of_peel_left hL ?_
    have hnode := h.sameNode_peel
    generalize t.peel = u at hnode ⊢
    cases hnode with
    | all ha hb => exact .all (ih₁ ha) (ih₂ hb)
  | lam _ _ _ ih =>
    refine .of_peel_left hL ?_
    have hnode := h.sameNode_peel
    generalize t.peel = u at hnode ⊢
    cases hnode with
    | lam hb => exact .lam (ih hb)
  | app _ _ _ ih₁ ih₂ =>
    refine .of_peel_left hL ?_
    have hnode := h.sameNode_peel
    generalize t.peel = u at hnode ⊢
    cases hnode with
    | app hf ha => exact .app (ih₁ hf) (ih₂ ha)
  | letIn _ _ _ _ ih₁ ih₂ =>
    refine .of_peel_left hL ?_
    have hnode := h.sameNode_peel
    generalize t.peel = u at hnode ⊢
    cases hnode with
    | letIn he hb => exact .letIn (ih₁ he) (ih₂ hb)
  | ann _ _ _ ih₁ ih₂ =>
    refine .of_peel_left hL ?_
    have hnode := h.sameNode_peel
    generalize t.peel = u at hnode ⊢
    cases hnode with
    | ann he ht => exact .ann (ih₁ he) (ih₂ ht)

/-- Terms that are the same without their locations are copies of each other. -/
theorem of_unlocate_eq (hL : L.loose) (hknown : ∀ n, L.known n)
    (h : t.unlocate = t'.unlocate) : t.Copy L Eq t' := by
  have hself : t.Copy L Eq t := .refl (fun _ _ => rfl) fun n _ => hknown n
  have hunlocate := hself.unlocate_right hL
  rw [h] at hunlocate
  exact hunlocate.of_unlocate_right hL

theorem text_rename (hσ : ∀ x x', ρ x x' → σ x = x') (h : t.Copy L ρ t') :
    (t.rename σ).text = t'.text := by
  rw [← text_unlocate, h.unlocate_rename hσ, text_unlocate]

theorem isPrintable_rename (hσ : ∀ x x', ρ x x' → σ x = x') (h : t.Copy L ρ t') :
    (t.rename σ).isPrintable = t'.isPrintable := by
  rw [← isPrintable_unlocate, h.unlocate_rename hσ, isPrintable_unlocate]

end Copy

end Term

/-! ## Definitions and tables -/

/-- The definition with a type and a body that have lost their locations. -/
def Definition.unlocate (d : Definition) : Definition where
  name := d.name
  ty := d.ty.unlocate
  body := d.body.unlocate

namespace Table

/-- The table with types and bodies that have lost their locations. -/
def unlocate (table : Table) : Table where
  entries := table.entries.map Definition.unlocate
  nodup := by
    rw [List.map_map]
    exact table.nodup

variable {table : Table}

theorem find?_unlocate (table : Table) (n : DefName) :
    table.unlocate.find? n = (table.find? n).map Definition.unlocate :=
  List.find?_map

theorem IsVarFree.unlocate (h : table.IsVarFree) : table.unlocate.IsVarFree := by
  intro d hd
  obtain ⟨d₀, hd₀, rfl⟩ := List.mem_map.1 hd
  exact ⟨(Term.freeIds_unlocate _).trans (h d₀ hd₀).1, (Term.freeIds_unlocate _).trans (h d₀ hd₀).2⟩

theorem IsLocallyClosed.unlocate (h : table.IsLocallyClosed) : table.unlocate.IsLocallyClosed := by
  intro d hd
  obtain ⟨d₀, hd₀, rfl⟩ := List.mem_map.1 hd
  exact ⟨(h d₀ hd₀).1.unlocate, (h d₀ hd₀).2.unlocate⟩

end Table

end SelfTypes
