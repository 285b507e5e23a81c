import Mathlib.Data.List.Nodup
import SelfTypes.Proofs.Term.Content
import SelfTypes.Proofs.Term.Reading

/-!
# Names of binders

Code refers to binders by name, so no binder of a term may have the name of one around it.
`Term.Unshadowed` says this of a term as elaboration meets it, with the values of local definitions
in the places of their variables, and so below other binders than where they were defined. Main
statements: `unshadowed_instantiate`, by which opening a scope with the stand-in of its variable
keeps it, and `unshadowed_of_nodup`, by which distinct names are enough for it at the start.
-/

namespace SelfTypes

namespace Term

/-! ## Names in reach -/

/-- No binder of the term has the name of one around it. The names of the binders `above` the term
are listed, and `around` says of each bound variable, innermost first, what is asked of the names
above an occurrence: nothing, unless a value is to take its place. -/
def Unshadowed : (around : List (List BinderName → Prop)) → (above : List BinderName) → Term → Prop
  | around, above, bound i => around.getD i (fun _ => True) above
  | _, _, var _ | _, _, ref _ | _, _, typ | _, _, all .. => True
  | around, above, lam n _ b => n ∉ above ∧ b.Unshadowed ((fun _ => True) :: around) (n :: above)
  | around, above, app f a _ => f.Unshadowed around above ∧ a.Unshadowed around above
  | around, above, letIn n dup e b =>
    n ∉ above ∧ e.Unshadowed around above ∧
      b.Unshadowed ((fun above => dup = false → e.Unshadowed around above) :: around) (n :: above)
  | around, above, ann _ e _ => e.Unshadowed around above
  | around, above, loc _ e => e.Unshadowed around above

/-- What a term asks of the names above it, as a reading. -/
def shadowing : Reading (List BinderName) Prop where
  unbound := True
  var _ _ := True
  other := True
  lam n _ above b := n ∉ above ∧ b
  param _ _ _ _ := True
  belowLam n _ above := n :: above
  app _ f a := f ∧ a
  letIn n _ above e b := n ∉ above ∧ e ∧ b
  defined _ dup _ e above := dup = false → e above
  belowLet n _ above := n :: above
  ann e := e
  loc e := e

theorem unshadowed_eq_read (around : List (List BinderName → Prop)) (above : List BinderName)
    (t : Term) : t.Unshadowed around above = shadowing.read around above t := by
  induction t generalizing around above with
  | bound | var | ref | typ | all => rfl
  | lam _ _ _ ih => simp only [Unshadowed, ih, Reading.read, shadowing]
  | app _ _ _ ih₁ ih₂ | letIn _ _ _ _ ih₁ ih₂ =>
    simp only [Unshadowed, ih₁, ih₂, Reading.read, shadowing]
  | ann _ _ _ ih | loc _ _ ih => exact ih around above

/-- A scope that is opened with a closed value counts as one whose variable has the demand of the
value. -/
theorem unshadowed_instantiate {v : Term} (hv : v.ContentClosedAt 0)
    {demand : List BinderName → Prop} (hdemand : ∀ above, demand above ↔ v.Unshadowed [] above)
    (body : Term) (above : List BinderName) :
    (body.instantiate [v]).Unshadowed [] above ↔ body.Unshadowed [demand] above := by
  have heq : demand = fun above => shadowing.read [] above v :=
    funext fun above => propext ((hdemand above).trans (Iff.of_eq (unshadowed_eq_read [] above v)))
  rw [unshadowed_eq_read, unshadowed_eq_read, heq]
  exact Iff.of_eq (shadowing.read_instantiate hv body above)

/-! ## Distinct names -/

/-- The names of the binders in places with content. -/
def contentBinders (t : Term) : List BinderName :=
  t.gather (fun _ => []) (fun _ => []) fun n => [n]

/-- Nothing is asked for that these names do not meet, wherever they are above an occurrence. -/
def MetBy (around : List (List BinderName → Prop)) (names : List BinderName) : Prop :=
  ∀ i, ∀ above ⊆ names, around.getD i (fun _ => True) above

section MetBy

variable {around : List (List BinderName → Prop)} {names names' : List BinderName}

theorem MetBy.mono (h : MetBy around names) (hsub : names' ⊆ names) : MetBy around names' :=
  fun i above habove => h i above fun _ hn => hsub (habove hn)

theorem MetBy.cons {p : List BinderName → Prop} (h : MetBy around names)
    (hp : ∀ above ⊆ names, p above) : MetBy (p :: around) names := by
  intro i above habove
  cases i with
  | zero => exact hp above habove
  | succ i => exact h i above habove

end MetBy

/-- A term whose binders have distinct names, other than those above, has no binder with the name of
one around it. -/
theorem unshadowed_of_nodup {t : Term} {around : List (List BinderName → Prop)}
    {above : List BinderName} (hnodup : t.contentBinders.Nodup)
    (habove : t.contentBinders.Disjoint above)
    (haround : MetBy around (above ++ t.contentBinders)) : t.Unshadowed around above := by
  -- a binder that is passed moves from the names of the term to those above it, so there are no new
  -- names for the demands to meet
  induction t generalizing around above with
  -- what is demanded of an index is met by the names above it
  | bound i => exact haround i above (List.subset_append_left above _)
  | var | ref | typ | all => trivial
  | lam n _ b ih =>
    obtain ⟨hn, hb⟩ := List.nodup_cons.1 hnodup
    obtain ⟨hnabove, hbabove⟩ := List.disjoint_cons_left.1 habove
    have hsub : n :: above ++ b.contentBinders ⊆ above ++ (n :: b.contentBinders) := by
      grind
    have hbelow : MetBy ((fun _ => True) :: around) (n :: above ++ b.contentBinders) :=
      (haround.mono hsub).cons fun _ _ => trivial
    exact ⟨hnabove, ih hb (List.disjoint_cons_right.2 ⟨hn, hbabove⟩) hbelow⟩
  | app f a _ ih₁ ih₂ =>
    -- both parts keep the names of the whole above them
    obtain ⟨hf, ha, -⟩ := List.nodup_append'.1 hnodup
    obtain ⟨hfabove, haabove⟩ := List.disjoint_append_left.1 habove
    have hfsub : above ++ f.contentBinders ⊆ above ++ (f.contentBinders ++ a.contentBinders) := by
      grind
    have hasub : above ++ a.contentBinders ⊆ above ++ (f.contentBinders ++ a.contentBinders) := by
      grind
    exact ⟨ih₁ hf hfabove (haround.mono hfsub), ih₂ ha haabove (haround.mono hasub)⟩
  | letIn n dup e b ih₁ ih₂ =>
    obtain ⟨hen, hb, hdisjoint⟩ := List.nodup_append'.1 hnodup
    obtain ⟨he, -, hne⟩ := List.nodup_append'.1 hen
    obtain ⟨hebody, hnbody⟩ := List.disjoint_append_left.1 hdisjoint
    obtain ⟨henabove, hbabove⟩ := List.disjoint_append_left.1 habove
    obtain ⟨heabove, hnabove⟩ := List.disjoint_append_left.1 henabove
    -- the value may stand below binders of the body, whose names it does not have
    have hvalue : ∀ above' ⊆ n :: above ++ b.contentBinders, e.Unshadowed around above' := by
      intro above' hsub
      have heabove' : e.contentBinders.Disjoint above' := by
        refine List.disjoint_of_subset_right hsub ?_
        exact List.disjoint_append_right.2
          ⟨List.disjoint_cons_right.2 ⟨fun hn => hne hn List.mem_cons_self, heabove⟩, hebody⟩
      refine ih₁ he heabove' (haround.mono ?_)
      simp only [contentBinders, gather] at hsub ⊢
      grind
    have hbelow : n :: above ++ b.contentBinders ⊆ above ++ (letIn n dup e b).contentBinders := by
      simp only [contentBinders, gather]
      grind
    have hnb : b.contentBinders.Disjoint (n :: above) :=
      List.disjoint_cons_right.2 ⟨fun hn => hnbody List.mem_cons_self hn, hbabove⟩
    refine ⟨fun hn => hnabove List.mem_cons_self hn, hvalue above ?_,
      ih₂ hb hnb ((haround.mono hbelow).cons fun above' hsub _ => hvalue above' hsub)⟩
    grind
  | ann _ _ _ ih | loc _ _ ih => exact ih hnodup habove haround

/-- The names of all binders of a term, those in types and those of self types included. -/
def binders : Term → List BinderName
  | bound _ | var _ | ref _ | typ => []
  | all s n a b => s :: n :: (a.binders ++ b.binders)
  | lam n _ b => n :: b.binders
  | app f a _ => f.binders ++ a.binders
  | letIn n _ e b => e.binders ++ [n] ++ b.binders
  | ann _ e t => e.binders ++ t.binders
  | loc _ e => e.binders

theorem contentBinders_sublist (t : Term) : t.contentBinders.Sublist t.binders := by
  unfold contentBinders
  induction t with
  | bound | var | ref | typ | all => exact List.nil_sublist _
  | lam _ _ _ ih => exact ih.cons_cons _
  | app _ _ _ ih₁ ih₂ => exact ih₁.append ih₂
  | letIn _ _ _ _ ih₁ ih₂ => exact (ih₁.append (.refl _)).append ih₂
  | ann _ _ t ih => exact ih.trans (List.sublist_append_left _ t.binders)
  | loc _ _ ih => exact ih

end Term

/-- The names of all binders in a table. -/
def Table.binders (t : Table) : List BinderName :=
  t.entries.flatMap fun d => d.ty.binders ++ d.body.binders

/-- In a table whose binders have distinct names, those of a body are distinct. -/
theorem Table.nodup_contentBinders {t : Table} (h : t.binders.Nodup) {n : DefName}
    {d : Definition} (hd : t.find? n = some d) : d.body.contentBinders.Nodup := by
  have hentry := (List.nodup_flatMap.1 h).1 d (List.mem_of_find?_eq_some hd)
  exact hentry.sublist (d.body.contentBinders_sublist.trans (List.sublist_append_right _ _))

end SelfTypes
