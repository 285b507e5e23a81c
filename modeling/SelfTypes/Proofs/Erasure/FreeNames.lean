import SelfTypes.Proofs.Code.Evaluation
import SelfTypes.Proofs.Erasure.Elaboration

/-!
# Names without a binder

An erased parameter leaves no binder behind, but an occurrence of it in a place with content is
still compiled to its name. `Term.looseNames` lists these names, and nothing else is free in code.
Main statement: `Elaborator.freeNames_subset_looseNames`. So a definition is compiled to closed code
if it does not use the parameters that it erases, and need not be if it does.
-/

namespace SelfTypes

namespace Term

/-! ## Loose names -/

/-- The names that the term leaves without a binder: those of its free variables, and those of the
erased parameters that it refers to in places with content. `around` says of each bound variable,
innermost first, which names an occurrence of it leaves loose. -/
def looseNames : (around : List (List BinderName)) → Term → List BinderName
  | around, bound i => around.getD i []
  | _, var x => [x.name]
  | _, ref _ | _, typ | _, all .. => []
  | around, lam n er b => b.looseNames ((if er then [n] else []) :: around)
  | around, app f a er => f.looseNames around ++ if er then [] else a.looseNames around
  | around, letIn _ dup e b =>
    if dup then e.looseNames around ++ b.looseNames ([] :: around)
    else b.looseNames (e.looseNames around :: around)
  | around, ann _ e _ => e.looseNames around
  | around, loc _ e => e.looseNames around

/-- The loose names as a reading, without a state. -/
def loosening : Reading Unit (List BinderName) where
  unbound := []
  var x _ := [x.name]
  other := []
  lam _ _ _ b := b
  param n er _ _ := if er then [n] else []
  belowLam _ _ _ := ()
  app er f a := f ++ if er then [] else a
  letIn _ dup _ e b := if dup then e ++ b else b
  defined _ dup _ e _ := if dup then [] else e ()
  belowLet _ _ _ := ()
  ann e := e
  loc e := e

theorem looseNames_eq_read (around : List (List BinderName)) (t : Term) :
    t.looseNames around = loosening.read (around.map fun ns _ => ns) () t := by
  induction t generalizing around with
  | bound i =>
    -- an index that no binder accounts for says nothing, as the default of the lookup does
    simp only [looseNames, Reading.read, Reading.said, List.getD_eq_getElem?_getD,
      List.getElem?_map]
    cases around[i]? <;> rfl
  | var | ref | typ | all => rfl
  | lam _ _ _ ih | ann _ _ _ ih | loc _ _ ih => exact ih _
  | app _ _ _ ih₁ ih₂ => simp only [looseNames, ih₁, ih₂, Reading.read, loosening]
  | letIn _ dup _ _ ih₁ ih₂ =>
    cases dup <;>
      simp only [looseNames, ih₁, ih₂, Reading.read, List.map_cons, loosening, if_true,
        Bool.false_eq_true, if_false]

/-- A name stays loose if more names are. -/
theorem loosening_respects (m : BinderName) :
    loosening.Respects fun ns ns' => m ∈ ns → m ∈ ns' where
  refl _ := id
  lam _ _ _ _ _ h := h
  app er _ _ _ _ hf ha := by
    -- an erased argument is not looked into
    cases er with
    | true => simpa [loosening] using hf
    | false => exact fun hm => List.mem_append.2 ((List.mem_append.1 hm).imp hf ha)
  letIn _ dup _ _ _ _ _ he hb := by
    cases dup with
    -- a value that is not shared is only there through its uses
    | true => exact fun hm => List.mem_append.2 ((List.mem_append.1 hm).imp he hb)
    | false => exact hb
  defined _ dup _ _ _ h _ := by
    cases dup with
    | true => exact id
    | false => exact h ()
  ann h := h
  loc h := h

theorem looseNames_instantiate {v : Term} (hv : v.ContentClosedAt 0) (body : Term) :
    (body.instantiate [v]).looseNames [] = body.looseNames [v.looseNames []] := by
  simp only [looseNames_eq_read]
  exact loosening.read_instantiate hv body ()

/-- A parameter leaves its name loose in an opened body. -/
theorem looseNames_instantiate_placeholder (name : BinderName) (b : Term) :
    (b.instantiate [placeholder name]).looseNames [] = b.looseNames [[name]] :=
  looseNames_instantiate (v := placeholder name) trivial b

/-- Other names than that of the parameter were loose before the body was opened. -/
theorem mem_looseNames_of_placeholder {m name : BinderName} {b : Term} (hb : b.ContentClosedAt 1)
    (h : m ∈ (b.instantiate [placeholder name]).looseNames []) (hne : m ≠ name) :
    m ∈ b.looseNames [[]] := by
  rw [looseNames_instantiate_placeholder, looseNames_eq_read] at h
  rw [looseNames_eq_read]
  refine (loosening_respects m).read hb (fun i hi _ hm => ?_) () h
  cases Nat.lt_one_iff.1 hi
  exact absurd (List.mem_singleton.1 hm) hne

theorem looseNames_unlocate (t : Term) (around : List (List BinderName)) :
    t.unlocate.looseNames around = t.looseNames around := by
  simp only [looseNames_eq_read]
  exact loosening.read_unlocate (fun _ => rfl) _ () t

end Term

/-! ## Free names of code -/

theorem Code.freeNames_unmarked (c : Code) : c.unmarked.freeNames = c.freeNames := by
  induction c with
  | var | ref | nul | chr | str => rfl
  | lam _ _ ih => simp only [unmarked, freeNames, ih]
  | app _ _ ih₁ ih₂ | letIn _ _ _ ih₁ ih₂ => simp only [unmarked, freeNames, ih₁, ih₂]
  | elim _ _ ih | inst _ _ ih => exact ih

/-- What is free in an erasure of a closed term is loose in the term. -/
theorem Term.Erases.mem_looseNames {lossy : Bool} {p : Position} {t : Term} {c : Code}
    (h : Erases lossy p t c) (ht : t.ContentClosedAt 0) {m : BinderName}
    (hm : m ∈ c.freeNames) : m ∈ t.looseNames [] := by
  induction h with
  | dropped | char | string | typ | all | ref => cases hm
  | var => exact hm
  | lam _ ih =>
    obtain ⟨hm, hne⟩ := Code.mem_freeNames_lam.1 hm
    exact mem_looseNames_of_placeholder ht
      (ih (contentClosed_instantiate_placeholder _ ht) hm) hne
  | erasedLam _ ih =>
    -- the binder is gone, and its name may be left behind
    have hbody := ih (contentClosed_instantiate_placeholder _ ht) hm
    rwa [looseNames_instantiate_placeholder] at hbody
  | app _ _ _ ihf iha =>
    rcases Code.mem_freeNames_app.1 hm with hm | hm
    · exact List.mem_append.2 (.inl (ihf ht.1 hm))
    · exact List.mem_append.2 (.inr (iha ht.2 hm))
  | erasedApp _ ih => exact List.mem_append.2 (.inl (ih ht.1 hm))
  | shared _ _ ihe ihb =>
    rcases Code.mem_freeNames_letIn.1 hm with hm | ⟨hm, hne⟩
    -- the name is of the value, or of the body without the binder
    · exact List.mem_append.2 (.inl (ihe ht.1 hm))
    · have hbody := ihb (contentClosed_instantiate_placeholder _ ht.2) hm
      exact List.mem_append.2 (.inr (mem_looseNames_of_placeholder ht.2 hbody hne))
  -- the value itself is put into the body, with its names
  | @inlined _ _ e _ _ _ ih =>
    have hv : (Term.ann true e .typ).ContentClosedAt 0 := ht.1
    have hbody := ih (ht.2.instantiate hv) hm
    rwa [looseNames_instantiate hv] at hbody
  | ann _ ih | loc _ ih => exact ih ht hm

/-! ## Definitions -/

namespace Elaborator

/-- Nothing is free in the code of a definition but the names that its body leaves loose, so the
code is closed if there are none. -/
theorem freeNames_subset_looseNames {env : Environment} (htable : env.table.IsLocallyClosed)
    {depth : Nat} {name : DefName} {e e' : Elaborator} {code : Code}
    (h : definition env depth name e = .ok code e') :
    ∃ d, env.table.find? name = some d ∧ code.freeNames ⊆ d.body.looseNames [] := by
  obtain ⟨d, ty, hd, hderives⟩ := derives_of_definition h
  refine ⟨d, hd, fun m hm => ?_⟩
  have herases : d.body.unlocate.Erases true .checked code.unmarked := hderives.erases
  rw [← Code.freeNames_unmarked] at hm
  have hloose := herases.mem_looseNames (htable.body hd).content.unlocate hm
  rwa [Term.looseNames_unlocate] at hloose

/-- A function that returns its erased parameter, and one that does not use it. -/
def erasing : Table :=
  .ofList
    [⟨"Endo", .typ, .pi "x" .typ .typ⟩,
     ⟨"leaks", .pi "x" (.ref "Endo") (.ref "Endo"), .lam "x" true (.bound 0)⟩,
     ⟨"keeps", .pi "x" .typ (.pi "y" (.ref "Endo") (.ref "Endo")),
      .lam "x" true (.lam "y" false (.bound 0))⟩]

/-- Closed definitions without variables need not have closed code: what returns its erased
parameter is compiled to the name of the parameter. -/
theorem leaks_free_name :
    erasing.IsLocallyClosed ∧ erasing.IsVarFree ∧
      ∃ e', definition ⟨erasing, true⟩ 8 "leaks" (.start ⟨0, 0⟩ none) = .ok (.var "x") e' ∧
        (Code.var "x").freeNames = ["x"] := by
  obtain ⟨e', h⟩ := EStateM.Result.exists_ok_of_value?
    (r := definition ⟨erasing, true⟩ 8 "leaks" (.start ⟨0, 0⟩ none)) (a := .var "x")
    (by decide +kernel)
  exact ⟨by decide, by decide, e', h, rfl⟩

/-- The parameter that is not used leaves nothing behind. -/
theorem keeps_no_free_name :
    erasing.IsLocallyClosed ∧
      ∃ d code e', definition ⟨erasing, true⟩ 8 "keeps" (.start ⟨0, 0⟩ none) = .ok code e' ∧
        erasing.find? "keeps" = some d ∧ code.freeNames ⊆ d.body.looseNames [] ∧
          d.body.looseNames [] = [] := by
  have htable : erasing.IsLocallyClosed := by decide
  obtain ⟨e', h⟩ := EStateM.Result.exists_ok_of_value?
    (r := definition ⟨erasing, true⟩ 8 "keeps" (.start ⟨0, 0⟩ none))
    (a := .lam "y" (.var "y")) (by decide +kernel)
  obtain ⟨d, hd, hsubset⟩ := freeNames_subset_looseNames htable h
  -- the lookup is computed, and so is the list of names
  refine ⟨htable, d, _, e', h, hd, hsubset, ?_⟩
  cases hd
  rfl

end Elaborator

end SelfTypes
