import Mathlib.Data.List.Forall2
import SelfTypes.Proofs.Erasure.Basic
import SelfTypes.Proofs.Term.Alike

/-!
# Copies of terms

Two runs on terms that correspond to each other take corresponding steps. How closely the terms have
to correspond depends on what is shown: a `Likeness` says whether the two sides may have different
locations and which globals they may refer to, and a relation between variables says which of the
variables that the runs have issued stand for each other. Under a strict likeness, copies of equal
terms are equal (`Copy.eq_iff`); under a loose one, copies are alike once they have lost their
locations (`Copy.unlocate`).

What a run elaborates corresponds more closely than the types it meets: `Parallel` terms have the
same locations in all places with content, and differ in types at most. Main statements:
`Copy.instantiate` and `Parallel.sameNode`.
-/

namespace SelfTypes

/-! ## Globals -/

namespace Term

/-- The globals that a term refers to, in types as well. -/
def globals : Term → List DefName
  | bound _ | var _ | typ => []
  | ref n => [n]
  | all _ _ a b => a.globals ++ b.globals
  | lam _ _ b => b.globals
  | app f a _ => f.globals ++ a.globals
  | letIn _ _ e b => e.globals ++ b.globals
  | ann _ e t => e.globals ++ t.globals
  | loc _ e => e.globals

end Term

/-! ## Likeness -/

/-- How closely terms have to correspond to each other. -/
structure Likeness where
  /-- Either side may have locations that the other does not have. -/
  loose : Prop := False
  /-- The globals that the terms may refer to. -/
  known : DefName → Prop := fun _ => True

/-- Variables of one run and those of another that stand for them. -/
abbrev VarRelation := Var → Var → Prop

/-- Different variables stand for different ones, and each is displayed under the same name. -/
structure Faithful (ρ : VarRelation) : Prop where
  id_eq_iff : ∀ {x x' y y' : Var}, ρ x x' → ρ y y' → (x.id = y.id ↔ x'.id = y'.id)
  name_eq : ∀ {x x' : Var}, ρ x x' → x.name = x'.name

namespace Faithful

variable {ρ : VarRelation}

/-- Variables that stand for themselves only. -/
theorem eq : Faithful Eq where
  id_eq_iff hx hy := by rw [hx, hy]
  name_eq hx := by rw [hx]

theorem flip (hρ : Faithful ρ) : Faithful fun x y => ρ y x where
  id_eq_iff hx hy := (hρ.id_eq_iff hx hy).symm
  name_eq hx := (hρ.name_eq hx).symm

/-- A variable is determined by the one that stands for it. -/
theorem unique (hρ : Faithful ρ) {x y z : Var} (hy : ρ x y) (hz : ρ x z) : y = z := by
  have hid := (hρ.id_eq_iff hy hz).1 rfl
  have hname := (hρ.name_eq hy).symm.trans (hρ.name_eq hz)
  cases y
  cases z
  cases hid
  cases hname
  rfl

theorem biUnique (hρ : Faithful ρ) : Relator.BiUnique ρ :=
  ⟨fun _ _ _ hx hy => hρ.flip.unique hx hy, fun _ _ _ hx hy => hρ.unique hx hy⟩

end Faithful

namespace Term

variable {L : Likeness} {ρ ρ' : VarRelation}

/-- The terms have the same nodes, with variables that stand for each other and globals that may be
referred to. Locations are nodes too, unless the likeness is loose. -/
inductive Copy (L : Likeness) (ρ : VarRelation) : Term → Term → Prop where
  | bound (i : Nat) : Copy L ρ (.bound i) (.bound i)
  | var {x x' : Var} : ρ x x' → Copy L ρ (.var x) (.var x')
  | ref {n : DefName} : L.known n → Copy L ρ (.ref n) (.ref n)
  | typ : Copy L ρ .typ .typ
  | all {s n : BinderName} {a a' b b' : Term} :
      Copy L ρ a a' → Copy L ρ b b' → Copy L ρ (.all s n a b) (.all s n a' b')
  | lam {n : BinderName} {er : Bool} {b b' : Term} :
      Copy L ρ b b' → Copy L ρ (.lam n er b) (.lam n er b')
  | app {f f' a a' : Term} {er : Bool} :
      Copy L ρ f f' → Copy L ρ a a' → Copy L ρ (.app f a er) (.app f' a' er)
  | letIn {n : BinderName} {dup : Bool} {e e' b b' : Term} :
      Copy L ρ e e' → Copy L ρ b b' → Copy L ρ (.letIn n dup e b) (.letIn n dup e' b')
  | ann {done : Bool} {e e' ty ty' : Term} :
      Copy L ρ e e' → Copy L ρ ty ty' → Copy L ρ (.ann done e ty) (.ann done e' ty')
  | loc {span : Span} {e e' : Term} : Copy L ρ e e' → Copy L ρ (.loc span e) (.loc span e')
  /-- A location that the other side does not have. -/
  | locLeft {span : Span} {e e' : Term} : L.loose → Copy L ρ e e' → Copy L ρ (.loc span e) e'
  | locRight {span : Span} {e e' : Term} : L.loose → Copy L ρ e e' → Copy L ρ e (.loc span e')

namespace Copy

variable {t t' : Term}

theorem symm (h : t.Copy L ρ t') : t'.Copy L (fun x y => ρ y x) t := by
  induction h with
  | bound i => exact .bound i
  | var h => exact .var h
  | ref h => exact .ref h
  | typ => exact .typ
  | all _ _ iha ihb => exact .all iha ihb
  | lam _ ih => exact .lam ih
  | app _ _ ihf iha => exact .app ihf iha
  | letIn _ _ ihe ihb => exact .letIn ihe ihb
  | ann _ _ ihe iht => exact .ann ihe iht
  | loc _ ih => exact .loc ih
  -- the location is on the other side when the two are exchanged
  | locLeft hL _ ih => exact .locRight hL ih
  | locRight hL _ ih => exact .locLeft hL ih

theorem mono (h : t.Copy L ρ t') (hρ : Subrelation ρ ρ') : t.Copy L ρ' t' := by
  induction h with
  | bound i => exact .bound i
  | var h => exact .var (hρ h)
  | ref h => exact .ref h
  | typ => exact .typ
  | all _ _ iha ihb => exact .all iha ihb
  | lam _ ih => exact .lam ih
  | app _ _ ihf iha => exact .app ihf iha
  | letIn _ _ ihe ihb => exact .letIn ihe ihb
  | ann _ _ ihe iht => exact .ann ihe iht
  | loc _ ih => exact .loc ih
  | locLeft hL _ ih => exact .locLeft hL ih
  | locRight hL _ ih => exact .locRight hL ih

/-- A term is a copy of itself if its variables stand for themselves. -/
theorem refl (hvar : ∀ x : Var, x.id ∈ t.freeIds → ρ x x) (href : ∀ n ∈ t.globals, L.known n) :
    t.Copy L ρ t := by
  -- what is asked of a term with two parts is asked of each part
  have hsides : ∀ {a b u : Term}, u.freeIds = a.freeIds ++ b.freeIds →
      u.globals = a.globals ++ b.globals → (∀ x : Var, x.id ∈ u.freeIds → ρ x x) →
      (∀ n ∈ u.globals, L.known n) →
      ((∀ x : Var, x.id ∈ a.freeIds → ρ x x) ∧ ∀ n ∈ a.globals, L.known n) ∧
        (∀ x : Var, x.id ∈ b.freeIds → ρ x x) ∧ ∀ n ∈ b.globals, L.known n := by
    intro a b u hids hglobals hvar href
    simp only [hids, hglobals, List.mem_append, or_imp, forall_and] at hvar href
    exact ⟨⟨hvar.1, href.1⟩, hvar.2, href.2⟩
  induction t with
  | bound i => exact .bound i
  | var x => exact .var (hvar x (List.mem_singleton.2 rfl))
  | ref n => exact .ref (href n (List.mem_singleton.2 rfl))
  | typ => exact .typ
  | lam _ _ _ ih => exact .lam (ih hvar href)
  | loc _ _ ih => exact .loc (ih hvar href)
  | all _ _ _ _ ih₁ ih₂ =>
    obtain ⟨h₁, h₂⟩ := hsides rfl rfl hvar href
    exact .all (ih₁ h₁.1 h₁.2) (ih₂ h₂.1 h₂.2)
  | app _ _ _ ih₁ ih₂ =>
    obtain ⟨h₁, h₂⟩ := hsides rfl rfl hvar href
    exact .app (ih₁ h₁.1 h₁.2) (ih₂ h₂.1 h₂.2)
  | letIn _ _ _ _ ih₁ ih₂ =>
    obtain ⟨h₁, h₂⟩ := hsides rfl rfl hvar href
    exact .letIn (ih₁ h₁.1 h₁.2) (ih₂ h₂.1 h₂.2)
  | ann _ _ _ ih₁ ih₂ =>
    obtain ⟨h₁, h₂⟩ := hsides rfl rfl hvar href
    exact .ann (ih₁ h₁.1 h₁.2) (ih₂ h₂.1 h₂.2)

/-! ### Scopes -/

theorem openIndex {values values' : List Term} (h : List.Forall₂ (Copy L ρ) values values')
    (depth i : Nat) :
    (Term.openIndex values depth i).Copy L ρ (Term.openIndex values' depth i) := by
  unfold Term.openIndex
  rw [h.length_eq]
  split
  · exact .bound i
  · have hvalue := Alike.rel_getElem? h (i - depth)
    -- as many values on both sides, so there is one for the index or none
    revert hvalue
    cases values[i - depth]? <;> cases values'[i - depth]? <;> intro hvalue <;> cases hvalue
    · exact .bound _
    · assumption

theorem openAt {values values' : List Term} (hvalues : List.Forall₂ (Copy L ρ) values values')
    (h : t.Copy L ρ t') (depth : Nat) :
    (t.openAt values depth).Copy L ρ (t'.openAt values' depth) := by
  induction h generalizing depth with
  | bound i => exact openIndex hvalues depth i
  | var h => exact .var h
  | ref h => exact .ref h
  | typ => exact .typ
  | all _ _ iha ihb => exact .all (iha depth) (ihb (depth + 2))
  | lam _ ih => exact .lam (ih (depth + 1))
  | app _ _ ihf iha => exact .app (ihf depth) (iha depth)
  | letIn _ _ ihe ihb => exact .letIn (ihe depth) (ihb (depth + 1))
  | ann _ _ ihe iht => exact .ann (ihe depth) (iht depth)
  | loc _ ih => exact .loc (ih depth)
  | locLeft hL _ ih => exact .locLeft hL (ih depth)
  | locRight hL _ ih => exact .locRight hL (ih depth)

/-- Copies of a scope, opened with copies of the values. -/
theorem instantiate {args args' : List Term} (h : t.Copy L ρ t')
    (hargs : List.Forall₂ (Copy L ρ) args args') :
    (t.instantiate args).Copy L ρ (t'.instantiate args') :=
  openAt (List.forall₂_reverse_iff.2 hargs) h 0

theorem instantiate_one {v v' : Term} (h : t.Copy L ρ t') (hv : v.Copy L ρ v') :
    (t.instantiate [v]).Copy L ρ (t'.instantiate [v']) :=
  h.instantiate (.cons hv .nil)

theorem instantiate_two {v v' : Term} (h : t.Copy L ρ t') (hu : u.Copy L ρ u')
    (hv : v.Copy L ρ v') : (t.instantiate [u, v]).Copy L ρ (t'.instantiate [u', v']) :=
  h.instantiate (.cons hu (.cons hv .nil))

/-! ### Locations -/

/-- Copies without locations differ in their variables only. -/
theorem unlocate (h : t.Copy L ρ t') : t.unlocate.Alike ρ t'.unlocate := by
  induction h with
  | bound i => exact .bound i
  | var h => exact .var h
  | ref h => exact .ref _
  | typ => exact .typ
  | all _ _ iha ihb => exact .all iha ihb
  | lam _ ih => exact .lam ih
  | app _ _ ihf iha => exact .app ihf iha
  | letIn _ _ ihe ihb => exact .letIn ihe ihb
  | ann _ _ ihe iht => exact .ann ihe iht
  | loc _ ih | locLeft _ _ ih | locRight _ _ ih => exact ih

/-- Copies are the same up to locations, once the variables on the left are those that stand for
them on the right. -/
theorem unlocate_rename {σ : Var → Var} (hσ : ∀ x x', ρ x x' → σ x = x') (h : t.Copy L ρ t') :
    (t.rename σ).unlocate = t'.unlocate := by
  induction h with
  | bound | ref | typ => rfl
  | var h => simp only [rename, Term.unlocate, hσ _ _ h]
  | all _ _ ih₁ ih₂ | app _ _ ih₁ ih₂ | letIn _ _ ih₁ ih₂ | ann _ _ ih₁ ih₂ =>
    simp only [rename, Term.unlocate, ih₁, ih₂]
  | lam _ ih | loc _ ih | locLeft _ _ ih => simp only [rename, Term.unlocate, ih]
  | locRight _ _ ih => exact ih

/-- Copies whose variables stand for themselves differ in locations only. -/
theorem unlocate_eq (h : t.Copy L ρ t') (hρ : ∀ {x x'}, ρ x x' → x = x') :
    t.unlocate = t'.unlocate := by
  have hrename : (t.rename id).unlocate = t'.unlocate := h.unlocate_rename fun _ _ hx => hρ hx
  rwa [rename_id] at hrename

/-- What is left of copies without their locations is elaborated in the same way. -/
theorem parallel_unlocate (hρ : Faithful ρ) (h : t.Copy L ρ t') :
    -- the names of variables agree, as the relation is faithful, and all else is copied as it is
    t.unlocate.Copy L ρ t'.unlocate ∧ t.unlocate.skeleton = t'.unlocate.skeleton := by
  induction h with
  | bound i => exact ⟨.bound i, rfl⟩
  | var h => exact ⟨.var h, by simp only [Term.unlocate, skeleton, hρ.name_eq h]⟩
  | ref h => exact ⟨.ref h, rfl⟩
  | typ => exact ⟨.typ, rfl⟩
  | all _ _ iha ihb => exact ⟨.all iha.1 ihb.1, rfl⟩
  | lam _ ih => exact ⟨.lam ih.1, by simp only [Term.unlocate, skeleton, ih.2]⟩
  | app _ _ ihf iha =>
    exact ⟨.app ihf.1 iha.1, by simp only [Term.unlocate, skeleton, ihf.2, iha.2]⟩
  | letIn _ _ ihe ihb =>
    exact ⟨.letIn ihe.1 ihb.1, by simp only [Term.unlocate, skeleton, ihe.2, ihb.2]⟩
  | ann _ _ ihe iht => exact ⟨.ann ihe.1 iht.1, by simp only [Term.unlocate, skeleton, ihe.2]⟩
  | loc _ ih | locLeft _ _ ih | locRight _ _ ih => exact ih

theorem peel (h : t.Copy L ρ t') : t.peel.Copy L ρ t'.peel := by
  induction h with
  | bound i => exact .bound i
  | var h => exact .var h
  | ref h => exact .ref h
  | typ => exact .typ
  | all ha hb => exact .all ha hb
  | lam hb => exact .lam hb
  | app hf ha => exact .app hf ha
  | letIn he hb => exact .letIn he hb
  | ann he ht => exact .ann he ht
  | loc _ ih | locLeft _ _ ih | locRight _ _ ih => exact ih

/-- Under a loose likeness, a location can be left out on either side. -/
theorem of_loc_left {span : Span} (hL : L.loose) (h : (Term.loc span t).Copy L ρ t') :
    t.Copy L ρ t' := by
  -- the copy may pass over locations of the right side before it comes to this one
  generalize hu : Term.loc span t = u at h
  induction h with
  | bound | var | ref | typ | all | lam | app | letIn | ann => cases hu
  | loc he =>
    cases hu
    exact .locRight hL he
  | locLeft _ he =>
    cases hu
    exact he
  | locRight _ _ ih => exact .locRight hL (ih hu)

theorem of_loc_right {span : Span} (hL : L.loose) (h : t.Copy L ρ (Term.loc span t')) :
    t.Copy L ρ t' :=
  (h.symm.of_loc_left hL).symm

end Copy

/-! ## Nodes -/

/-- The terms start with the same node; `part` relates what has content, and `type` relates
types. -/
inductive SameNode (L : Likeness) (ρ : VarRelation) (part type : Term → Term → Prop) :
    Term → Term → Prop where
  | bound (i : Nat) : SameNode L ρ part type (.bound i) (.bound i)
  | var {x x' : Var} : ρ x x' → SameNode L ρ part type (.var x) (.var x')
  | ref {n : DefName} : L.known n → SameNode L ρ part type (.ref n) (.ref n)
  | typ : SameNode L ρ part type .typ .typ
  | all {s n : BinderName} {a a' b b' : Term} :
      type a a' → type b b' → SameNode L ρ part type (.all s n a b) (.all s n a' b')
  | lam {n : BinderName} {er : Bool} {b b' : Term} :
      part b b' → SameNode L ρ part type (.lam n er b) (.lam n er b')
  | app {f f' a a' : Term} {er : Bool} :
      part f f' → part a a' → SameNode L ρ part type (.app f a er) (.app f' a' er)
  | letIn {n : BinderName} {dup : Bool} {e e' b b' : Term} :
      part e e' → part b b' → SameNode L ρ part type (.letIn n dup e b) (.letIn n dup e' b')
  | ann {done : Bool} {e e' ty ty' : Term} :
      part e e' → type ty ty' → SameNode L ρ part type (.ann done e ty) (.ann done e' ty')
  | loc {span : Span} {e e' : Term} :
      part e e' → SameNode L ρ part type (.loc span e) (.loc span e')

/-- Copies that start with the same node. -/
abbrev CopyNode (L : Likeness) (ρ : VarRelation) : Term → Term → Prop :=
  SameNode L ρ (Copy L ρ) (Copy L ρ)

theorem SameNode.copy {t t' : Term} (h : CopyNode L ρ t t') : t.Copy L ρ t' := by
  cases h with
  | bound i => exact .bound i
  | var h => exact .var h
  | ref h => exact .ref h
  | typ => exact .typ
  | all ha hb => exact .all ha hb
  | lam hb => exact .lam hb
  | app hf ha => exact .app hf ha
  | letIn he hb => exact .letIn he hb
  | ann he ht => exact .ann he ht
  | loc he => exact .loc he

namespace Copy

variable {t t' u u' : Term}

/-- Copies start with the same node, unless it is a location that one side does not have. -/
theorem sameNode (h : t.Copy L ρ t')
    (hloc : L.loose → (∀ span e, t ≠ .loc span e) ∧ ∀ span e, t' ≠ .loc span e) :
    CopyNode L ρ t t' := by
  cases h with
  | bound i => exact .bound i
  | var h => exact .var h
  | ref h => exact .ref h
  | typ => exact .typ
  | all ha hb => exact .all ha hb
  | lam hb => exact .lam hb
  | app hf ha => exact .app hf ha
  | letIn he hb => exact .letIn he hb
  | ann he ht => exact .ann he ht
  | loc he => exact .loc he
  -- a location without a counterpart needs a loose likeness, and then neither term has one
  | locLeft hL => exact absurd rfl ((hloc hL).1 _ _)
  | locRight hL => exact absurd rfl ((hloc hL).2 _ _)

theorem sameNode_of_strict (hL : ¬ L.loose) (h : t.Copy L ρ t') : CopyNode L ρ t t' :=
  h.sameNode fun hloose => absurd hloose hL

/-! ### Strict likeness -/

/-- A term has one copy only. -/
theorem unique (hρ : Relator.RightUnique ρ) (hL : ¬ L.loose) (h : t.Copy L ρ u)
    (h' : t.Copy L ρ u') : u = u' := by
  -- no location can be missing, so both copies start with the node of the term
  induction h generalizing u' with
  | bound | typ | ref =>
    cases h'.sameNode_of_strict hL
    rfl
  -- the variable is copied to one variable only
  | var hx =>
    cases h'.sameNode_of_strict hL with
    | var hx' => rw [hρ hx hx']
  | all _ _ iha ihb =>
    cases h'.sameNode_of_strict hL with
    | all ha hb => rw [iha ha, ihb hb]
  | lam _ ih =>
    cases h'.sameNode_of_strict hL with
    | lam hb => rw [ih hb]
  | app _ _ ihf iha =>
    cases h'.sameNode_of_strict hL with
    | app hf ha => rw [ihf hf, iha ha]
  | letIn _ _ ihe ihb =>
    cases h'.sameNode_of_strict hL with
    | letIn he hb => rw [ihe he, ihb hb]
  | ann _ _ ihe iht =>
    cases h'.sameNode_of_strict hL with
    | ann he ht => rw [ihe he, iht ht]
  | loc _ ih =>
    cases h'.sameNode_of_strict hL with
    | loc he => rw [ih he]
  | locLeft hloose | locRight hloose => exact absurd hloose hL

/-- A copy whose variables stand for themselves is the same term. -/
theorem eq_of_strict (hL : ¬ L.loose) (hρ : ∀ {x x'}, ρ x x' → x = x') (h : t.Copy L ρ t') :
    t = t' := by
  induction h with
  | bound | ref | typ => rfl
  | var h => rw [hρ h]
  | lam _ ih | loc _ ih => rw [ih]
  | all _ _ ih₁ ih₂ | app _ _ ih₁ ih₂ | letIn _ _ ih₁ ih₂ | ann _ _ ih₁ ih₂ => rw [ih₁, ih₂]
  | locLeft hloose | locRight hloose => exact absurd hloose hL

theorem biUnique (hρ : Relator.BiUnique ρ) (hL : ¬ L.loose) : Relator.BiUnique (Copy L ρ) where
  left _ _ _ h h' := h.symm.unique hρ.1.flip hL h'.symm
  right _ _ _ h h' := h.unique hρ.2 hL h'

/-- Terms are equal where their copies are. -/
theorem eq_iff (hρ : Faithful ρ) (hL : ¬ L.loose) (ht : t.Copy L ρ t') (hu : u.Copy L ρ u') :
    t = u ↔ t' = u' :=
  Relator.rel_eq (biUnique hρ.biUnique hL) ht hu

end Copy

theorem peel_ne_loc (t : Term) (span : Span) (e : Term) : t.peel ≠ .loc span e := by
  induction t with
  | loc _ _ ih => exact ih
  | _ => simp [peel]

theorem Copy.sameNode_peel {t t' : Term} (h : t.Copy L ρ t') : CopyNode L ρ t.peel t'.peel :=
  h.peel.sameNode fun _ => ⟨peel_ne_loc t, peel_ne_loc t'⟩

/-! ## What is elaborated -/

/-- Copies that have the same locations in places with content. -/
structure Parallel (L : Likeness) (ρ : VarRelation) (t t' : Term) : Prop where
  copy : t.Copy L ρ t'
  skeleton : t.skeleton = t'.skeleton

namespace Parallel

variable {t t' e e' ty ty' : Term}

/-- Without their locations, copies are elaborated in the same way. -/
theorem of_unlocate (hρ : Faithful ρ) (h : t.Copy L ρ t') :
    t.unlocate.Parallel L ρ t'.unlocate :=
  ⟨(h.parallel_unlocate hρ).1, (h.parallel_unlocate hρ).2⟩

theorem mono (h : t.Parallel L ρ t') (hρ : Subrelation ρ ρ') : t.Parallel L ρ' t' :=
  ⟨h.copy.mono hρ, h.skeleton⟩

/-- What is elaborated writes the same literal on both sides, if any. -/
theorem literal?_eq (h : t.Parallel L ρ t') : Elaborator.literal? t = Elaborator.literal? t' :=
  literal?_eq_of_skeleton_eq h.skeleton

theorem var {x x' : Var} (hρ : Faithful ρ) (h : ρ x x') :
    (Term.var x).Parallel L ρ (.var x') :=
  ⟨.var h, by simp only [Term.skeleton, hρ.name_eq h]⟩

theorem lam {n : BinderName} {er : Bool} (h : t.Parallel L ρ t') :
    (Term.lam n er t).Parallel L ρ (.lam n er t') :=
  ⟨.lam h.copy, by simp only [Term.skeleton, h.skeleton]⟩

/-- Types may have different locations. -/
theorem ann {done : Bool} (h : e.Parallel L ρ e') (hty : ty.Copy L ρ ty') :
    (Term.ann done e ty).Parallel L ρ (.ann done e' ty') :=
  ⟨.ann h.copy hty, by simp only [Term.skeleton, h.skeleton]⟩

theorem instantiate_one {v v' : Term} (h : t.Parallel L ρ t') (hv : v.Parallel L ρ v') :
    (t.instantiate [v]).Parallel L ρ (t'.instantiate [v']) :=
  ⟨h.copy.instantiate_one hv.copy, skeleton_instantiate_congr h.skeleton hv.skeleton⟩

/-- What is elaborated starts with the same node on both sides. -/
theorem sameNode (h : t.Parallel L ρ t') : t.SameNode L ρ (Parallel L ρ) (Copy L ρ) t' := by
  obtain ⟨hcopy, hskeleton⟩ := h
  cases hcopy with
  | bound i => exact .bound i
  | var h => exact .var h
  | ref h => exact .ref h
  | typ => exact .typ
  | all ha hb => exact .all ha hb
  | lam hb =>
    simp only [Term.skeleton, Term.lam.injEq, true_and] at hskeleton
    exact .lam ⟨hb, hskeleton⟩
  | app hf ha =>
    simp only [Term.skeleton, Term.app.injEq, and_true] at hskeleton
    exact .app ⟨hf, hskeleton.1⟩ ⟨ha, hskeleton.2⟩
  | letIn he hb =>
    simp only [Term.skeleton, Term.letIn.injEq, true_and] at hskeleton
    exact .letIn ⟨he, hskeleton.1⟩ ⟨hb, hskeleton.2⟩
  | ann he ht =>
    simp only [Term.skeleton, Term.ann.injEq, true_and, and_true] at hskeleton
    exact .ann ⟨he, hskeleton⟩ ht
  | loc he =>
    simp only [Term.skeleton, Term.loc.injEq, true_and] at hskeleton
    exact .loc ⟨he, hskeleton⟩
  | locLeft hL he =>
    -- the skeleton shows that the other side has the location too
    cases t' with
    | loc =>
      simp only [Term.skeleton, Term.loc.injEq] at hskeleton
      obtain ⟨rfl, hskeleton⟩ := hskeleton
      exact .loc ⟨he.of_loc_right hL, hskeleton⟩
    | _ => cases hskeleton
  | locRight hL he =>
    cases t with
    | loc =>
      simp only [Term.skeleton, Term.loc.injEq] at hskeleton
      obtain ⟨rfl, hskeleton⟩ := hskeleton
      exact .loc ⟨he.of_loc_left hL, hskeleton⟩
    | _ => cases hskeleton

end Parallel

end Term

/-! ## Tables -/

/-- The definitions have types and bodies that are copies of each other. -/
structure Definition.Copy (L : Likeness) (ρ : VarRelation) (d d' : Definition) : Prop where
  ty : d.ty.Copy L ρ d'.ty
  body : d.body.Copy L ρ d'.body

/-- Related optional values are both there or both missing. -/
theorem none_or_some_of_rel {α β : Type} {R : α → β → Prop} {o : Option α} {o' : Option β}
    (h : Option.Rel R o o') :
    o = none ∧ o' = none ∨ ∃ a a', o = some a ∧ o' = some a' ∧ R a a' := by
  cases h with
  | none => exact .inl ⟨rfl, rfl⟩
  | some h => exact .inr ⟨_, _, rfl, rfl, h⟩

/-- What two runs rely on: they tell apart the same variables, and what they know of the tables is
the same. -/
structure Comparable (L : Likeness) (table table' : Table) (ρ : VarRelation) : Prop where
  faithful : Faithful ρ
  find? : ∀ n, L.known n →
    Option.Rel (Definition.Copy L ρ) (table.find? n) (table'.find? n)

end SelfTypes
