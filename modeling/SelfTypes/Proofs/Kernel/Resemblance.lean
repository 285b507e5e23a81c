import SelfTypes.Proofs.Kernel.Classification
import SelfTypes.Proofs.Kernel.Interchange

/-!
# Types that resemble each other

Two types have one shape if they differ in annotations, locations, names and variables only. Which
variables they have does not matter for what the elaborator looks at: normal forms of one shape have
the same head, and a type without variables is convertible with both or with neither, as no variable
of either can be matched. Types resemble each other if they have one shape, or if they both come to
the universe. Main statements: `SameShape.weakHead`, `SameShape.convertible` and
`Resembles.primitive?_eq`.
-/

namespace SelfTypes

/-! ## Types of one shape -/

/-- The terms differ in annotations, locations, names and variables only. -/
def SameShape (t t' : Term) : Prop :=
  t.bare.Alike (fun _ _ => True) t'.bare

namespace SameShape

variable {table : Table} {t t' w w' : Term}

theorem of_bare_eq (h : t.bare = t'.bare) : SameShape t t' := by
  unfold SameShape
  rw [h]
  exact .refl fun _ _ => trivial

theorem refl (t : Term) : SameShape t t :=
  of_bare_eq rfl

theorem symm (h : SameShape t t') : SameShape t' t :=
  Term.Alike.symm h

/-- Scopes of one shape, opened with terms of one shape each. -/
theorem openAt {values values' : List Term} (hvalues : List.Forall₂ SameShape values values')
    (h : SameShape t t') (depth : Nat) :
    SameShape (t.openAt values depth) (t'.openAt values' depth) := by
  unfold SameShape
  rw [Term.bare_openAt, Term.bare_openAt]
  refine Term.Alike.openAt ?_ h depth
  exact List.forall₂_map_left_iff.2 (List.forall₂_map_right_iff.2 hvalues)

theorem instantiate_two {u u' v v' : Term} (h : SameShape t t') (hu : SameShape u u')
    (hv : SameShape v v') : SameShape (t.instantiate [u, v]) (t'.instantiate [u', v']) := by
  rw [Term.instantiate_eq_openAt, Term.instantiate_eq_openAt]
  exact h.openAt (.cons hv (.cons hu .nil)) 0

theorem var (x x' : Var) : SameShape (.var x) (.var x') :=
  Term.Alike.var trivial

theorem all {s n s' n' : BinderName} {a b a' b' : Term} (ha : SameShape a a')
    (hb : SameShape b b') : SameShape (.all s n a b) (.all s' n' a' b') :=
  Term.Alike.all ha hb

/-- Annotations do not count. -/
theorem annotate {ty ty' : Term} (h : SameShape t t') (done done' : Bool) :
    SameShape (.ann done t ty) (.ann done' t' ty') :=
  h

/-- The normal form of the one has the shape of the normal form of the other. -/
theorem weakHead (hfree : table.IsVarFree) (h : SameShape t t') (hw : WeakHead table t w) :
    ∃ w', WeakHead table t' w' ∧ w'.isWrapped = false ∧ SameShape w w' := by
  -- by way of the terms without annotations and locations
  obtain ⟨i, hi⟩ := hw.exists_weakHeadIn
  obtain ⟨v, hv, hwv⟩ := hi.of_bare_eq t.bare_bare
  obtain ⟨v', hv', halike⟩ := hv.weakHead.alike (.refl table) hfree h
  obtain ⟨j, hj⟩ := hv'.exists_weakHeadIn
  obtain ⟨w', hw', hvw⟩ := hj.of_bare_eq t'.bare_bare.symm
  refine ⟨w', hw'.weakHead, hw'.isWrapped, ?_⟩
  unfold SameShape
  rw [← hwv, hvw]
  exact halike.bare

theorem weakHead_typ (hfree : table.IsVarFree) (h : SameShape t t')
    (hw : WeakHead table t .typ) : WeakHead table t' .typ := by
  obtain ⟨w', hw', hunwrapped, hshape⟩ := h.weakHead hfree hw
  have hbare : w'.bare = .typ := by
    have halike : Term.Alike _ .typ w'.bare := hshape
    generalize w'.bare = u at halike ⊢
    cases halike with
    | typ => rfl
  rwa [Term.eq_of_bare hunwrapped rfl hbare] at hw'

/-- Self types that types of one shape come to have parts of one shape each. -/
theorem all_parts (hfree : table.IsVarFree) (h : SameShape t t') {s n s' n' : BinderName}
    {a b a' b' : Term} (hw : WeakHead table t (.all s n a b))
    (hw' : WeakHead table t' (.all s' n' a' b')) : SameShape a a' ∧ SameShape b b' := by
  obtain ⟨v, hv, -, hshape⟩ := h.weakHead hfree hw
  rw [hv.unique hw'] at hshape
  cases (hshape : Term.Alike _ (.all s n a.bare b.bare) (.all s' n' a'.bare b'.bare)) with
  | all ha hb => exact ⟨ha, hb⟩

end SameShape

/-! ## Convertibility with a type without variables -/

section Loosely

variable {table : Table} {P : List (VarId × VarId)}

/-- The variables are paired, or none of them is. -/
def LooselyPaired (P : List (VarId × VarId)) (x x' : Var) : Prop :=
  Paired P x x' ∨ (x.id ∉ P.map Prod.fst ∧ x'.id ∉ P.map Prod.snd)

/-- Convertible terms up to names, the second one up to all its variables that are not paired. -/
def LooselyConvertible (table : Table) (a' b' : Term) : Prop :=
  ∃ P a b, OneToOne P ∧ a.Alike (Paired P) a' ∧ b.Alike (LooselyPaired P) b' ∧
    Convertible table a b

/-- Variables that were not paired stay so when the pairs of new variables are added. -/
theorem LooselyPaired.zip_append {xs ys : List Var} (hlength : xs.length = ys.length)
    {x x' : Var} (h : LooselyPaired P x x') (hx : ∀ y ∈ xs, x.id ≠ y.id)
    (hx' : ∀ y ∈ ys, x'.id ≠ y.id) :
    LooselyPaired ((xs.map Var.id).zip (ys.map Var.id) ++ P) x x' := by
  have hlength' : (xs.map Var.id).length = (ys.map Var.id).length := by simpa using hlength
  rcases h with h | ⟨hleft, hright⟩
  · exact .inl (List.mem_append.2 (.inr h))
  -- a pair of variables outside the list stays outside, as both differ from the new ones
  · right
    rw [List.map_append, List.map_append, List.map_fst_zip (Nat.le_of_eq hlength'),
      List.map_snd_zip (Nat.le_of_eq hlength'.symm), List.mem_append, List.mem_append]
    refine ⟨?_, ?_⟩
    · rintro (hmem | hmem)
      · obtain ⟨y, hy, hid⟩ := List.mem_map.1 hmem
        exact hx y hy hid.symm
      · exact hleft hmem
    · rintro (hmem | hmem)
      · obtain ⟨y, hy, hid⟩ := List.mem_map.1 hmem
        exact hx' y hy hid.symm
      · exact hright hmem

/-- Bodies that are loosely convertible when they are opened with new variables. -/
theorem openedFresh_loosely (hP : OneToOne P) {arity : Nat} {b b' c c' : Term}
    (hb : b.Alike (Paired P) b') (hc : c.Alike (LooselyPaired P) c')
    (h : OpenedFresh (Convertible table) arity b c) :
    OpenedFresh (LooselyConvertible table) arity b' c' := by
  obtain ⟨avoided, h⟩ := h
  -- the new variables avoid the paired ones and those of the body
  refine ⟨P.map Prod.snd ++ c'.freeIds, fun ys hys hnodup' hnew' => ?_⟩
  obtain ⟨xs, hxs, hnodup, hnew⟩ :=
    exists_fresh_vars (avoided ++ (P.map Prod.fst ++ c.freeIds)) arity
  have hlength : xs.length = ys.length := hxs.trans hys.symm
  have hc' : c.Alike (LooselyPaired ((xs.map Var.id).zip (ys.map Var.id) ++ P)) c' := by
    -- the variables of the bodies are none of the new ones
    have hboth : c.Alike (fun x x' => LooselyPaired P x x' ∧ x'.id ∈ c'.freeIds) c' :=
      (hc.symm.imp fun x' x hx' h => ⟨h, hx'⟩).symm
    refine hboth.imp fun x x' hx hpair => hpair.1.zip_append hlength ?_ ?_
    · intro y hy heq
      exact hnew y hy (by simp [← heq, hx])
    · intro y hy heq
      exact hnew' y hy (by simp [← heq, hpair.2])
  refine ⟨_, _, _, hP.zip_append (by simpa using hlength) hnodup hnodup' ?_ ?_,
    hb.open_zip hlength, hc'.instantiate ?_, h xs hxs hnodup ?_⟩
  -- what is left are the conditions on the two choices of variables
  · intro id hid
    obtain ⟨x, hx, rfl⟩ := List.mem_map.1 hid
    exact fun hmem => hnew x hx (by simp [hmem])
  · intro id hid
    obtain ⟨y, hy, rfl⟩ := List.mem_map.1 hid
    exact fun hmem => hnew' y hy (List.mem_append.2 (.inl hmem))
  · refine (Term.Alike.forall₂_vars hlength (List.subset_append_left _ P)).imp ?_
    exact fun _ _ h => h.mono fun _ _ => .inl
  · exact fun x hx hmem => hnew x hx (by simp [hmem])

theorem sameHead_loosely (hP : OneToOne P) {v v' w w' : Term} (hv : v.Alike (Paired P) v')
    (hw : w.Alike (LooselyPaired P) w')
    (h : SameHead (Convertible table) (OpenedFresh (Convertible table)) v w) :
    SameHead (LooselyConvertible table) (OpenedFresh (LooselyConvertible table)) v' w' := by
  have hpart : ∀ {a a' b b' : Term}, a.Alike (Paired P) a' → b.Alike (LooselyPaired P) b' →
      Convertible table a b → LooselyConvertible table a' b' :=
    fun ha hb h => ⟨P, _, _, hP, ha, hb, h⟩
  cases h with
  | bound i =>
    cases hv
    cases hw
    exact .bound i
  -- on the left every variable is paired, which decides the only case of interest
  | var hid =>
    cases hv with
    | var hx =>
      cases hw with
      | var hy =>
        rcases hy with hy | ⟨hy, -⟩
        · exact .var ((hP.id_eq_iff hx hy).1 hid)
        · -- the variable on the left is paired, so the other one is
          exact absurd (hid ▸ List.mem_map_of_mem (f := Prod.fst) hx) hy
  | ref n =>
    cases hv
    cases hw
    exact .ref n
  | typ =>
    cases hv
    cases hw
    exact .typ
  | all ha hb =>
    cases hv with
    | all ha₁ hb₁ =>
      cases hw with
      | all ha₂ hb₂ => exact .all (hpart ha₁ ha₂ ha) (openedFresh_loosely hP hb₁ hb₂ hb)
  | lam hb =>
    cases hv with
    | lam hb₁ => cases hw with | lam hb₂ => exact .lam (openedFresh_loosely hP hb₁ hb₂ hb)
  | app hf ha =>
    cases hv with
    | app hf₁ ha₁ => cases hw with | app hf₂ ha₂ => exact .app (hpart hf₁ hf₂ hf) (hpart ha₁ ha₂ ha)

/-- What is loosely convertible is convertible. -/
theorem LooselyConvertible.convertible (hfree : table.IsVarFree) {a b : Term}
    (h : LooselyConvertible table a b) : Convertible table a b := by
  -- the relation is made symmetric, as only one of its sides is paired strictly
  have hleft : ∀ a b, LooselyConvertible table a b →
      LooselyConvertible table a b ∨ LooselyConvertible table b a := fun _ _ => .inl
  have hright : ∀ a b, LooselyConvertible table a b →
      LooselyConvertible table b a ∨ LooselyConvertible table a b := fun _ _ => .inr
  refine ⟨fun a b => LooselyConvertible table a b ∨ LooselyConvertible table b a,
    fun _ _ h => h.symm, ?_, .inl h⟩
  rintro a' b' v' (⟨P, a, b, hP, ha, hb, h⟩ | ⟨P, b, a, hP, hb, ha, h⟩) hv'
  · obtain ⟨v, hv, hvv⟩ := hv'.alike (.refl table) hfree ha.symm
    obtain ⟨w, hw, hhead⟩ := Convertible.isSimulation table a b v h hv
    obtain ⟨w', hw', hww⟩ := hw.alike (.refl table) hfree hb
    exact ⟨w', hw', (sameHead_loosely hP hvv.symm hww hhead).imp hleft
      fun _ _ _ h => h.imp hleft⟩
  · -- the same from the other side
    obtain ⟨v, hv, hvv⟩ := hv'.alike (.refl table) hfree ha.symm
    obtain ⟨w, hw, hhead⟩ := Convertible.isSimulation table a b v h.symm hv
    obtain ⟨w', hw', hww⟩ := hw.alike (.refl table) hfree hb
    have hback := hhead.symm (fun _ _ => Convertible.symm) fun _ _ _ h =>
      h.symm fun _ _ => Convertible.symm
    exact ⟨w', hw', (sameHead_loosely hP hww hvv.symm hback).symm hright
      fun _ _ _ h => h.symm hright⟩

/-- Of two types of one shape, a type without variables is convertible with both or with neither. -/
theorem SameShape.convertible (hfree : table.IsVarFree) {a t t' : Term} (ha : a.freeIds = [])
    (h : SameShape t t') (hconv : Convertible table a t) : Convertible table a t' := by
  have hloose : LooselyConvertible table a t'.bare :=
    ⟨[], a, t.bare, ⟨List.nodup_nil, List.nodup_nil⟩, .refl fun x hx => by simp [ha] at hx,
      h.mono fun _ _ _ => .inr ⟨List.not_mem_nil, List.not_mem_nil⟩,
      hconv.trans (.of_bare_eq t.bare_bare.symm)⟩
  exact (hloose.convertible hfree).trans (.of_bare_eq t'.bare_bare)

end Loosely

/-! ## Resemblance -/

/-- The type is closed, but for annotations, and comes to the universe. -/
structure IsUniverse (table : Table) (ty : Term) : Prop where
  closed : ty.bare.IsLocallyClosed
  weakHead : WeakHead table ty .typ

/-- The types have one shape, or both come to the universe. -/
inductive Resembles (table : Table) (ty ty' : Term) : Prop where
  | shape : SameShape ty ty' → Resembles table ty ty'
  | universes : IsUniverse table ty → IsUniverse table ty' → Resembles table ty ty'

namespace IsUniverse

variable {table : Table} {ty ty' : Term}

theorem typ (table : Table) : IsUniverse table .typ := ⟨trivial, .typ⟩

theorem of_sameShape (hfree : table.IsVarFree) (h : IsUniverse table ty)
    (hshape : SameShape ty ty') : IsUniverse table ty' :=
  ⟨Term.Alike.closedAt hshape h.closed, hshape.weakHead_typ hfree h.weakHead⟩

/-- There is no index to replace. -/
theorem openAt (hfree : table.IsVarFree) (h : IsUniverse table ty) (values : List Term)
    (depth : Nat) : IsUniverse table (ty.openAt values depth) := by
  refine h.of_sameShape hfree (.of_bare_eq ?_)
  rw [Term.bare_openAt, (h.closed.mono (Nat.zero_le depth)).openAt_eq]

end IsUniverse

namespace Resembles

variable {table : Table} {ty ty' : Term}

theorem refl (table : Table) (ty : Term) : Resembles table ty ty :=
  .shape (.refl ty)

theorem symm (h : Resembles table ty ty') : Resembles table ty' ty := by
  cases h with
  | shape h => exact .shape h.symm
  | universes h h' => exact .universes h' h

theorem openAt (hfree : table.IsVarFree) {values values' : List Term}
    (hvalues : List.Forall₂ SameShape values values') (h : Resembles table ty ty') (depth : Nat) :
    Resembles table (ty.openAt values depth) (ty'.openAt values' depth) := by
  cases h with
  | shape h => exact .shape (h.openAt hvalues depth)
  | universes h h' => exact .universes (h.openAt hfree values depth) (h'.openAt hfree values' depth)

theorem isUniverse (hfree : table.IsVarFree) (h : Resembles table ty ty')
    (hty : IsUniverse table ty) : IsUniverse table ty' := by
  cases h with
  | shape h => exact hty.of_sameShape hfree h
  | universes _ h' => exact h'

theorem weakHead_typ (hfree : table.IsVarFree) (h : Resembles table ty ty')
    (hty : WeakHead table ty .typ) : WeakHead table ty' .typ := by
  cases h with
  | shape h => exact h.weakHead_typ hfree hty
  | universes _ h' => exact h'.weakHead

theorem weakHead_typ_iff (hfree : table.IsVarFree) (h : Resembles table ty ty') :
    WeakHead table ty .typ ↔ WeakHead table ty' .typ :=
  ⟨h.weakHead_typ hfree, h.symm.weakHead_typ hfree⟩

/-- Self types that the types come to have parts of one shape each. -/
theorem all_parts (hfree : table.IsVarFree) (h : Resembles table ty ty') {s n s' n' : BinderName}
    {a b a' b' : Term} (hw : WeakHead table ty (.all s n a b))
    (hw' : WeakHead table ty' (.all s' n' a' b')) : SameShape a a' ∧ SameShape b b' := by
  cases h with
  | shape h => exact h.all_parts hfree hw hw'
  | universes h => cases h.weakHead.unique hw

/-- The types are recognised as the same primitive, or neither is one. -/
theorem primitive?_eq (hfree : table.IsVarFree) (h : Resembles table ty ty') :
    Kernel.primitive? table ty = Kernel.primitive? table ty' := by
  cases h with
  | shape h =>
    exact Kernel.primitive?_congr fun n => ⟨h.convertible hfree rfl, h.symm.convertible hfree rfl⟩
  | universes h h' =>
    exact Kernel.primitive?_eq_of_convertible
      ((Convertible.of_weakHead h.weakHead).trans (Convertible.of_weakHead h'.weakHead).symm)

end Resembles

end SelfTypes
