import SelfTypes.Proofs.Elaboration.Situated
import SelfTypes.Proofs.Kernel.Alike
import SelfTypes.Proofs.Kernel.Substitutivity

/-!
# Types that can be interchanged

Two runs may hold the same type in different forms: as convertible terms, with variables that were
issued separately. `Interconvertible table P a a'` says that they do: `a` and `a'` are convertible
with terms that differ in names and in the paired variables `P` only. What the elaborator makes of a
type does not tell such forms apart: their normal forms have the same head and interconvertible
parts, and they are convertible with the same types. Main statements: `Interconvertible.heads` and
`Interconvertible.convertible_iff`.
-/

namespace SelfTypes

/-! ## Terms that are alike -/

namespace Term

theorem Alike.closedAt {ρ : Var → Var → Prop} {t t' : Term} (h : t.Alike ρ t') {depth : Nat}
    (ht : t.ClosedAt depth) : t'.ClosedAt depth := by
  induction h generalizing depth with
  | bound => exact ht
  | var | ref | typ => trivial
  | lam _ ih | loc _ ih => exact ih ht
  | all _ _ ih₁ ih₂ | app _ _ ih₁ ih₂ | letIn _ _ ih₁ ih₂ | ann _ _ ih₁ ih₂ =>
    exact ⟨ih₁ ht.1, ih₂ ht.2⟩

theorem Alike.bare {ρ : Var → Var → Prop} {t t' : Term} (h : t.Alike ρ t') :
    t.bare.Alike ρ t'.bare := by
  induction h with
  | bound i => exact .bound i
  | var h => exact .var h
  | ref n => exact .ref n
  | typ => exact .typ
  | all _ _ iha ihb => exact .all iha ihb
  | lam _ ih => exact .lam ih
  | app _ _ ihf iha => exact .app ihf iha
  | letIn _ _ ihe ihb => exact .letIn ihe ihb
  | ann _ _ ih _ | loc _ ih => exact ih

theorem ClosedAt.bare {t : Term} {depth : Nat} (h : t.ClosedAt depth) : t.bare.ClosedAt depth := by
  induction t generalizing depth with
  | bound => exact h
  | var | ref | typ => trivial
  | lam _ _ _ ih | loc _ _ ih => exact ih h
  | ann _ _ _ ih _ => exact ih h.1
  | all _ _ _ _ ih₁ ih₂ | app _ _ _ ih₁ ih₂ | letIn _ _ _ _ ih₁ ih₂ => exact ⟨ih₁ h.1, ih₂ h.2⟩

theorem bare_bare (t : Term) : t.bare.bare = t.bare := by
  induction t <;> simp_all [bare]

end Term

/-! ## Interconvertible terms -/

/-- The terms are convertible with terms that differ in names and in paired variables only. -/
def Interconvertible (table : Table) (P : List (VarId × VarId)) (a a' : Term) : Prop :=
  ∃ u u', u.IsLocallyClosed ∧ Convertible table a u ∧ u.Alike (Paired P) u' ∧
    Convertible table u' a'

/-- Two normal forms as far as the elaborator tells types apart: both the universe, both self types
with interconvertible parts, or neither of these. -/
inductive TypeHeads (table : Table) (P : List (VarId × VarId)) : Term → Term → Prop where
  | typ : TypeHeads table P .typ .typ
  | all {s n s' n' : BinderName} {bind body bind' body' : Term} :
      Interconvertible table P bind bind' →
      (∀ u u' v v' : Term, u.IsLocallyClosed → u'.IsLocallyClosed → v.IsLocallyClosed →
        v'.IsLocallyClosed → Interconvertible table P u u' → Interconvertible table P v v' →
        Interconvertible table P (body.instantiate [u, v]) (body'.instantiate [u', v'])) →
      TypeHeads table P (.all s n bind body) (.all s' n' bind' body')
  | other {w w' : Term} : w ≠ .typ → w' ≠ .typ → (∀ s n a b, w ≠ .all s n a b) →
      (∀ s n a b, w' ≠ .all s n a b) → TypeHeads table P w w'

namespace Interconvertible

variable {table : Table} {P P' : List (VarId × VarId)} {a a' b b' w w' : Term}

theorem weaken (h : Interconvertible table P a a') (hsub : P ⊆ P') :
    Interconvertible table P' a a' := by
  obtain ⟨u, u', hu, hleft, halike, hright⟩ := h
  exact ⟨u, u', hu, hleft, halike.weaken hsub, hright⟩

theorem of_alike (ha : a.IsLocallyClosed) (h : a.Alike (Paired P) a') :
    Interconvertible table P a a' :=
  ⟨a, a', ha, .refl table a, h, .refl table a'⟩

/-- Convertible terms on both sides can take the places of interconvertible ones. -/
theorem congr (h : Interconvertible table P a a') (hb : Convertible table b a)
    (hb' : Convertible table a' b') : Interconvertible table P b b' := by
  obtain ⟨u, u', hu, hleft, halike, hright⟩ := h
  exact ⟨u, u', hu, hb.trans hleft, halike, hright.trans hb'⟩

/-- Annotations and locations do not count. -/
theorem of_bare_alike (ha : a.IsLocallyClosed) (h : a.bare.Alike (Paired P) a'.bare) :
    Interconvertible table P a a' :=
  (of_alike ha.bare h).congr (.of_bare_eq a.bare_bare.symm) (.of_bare_eq a'.bare_bare)

/-- Terms without variables are interconvertible with themselves. -/
theorem of_freeIds_eq_nil (ha : a.IsLocallyClosed) (hfree : a.freeIds = []) :
    Interconvertible table P a a :=
  of_alike ha (.refl fun x hx => by simp [hfree] at hx)

theorem weakHead (h : Interconvertible table P a a') (hw : WeakHead table a w)
    (hw' : WeakHead table a' w') : Interconvertible table P w w' :=
  h.congr (Convertible.of_weakHead hw).symm (.of_weakHead hw')

/-- The normal forms of interconvertible terms have the same head. -/
theorem heads (hclosed : table.IsLocallyClosed) (hfree : table.IsVarFree)
    (h : Interconvertible table P a a') (ha : a.IsLocallyClosed) (ha' : a'.IsLocallyClosed)
    (hw : WeakHead table a w) (hw' : WeakHead table a' w') : TypeHeads table P w w' := by
  obtain ⟨u, u', hu, hleft, halike, hright⟩ := h
  -- the normal form is passed on from the left to the right by the two terms in the middle
  obtain ⟨v, hv, hwv⟩ := Convertible.isSimulation table a u w hleft hw
  obtain ⟨v', hv', hvv⟩ := hv.alike (.refl table) hfree halike
  obtain ⟨w₁, hw₁, hvw⟩ := Convertible.isSimulation table u' a' v' hright hv'
  cases hw₁.unique hw'
  have hvClosed := hv.isLocallyClosed hclosed hu
  have hwClosed := hw.isLocallyClosed hclosed ha
  have hwClosed' := hw'.isLocallyClosed hclosed ha'
  -- the two heads are universes, function types, or neither of the two
  cases hwv with
  | typ =>
    cases hvv
    cases hvw
    exact .typ
  | all hbind hbody =>
    cases hvv with
    | all hbind₁ hbody₁ =>
      cases hvw with
      | all hbind₂ hbody₂ =>
        refine .all ⟨_, _, hvClosed.1, hbind, hbind₁, hbind₂⟩ ?_
        rintro x x' y y' hx hx' hy hy' ⟨p, p', hp, hxp, hpp, hpx⟩ ⟨q, q', hq, hyq, hqq, hqy⟩
        refine ⟨_, _, Term.ClosedAt.instantiate_two hvClosed.2 hp hq, ?_,
          hbody₁.instantiate_two hpp hqq, ?_⟩
        · exact .open_two hclosed hfree hwClosed.2 hvClosed.2 hbody hx hp hy hq hxp hyq
        · exact .open_two hclosed hfree (hbody₁.closedAt hvClosed.2) hwClosed'.2 hbody₂
            (hpp.closedAt hp) hx' (hqq.closedAt hq) hy' hpx hqy
  | bound | var | ref | lam | app =>
    cases hvv
    cases hvw
    exact .other nofun nofun nofun nofun

/-- Convertibility carries over to interconvertible terms. -/
theorem convertible_iff (hfree : table.IsVarFree) (hP : OneToOne P)
    (ha : Interconvertible table P a a') (hb : Interconvertible table P b b') :
    Convertible table a b ↔ Convertible table a' b' := by
  obtain ⟨u, u', -, hau, huu, hua⟩ := ha
  obtain ⟨v, v', -, hbv, hvv, hvb⟩ := hb
  -- the terms in the middle are alike, so the table can not tell them apart
  have hmiddle := Convertible.alike_iff (.refl table) hfree hP huu hvv
  constructor
  · intro h
    exact (hua.symm.trans (hmiddle.1 (hau.symm.trans (h.trans hbv)))).trans hvb
  · intro h
    exact (hau.trans (hmiddle.2 (hua.trans (h.trans hvb.symm)))).trans hbv.symm

end Interconvertible

end SelfTypes
