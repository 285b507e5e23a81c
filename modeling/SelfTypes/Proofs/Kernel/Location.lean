import SelfTypes.Proofs.Kernel.Lockstep

/-!
# The kernel does not look at locations

Two tables that differ in locations only have the same normal forms and the same convertible terms,
up to locations. A run may still take fewer steps in one of them than in the other: terms that are
equal as they stand are not reduced, and a location is enough to tell them apart. But where two runs
come to a normal form or to a verdict, these agree. Main statements: `WeakHead.copy`,
`Convertible.copy_iff`, `Kernel.reduce_copy` and `Kernel.equal_copy`.
-/

namespace SelfTypes

/-- Either side may have locations that the other does not have. -/
def Likeness.upToLocations : Likeness := { loose := True }

/-- The tables have the same definitions up to locations, without free variables. -/
def Table.Relocated (t t' : Table) : Prop :=
  ∀ n, Option.Rel (Definition.Copy .upToLocations fun _ _ => False) (t.find? n) (t'.find? n)

namespace Table.Relocated

variable {t t' : Table}

theorem symm (h : t.Relocated t') : t'.Relocated t := by
  intro n
  rcases none_or_some_of_rel (h n) with ⟨hd, hd'⟩ | ⟨d, d', hd, hd', hcopy⟩
  · rw [hd, hd']
    exact .none
  · rw [hd, hd']
    exact .some ⟨hcopy.ty.symm, hcopy.body.symm⟩

theorem comparable (h : t.Relocated t') {ρ : VarRelation} (hρ : Faithful ρ) :
    Comparable .upToLocations t t' ρ where
  faithful := hρ
  find? n _ := by
    rcases none_or_some_of_rel (h n) with ⟨hd, hd'⟩ | ⟨d, d', hd, hd', hcopy⟩
    · rw [hd, hd']
      exact .none
    · rw [hd, hd']
      exact .some ⟨hcopy.ty.mono fun h => h.elim, hcopy.body.mono fun h => h.elim⟩

end Table.Relocated

/-- A table without free variables has the same definitions as itself. -/
theorem Table.IsVarFree.relocated_self {table : Table} (h : table.IsVarFree) :
    table.Relocated table :=
  fun n => (h.comparable (fun _ => trivial) ⟨fun h => h.elim, fun h => h.elim⟩).find? n trivial

namespace WeakHead

variable {L : Likeness} {table table' : Table} {ρ : VarRelation} {t t' w : Term}

/-- A normal form does not start with a location. -/
theorem ne_loc (h : WeakHead table t w) (span : Span) (e : Term) : w ≠ .loc span e := by
  induction h with
  | bound | var | typ | all | lam | unknown | stuck => simp
  | unfold _ _ ih | letIn _ ih | ann _ ih | loc _ ih | beta _ _ _ ih => exact ih

/-- The locations at the head of a term are dropped. -/
theorem of_peel (h : WeakHead table t.peel w) : WeakHead table t w := by
  induction t with
  | loc _ _ ih => exact .loc (ih h)
  | _ => exact h

theorem copy_peel (hρ : Comparable L table table' ρ) (h : WeakHead table t w)
    (ht : t.peel.CopyNode L ρ t') : ∃ w', WeakHead table' t' w' ∧ w.Copy L ρ w' := by
  induction h generalizing t' with
  | bound i => cases ht with | bound => exact ⟨_, .bound i, .bound i⟩
  | var x => cases ht with | var hx => exact ⟨_, .var _, .var hx⟩
  | typ => cases ht with | typ => exact ⟨_, .typ, .typ⟩
  | all => cases ht with | all ha hb => exact ⟨_, .all .., .all ha hb⟩
  | lam => cases ht with | lam hb => exact ⟨_, .lam .., .lam hb⟩
  | @unknown name hname =>
    cases ht with
    | ref hn =>
      -- both tables define the global or neither does
      rcases none_or_some_of_rel (hρ.find? name hn) with ⟨-, hd'⟩ | ⟨d, -, hd, -, -⟩
      · exact ⟨_, .unknown hd', .ref hn⟩
      · rw [hname] at hd
        cases hd
  | @unfold name d w hname _ ih =>
    cases ht with
    | ref hn =>
      rcases none_or_some_of_rel (hρ.find? name hn) with ⟨hd, -⟩ | ⟨d, d', hd, hd', hcopy⟩
      · rw [hname] at hd
        cases hd
      · rw [hname] at hd
        cases hd
        obtain ⟨w', hw', hcopy'⟩ := ih hcopy.body.sameNode_peel
        exact ⟨w', .unfold hd' hw'.of_peel, hcopy'⟩
  | letIn _ ih =>
    cases ht with
    | letIn he hb =>
      obtain ⟨w', hw', hcopy⟩ := ih (hb.instantiate_one he).sameNode_peel
      exact ⟨w', .letIn hw'.of_peel, hcopy⟩
  | ann _ ih =>
    cases ht with
    | ann he _ =>
      obtain ⟨w', hw', hcopy⟩ := ih he.sameNode_peel
      exact ⟨w', .ann hw'.of_peel, hcopy⟩
  -- a location was peeled off already
  | loc _ ih => exact ih ht
  | beta hf _ ihf ihb =>
    cases ht with
    | app hf' ha' =>
      obtain ⟨g, hg, hlam⟩ := ihf hf'.sameNode_peel
      -- the head of the copy is a function, too, as no normal form starts with a location
      cases hlam.sameNode fun _ => ⟨hf.ne_loc, hg.ne_loc⟩ with
      | lam hb =>
        obtain ⟨w', hw', hcopy⟩ := ihb (hb.instantiate_one ha').sameNode_peel
        exact ⟨w', .beta hg.of_peel hw'.of_peel, hcopy⟩
  | stuck hf hlam ihf =>
    cases ht with
    | app hf' ha' =>
      obtain ⟨g, hg, hcopy⟩ := ihf hf'.sameNode_peel
      have hlam' : g.isLam = false := by
        cases hcopy.sameNode fun _ => ⟨hf.ne_loc, hg.ne_loc⟩ with
        | lam => cases hlam
        | _ => rfl
      exact ⟨_, .stuck hg.of_peel hlam', .app hcopy ha'⟩

/-- A copy of a term has a copy of its normal form as its normal form. -/
theorem copy (hρ : Comparable L table table' ρ) (h : WeakHead table t w) (ht : t.Copy L ρ t') :
    ∃ w', WeakHead table' t' w' ∧ w.CopyNode L ρ w' := by
  obtain ⟨w', hw', hcopy⟩ := h.copy_peel hρ ht.sameNode_peel
  exact ⟨w', hw'.of_peel, hcopy.sameNode fun _ => ⟨h.ne_loc, hw'.ne_loc⟩⟩

end WeakHead

/-! ## Convertibility -/

section Convertible

variable {table table' : Table} {v v' : Term}

/-- Terms that differ in locations only are convertible. -/
theorem Convertible.of_copy {L : Likeness} (h : v.Copy L Eq v') : Convertible table v v' := by
  refine .of_bare_eq ?_
  rw [← v.bare_unlocate, ← v'.bare_unlocate, h.unlocate_eq id]

theorem OpenedFresh.of_copy {L : Likeness} (h : v.Copy L Eq v') (arity : Nat) :
    OpenedFresh (Convertible table) arity v v' := by
  refine ⟨[], fun xs _ _ _ => .of_bare_eq (Term.bare_instantiate_congr ?_ rfl)⟩
  rw [← v.bare_unlocate, ← v'.bare_unlocate, h.unlocate_eq id]

/-- A normal form has the same head as a copy that differs in locations only. -/
theorem WeakHead.sameHead_copy {L : Likeness} {table₀ : Table} {t : Term}
    (h : WeakHead table₀ t v) (hcopy : v.CopyNode L Eq v') :
    SameHead (Convertible table) (OpenedFresh (Convertible table)) v v' := by
  have hself := h.sameHead_self (R := Eq) fun _ => rfl
  cases hcopy with
  | bound i => exact .bound i
  | var hx =>
    cases hx
    exact .var rfl
  | ref => exact .ref _
  | typ => exact .typ
  | all ha hb => exact .all (.of_copy ha) (.of_copy hb 2)
  | lam hb => exact .lam (.of_copy hb 1)
  | app hf ha => exact .app (.of_copy hf) (.of_copy ha)
  -- a weak head is none of these
  | letIn | ann | loc => cases hself

/-- Convertibility does not depend on the locations in a table. -/
theorem Convertible.relocate {a b : Term} (htable : table.Relocated table')
    (h : Convertible table a b) : Convertible table' a b := by
  refine ⟨Convertible table, fun _ _ => symm, ?_, h⟩
  intro a b v' hab hv'
  have hrefl : ∀ t : Term, t.Copy .upToLocations Eq t := fun t =>
    .refl (fun _ _ => rfl) fun _ _ => trivial
  -- into the other table, from there to the convertible term, and back
  obtain ⟨v, hv, hvv⟩ := hv'.copy (htable.symm.comparable .eq) (hrefl a)
  obtain ⟨w, hw, hhead⟩ := isSimulation table a b v hab hv
  obtain ⟨w', hw', hww⟩ := hw.copy (htable.comparable .eq) (hrefl b)
  have hpart : ∀ a b c, Convertible table a b → Convertible table b c → Convertible table a c :=
    fun _ _ _ => trans
  have hbody : ∀ n a b c, OpenedFresh (Convertible table) n a b →
      OpenedFresh (Convertible table) n b c → OpenedFresh (Convertible table) n a c :=
    fun _ _ _ _ h h' => h.comp h' hpart
  refine ⟨w', hw', ?_⟩
  exact (hv'.sameHead_copy hvv).comp (hhead.comp (hw.sameHead_copy hww) hpart hbody) hpart hbody

/-- Convertibility carries over to copies that have other locations, in a table that has others. -/
theorem Convertible.copy_iff (htable : table.Relocated table') (hfree : table'.IsVarFree)
    {P : List (VarId × VarId)} (hP : OneToOne P) {L : Likeness} {a a' b b' : Term}
    (ha : a.Copy L (Named P) a') (hb : b.Copy L (Named P) b') :
    Convertible table a b ↔ Convertible table' a' b' := by
  -- a location is nothing to a comparison, so both sides can be stripped of theirs
  have hunlocate : ∀ u : Term, Convertible table' u u.unlocate := fun u =>
    .of_bare_eq u.bare_unlocate.symm
  have hsides : ∀ u v : Term,
      Convertible table' u v ↔ Convertible table' u.unlocate v.unlocate := fun u v =>
    ⟨fun h => (hunlocate u).symm.trans (h.trans (hunlocate v)),
      fun h => (hunlocate u).trans (h.trans (hunlocate v).symm)⟩
  calc
    Convertible table a b ↔ Convertible table' a b := ⟨.relocate htable, .relocate htable.symm⟩
    _ ↔ Convertible table' a.unlocate b.unlocate := hsides a b
    _ ↔ Convertible table' a'.unlocate b'.unlocate :=
      Convertible.alike_iff (.refl table') hfree hP (ha.unlocate.mono fun _ _ h => h.1)
        (hb.unlocate.mono fun _ _ h => h.1)
    _ ↔ Convertible table' a' b' := (hsides a' b').symm

end Convertible

/-! ## Runs -/

namespace Kernel

variable {table table' : Table} {P : List (VarId × VarId)} {k k' s s' : Kernel}
  {depth depth' : Nat}

/-- Two reductions of copies come to copies, if they come to an end. -/
theorem reduce_copy (htable : table.Relocated table') (hP : OneToOne P) {t t' w w' : Term}
    (ht : t.Copy .upToLocations (Named P) t') (h : reduce table depth t k = .ok w s)
    (h' : reduce table' depth' t' k' = .ok w' s') : w.CopyNode .upToLocations (Named P) w' := by
  obtain ⟨v, hv, hcopy⟩ := (weakHead_of_reduce h).copy (htable.comparable hP.faithful) ht
  rw [(weakHead_of_reduce h').unique hv]
  exact hcopy

theorem Joined.avoids_of_copy {L : Likeness} (hP : Joined P k k') {t t' : Term}
    (ht : t.Copy L (Named P) t') : k.Avoids t ∧ k'.Avoids t' := by
  have halike : t.unlocate.Alike (Paired P) t'.unlocate := ht.unlocate.mono fun _ _ h => h.1
  have hleft := hP.avoids_left halike
  have hright := hP.avoids_right halike
  simp only [Avoids, Term.freeIds_unlocate] at hleft hright
  exact ⟨hleft, hright⟩

/-- Two comparisons of copies come to the same verdict, if both come to one. -/
theorem equal_copy (htable : table.Relocated table') (hfree : table.IsVarFree)
    (hfree' : table'.IsVarFree) (hP : Joined P k k') {L : Likeness} {a a' b b' : Term}
    (ha : a.Copy L (Named P) a') (hb : b.Copy L (Named P) b') {r r' : Bool}
    (h : equal table depth a b k = .ok r s) (h' : equal table' depth' a' b' k' = .ok r' s') :
    r = r' := by
  obtain ⟨hleft, hright⟩ := hP.avoids_of_copy ha
  obtain ⟨hleft', hright'⟩ := hP.avoids_of_copy hb
  rw [Bool.eq_iff_iff, eq_true_iff_convertible hfree hleft hleft' h,
    eq_true_iff_convertible hfree' hright hright' h',
    Convertible.copy_iff htable hfree' hP.toOneToOne ha hb]

end Kernel

end SelfTypes
