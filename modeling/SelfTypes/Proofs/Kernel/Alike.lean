import Mathlib.Data.List.Dedup
import SelfTypes.Proofs.Kernel.Convertibility
import SelfTypes.Proofs.Term.Alike

/-!
# The kernel does not look at names

What the kernel makes of terms depends neither on the names of binders nor on which variables were
issued, as long as different ones stay different. Normal forms of terms that are alike are alike,
and so convertibility carries over from one side to the other. A comparison that ends accepts what
is convertible and nothing else, and with it the verdict carries over too, although the two
comparisons may take different steps: terms that are equal on one side may differ in names on the
other. Main statements: `Convertible.alike`, `Kernel.equal_alike` and `Kernel.classify_alike`.
-/

namespace SelfTypes

/-! ## Pairs of variables -/

/-- The variables are one of the pairs. -/
def Paired (P : List (VarId × VarId)) (x x' : Var) : Prop :=
  (x.id, x'.id) ∈ P

/-- No variable is paired with two others. -/
structure OneToOne (P : List (VarId × VarId)) : Prop where
  left : (P.map Prod.fst).Nodup
  right : (P.map Prod.snd).Nodup

namespace OneToOne

variable {P : List (VarId × VarId)}

theorem id_eq_iff (hP : OneToOne P) {x x' y y' : Var} (hx : Paired P x x') (hy : Paired P y y') :
    x.id = y.id ↔ x'.id = y'.id := by
  constructor
  · intro h
    exact congrArg Prod.snd (List.inj_on_of_nodup_map hP.left hx hy h)
  · intro h
    exact congrArg Prod.fst (List.inj_on_of_nodup_map hP.right hx hy h)

/-- The pairs the other way round. -/
theorem swap (hP : OneToOne P) : OneToOne (P.map Prod.swap) where
  left := by simpa [Function.comp_def] using hP.right
  right := by simpa [Function.comp_def] using hP.left

/-- New variables on both sides are paired in order. -/
theorem zip_append (hP : OneToOne P) {ids ids' : List VarId} (hlength : ids.length = ids'.length)
    (hids : ids.Nodup) (hids' : ids'.Nodup) (hnew : ∀ id ∈ ids, id ∉ P.map Prod.fst)
    (hnew' : ∀ id ∈ ids', id ∉ P.map Prod.snd) : OneToOne (ids.zip ids' ++ P) where
  left := by
    rw [List.map_append, List.map_fst_zip (Nat.le_of_eq hlength)]
    exact List.nodup_append'.2 ⟨hids, hP.left, hnew⟩
  right := by
    rw [List.map_append, List.map_snd_zip (Nat.le_of_eq hlength.symm)]
    exact List.nodup_append'.2 ⟨hids', hP.right, hnew'⟩

/-- Variables that are paired with themselves. -/
theorem diagonal (ids : List VarId) : OneToOne (ids.dedup.map fun id => (id, id)) where
  left := by simpa [Function.comp_def] using ids.nodup_dedup
  right := by simpa [Function.comp_def] using ids.nodup_dedup

end OneToOne

namespace Term.Alike

variable {P P' : List (VarId × VarId)} {t t' : Term}

theorem swap (h : t.Alike (Paired P) t') : t'.Alike (Paired (P.map Prod.swap)) t :=
  h.symm.mono fun _ _ hx => List.mem_map_of_mem hx

theorem weaken (h : t.Alike (Paired P) t') (hsub : P ⊆ P') : t.Alike (Paired P') t' :=
  h.mono fun _ _ hx => hsub hx

theorem mem_left_of_mem_freeIds (h : t.Alike (Paired P) t') {id : VarId} (hid : id ∈ t.freeIds) :
    id ∈ P.map Prod.fst := by
  obtain ⟨x, x', hpair, rfl, -⟩ := h.exists_of_mem_freeIds hid
  exact List.mem_map_of_mem hpair

theorem mem_right_of_mem_freeIds (h : t.Alike (Paired P) t') {id : VarId}
    (hid : id ∈ t'.freeIds) : id ∈ P.map Prod.snd := by
  obtain ⟨x', x, hpair, rfl, -⟩ := h.symm.exists_of_mem_freeIds hid
  exact List.mem_map_of_mem hpair

theorem forall₂_vars {xs ys : List Var} (hlength : xs.length = ys.length)
    (hsub : (xs.map Var.id).zip (ys.map Var.id) ⊆ P) :
    List.Forall₂ (Alike (Paired P)) (xs.map .var) (ys.map .var) := by
  induction xs generalizing ys with
  | nil =>
    cases ys with
    | nil => exact .nil
    | cons y ys => cases hlength
  | cons x xs ih =>
    cases ys with
    | nil => cases hlength
    | cons y ys =>
      obtain ⟨hx, hrest⟩ := List.cons_subset.1 hsub
      exact .cons (.var hx) (ih (Nat.succ.inj hlength) hrest)

/-- Bodies that are alike stay so when they are opened with new variables on both sides. -/
theorem open_zip (h : t.Alike (Paired P) t') {xs ys : List Var} (hlength : xs.length = ys.length) :
    (t.instantiate (xs.map .var)).Alike (Paired ((xs.map Var.id).zip (ys.map Var.id) ++ P))
      (t'.instantiate (ys.map .var)) :=
  (h.weaken (List.subset_append_right _ _)).instantiate
    (forall₂_vars hlength (List.subset_append_left _ _))

end Term.Alike

/-! ## Normal forms -/

theorem Term.Alike.isLam_eq {ρ : Var → Var → Prop} {t t' : Term} (h : t.Alike ρ t') :
    t.isLam = t'.isLam := by
  cases h <;> rfl

/-- The normal form of a term that is alike with another is alike with the normal form of that. -/
theorem WeakHead.alike {table table' : Table} (htable : table.Alike table')
    (hfree : table.IsVarFree) {ρ : Var → Var → Prop} {t t' w : Term} (h : WeakHead table t w)
    (ht : t.Alike ρ t') : ∃ w', WeakHead table' t' w' ∧ w.Alike ρ w' := by
  induction h generalizing t' with
  -- each normal form is met by one of the same shape, and each step by the same step
  | bound i => cases ht with | bound => exact ⟨_, .bound i, .bound i⟩
  | var x => cases ht with | var h => exact ⟨_, .var _, .var h⟩
  | typ => cases ht with | typ => exact ⟨_, .typ, .typ⟩
  | all => cases ht with | all ha hb => exact ⟨_, .all .., .all ha hb⟩
  | lam => cases ht with | lam hb => exact ⟨_, .lam .., .lam hb⟩
  | @unknown name hname =>
    cases ht with
    | ref => exact ⟨_, .unknown (htable.find?_eq_none hname), .ref name⟩
  | @unfold name d w hname _ ih =>
    cases ht with
    | ref =>
      obtain ⟨d', hname', hd⟩ := htable.exists_find? hname
      -- a body of the table has no variables, so it does not matter how these are related
      obtain ⟨w', hw', halike⟩ := ih (hd.body.of_freeIds_eq_nil (hfree.body hname))
      exact ⟨w', .unfold hname' hw', halike⟩
  | letIn _ ih =>
    cases ht with
    | letIn he hb =>
      obtain ⟨w', hw', halike⟩ := ih (hb.instantiate_one he)
      exact ⟨w', .letIn hw', halike⟩
  | ann _ ih =>
    cases ht with
    | ann he _ =>
      obtain ⟨w', hw', halike⟩ := ih he
      exact ⟨w', .ann hw', halike⟩
  | loc _ ih =>
    cases ht with
    | loc he =>
      obtain ⟨w', hw', halike⟩ := ih he
      exact ⟨w', .loc hw', halike⟩
  | beta _ _ ihf ihb =>
    cases ht with
    | app hf ha =>
      obtain ⟨g, hg, hlam⟩ := ihf hf
      cases hlam with
      | lam hb =>
        obtain ⟨w', hw', halike⟩ := ihb (hb.instantiate_one ha)
        exact ⟨w', .beta hg hw', halike⟩
  | stuck _ hlam ihf =>
    cases ht with
    | app hf ha =>
      obtain ⟨g, hg, halike⟩ := ihf hf
      exact ⟨_, .stuck hg (halike.isLam_eq ▸ hlam), .app halike ha⟩

/-! ## Convertibility -/

section Convertible

variable {table table' : Table}

/-- The terms are alike with convertible ones. -/
def AlikeConvertible (table : Table) (a' b' : Term) : Prop :=
  ∃ P a b, OneToOne P ∧ a.Alike (Paired P) a' ∧ b.Alike (Paired P) b' ∧ Convertible table a b

/-- Bodies that are alike with convertible ones. -/
theorem openedFresh_alikeConvertible {P : List (VarId × VarId)} (hP : OneToOne P) {arity : Nat}
    {b b' c c' : Term} (hb : b.Alike (Paired P) b') (hc : c.Alike (Paired P) c')
    (h : OpenedFresh (Convertible table) arity b c) :
    OpenedFresh (AlikeConvertible table) arity b' c' := by
  obtain ⟨avoided, h⟩ := h
  refine ⟨P.map Prod.snd, fun ys hys hnodup' hnew' => ?_⟩
  -- the variables on this side are paired with as many new ones on the other
  obtain ⟨xs, hxs, hnodup, hnew⟩ := exists_fresh_vars (avoided ++ P.map Prod.fst) arity
  have hlength : xs.length = ys.length := hxs.trans hys.symm
  have havoided : ∀ x ∈ xs, x.id ∉ avoided := fun x hx hmem =>
    hnew x hx (List.mem_append.2 (.inl hmem))
  refine ⟨_, _, _, hP.zip_append (by simpa using hlength) hnodup hnodup' ?_ ?_,
    hb.open_zip hlength, hc.open_zip hlength, h xs hxs hnodup havoided⟩
  · intro id hid
    obtain ⟨x, hx, rfl⟩ := List.mem_map.1 hid
    exact fun hmem => hnew x hx (List.mem_append.2 (.inr hmem))
  · intro id hid
    obtain ⟨y, hy, rfl⟩ := List.mem_map.1 hid
    exact hnew' y hy

theorem sameHead_alikeConvertible {P : List (VarId × VarId)} (hP : OneToOne P)
    {v v' w w' : Term} (hv : v.Alike (Paired P) v') (hw : w.Alike (Paired P) w')
    (h : SameHead (Convertible table) (OpenedFresh (Convertible table)) v w) :
    SameHead (AlikeConvertible table) (OpenedFresh (AlikeConvertible table)) v' w' := by
  -- two parts keep the pairs of the terms that they are parts of
  have hpart : ∀ {a a' b b' : Term}, a.Alike (Paired P) a' → b.Alike (Paired P) b' →
      Convertible table a b → AlikeConvertible table a' b' :=
    fun ha hb h => ⟨P, _, _, hP, ha, hb, h⟩
  cases h with
  | bound i =>
    cases hv
    cases hw
    exact .bound i
  | var hid =>
    cases hv with
    | var hx => cases hw with | var hy => exact .var ((hP.id_eq_iff hx hy).1 hid)
  | ref n =>
    cases hv
    cases hw
    exact .ref n
  | typ =>
    cases hv
    cases hw
    exact .typ
  | all ha hb =>
    cases hv with
    | all ha₁ hb₁ =>
      cases hw with
      | all ha₂ hb₂ => exact .all (hpart ha₁ ha₂ ha) (openedFresh_alikeConvertible hP hb₁ hb₂ hb)
  | lam hb =>
    cases hv with
    | lam hb₁ => cases hw with | lam hb₂ => exact .lam (openedFresh_alikeConvertible hP hb₁ hb₂ hb)
  | app hf ha =>
    cases hv with
    | app hf₁ ha₁ => cases hw with | app hf₂ ha₂ => exact .app (hpart hf₁ hf₂ hf) (hpart ha₁ ha₂ ha)

/-- Convertibility carries over to terms that are alike. -/
theorem Convertible.alike (htable : table.Alike table') (hfree : table.IsVarFree)
    {P : List (VarId × VarId)} (hP : OneToOne P) {a a' b b' : Term}
    (ha : a.Alike (Paired P) a') (hb : b.Alike (Paired P) b') (h : Convertible table a b) :
    Convertible table' a' b' := by
  refine ⟨AlikeConvertible table, ?_, ?_, P, a, b, hP, ha, hb, h⟩
  · rintro a' b' ⟨P, a, b, hP, ha, hb, h⟩
    exact ⟨P, b, a, hP, hb, ha, h.symm⟩
  · rintro a' b' v' ⟨P, a, b, hP, ha, hb, h⟩ hv'
    -- to the other side, from there to the convertible term, and back
    obtain ⟨v, hv, hvv⟩ := hv'.alike htable.symm (htable.isVarFree hfree) ha.symm
    obtain ⟨w, hw, hhead⟩ := Convertible.isSimulation table a b v h hv
    obtain ⟨w', hw', hww⟩ := hw.alike htable hfree hb
    exact ⟨w', hw', sameHead_alikeConvertible hP hvv.symm hww hhead⟩

theorem Convertible.alike_iff (htable : table.Alike table') (hfree : table.IsVarFree)
    {P : List (VarId × VarId)} (hP : OneToOne P) {a a' b b' : Term}
    (ha : a.Alike (Paired P) a') (hb : b.Alike (Paired P) b') :
    Convertible table a b ↔ Convertible table' a' b' :=
  ⟨.alike htable hfree hP ha hb,
    .alike htable.symm (htable.isVarFree hfree) hP.swap ha.swap hb.swap⟩

/-! ## Comparison -/

/-- Bodies that are convertible for all but some variables are so for all new ones. -/
theorem OpenedFresh.always (hfree : table.IsVarFree) {arity : Nat} {b c : Term}
    (h : OpenedFresh (Convertible table) arity b c) :
    OpenedAlways (Convertible table) arity b c := by
  intro ys hys
  obtain ⟨avoided, h⟩ := h
  obtain ⟨xs, hxs, hnodup, hnew⟩ := exists_fresh_vars (avoided ++ (b.freeIds ++ c.freeIds)) arity
  have hlength : xs.length = ys.length := hxs.trans hys.length.symm
  -- the variables of the bodies stay, and those of the one choice give way to those of the other
  have hP := OneToOne.diagonal (b.freeIds ++ c.freeIds)
  -- the variables that the bodies are opened with are new to the pairs, on either side
  have hids : ∀ id ∈ xs.map Var.id,
      id ∉ ((b.freeIds ++ c.freeIds).dedup.map fun id => (id, id)).map Prod.fst := by
    intro id hid hmem
    obtain ⟨x, hx, rfl⟩ := List.mem_map.1 hid
    refine hnew x hx (List.mem_append.2 (.inr ?_))
    simpa [Function.comp_def] using hmem
  have hids' : ∀ id ∈ ys.map Var.id,
      id ∉ ((b.freeIds ++ c.freeIds).dedup.map fun id => (id, id)).map Prod.snd := by
    intro id hid hmem
    obtain ⟨y, hy, rfl⟩ := List.mem_map.1 hid
    simp [Function.comp_def, hys.notMem y hy] at hmem
  have hzip := hP.zip_append (by simpa using hlength) hnodup hys.nodup hids hids'
  have hb : b.Alike (Paired ((b.freeIds ++ c.freeIds).dedup.map fun id => (id, id))) b :=
    .refl fun x hx => by simp [Paired, hx]
  have hc : c.Alike (Paired ((b.freeIds ++ c.freeIds).dedup.map fun id => (id, id))) c :=
    .refl fun x hx => by simp [Paired, hx]
  exact Convertible.alike (.refl table) hfree hzip (hb.open_zip hlength) (hc.open_zip hlength)
    (h xs hxs hnodup fun x hx hmem => hnew x hx (List.mem_append.2 (.inl hmem)))

namespace Kernel

/-- The comparison does not refuse convertible terms, whatever is assumed. -/
theorem equalUnder_ne_false_of_convertible (hfree : table.IsVarFree) {depth : Nat}
    {assumed : List (Term × Term)} {a b : Term} {k k' : Kernel} (ha : k.Avoids a)
    (hb : k.Avoids b) (hab : Convertible table a b) :
    equalUnder table depth assumed a b k ≠ .ok false k' := by
  induction depth generalizing assumed a b k k' with
  | zero =>
    intro h
    cases h
  | succ depth ih =>
    intro h
    rcases equalUnder_cases h with ⟨-, hr⟩ | ⟨a', b', hwa, hwb, ⟨-, hr⟩ | ⟨k₁, hk₁, h'⟩⟩
    · cases hr
    · cases hr
    · -- both terms have normal forms, as otherwise the comparison would not have ended
      obtain ⟨w, hw, hhead⟩ := Convertible.isSimulation table a b a' hab hwa
      rw [hw.unique hwb] at hhead
      exact congruent_ne_false (fun a b => progresses_equalUnder table depth _ a b)
        (fun ha hb hab => ih ha hb hab) (hk₁.avoids (ha.weakHead hfree hwa))
        (hk₁.avoids (hb.weakHead hfree hwb))
        (hhead.imp (fun _ _ h => h) fun _ _ _ h => h.always hfree) h'

/-- A comparison that ends accepts what is convertible, and nothing else. -/
theorem eq_true_iff_convertible (hfree : table.IsVarFree) {depth : Nat} {a b : Term}
    {k k' : Kernel} (ha : k.Avoids a) (hb : k.Avoids b) {r : Bool}
    (h : equal table depth a b k = .ok r k') : r = true ↔ Convertible table a b := by
  cases r with
  | true => exact iff_of_true rfl (.of_equal hfree ha hb h)
  | false =>
    exact iff_of_false Bool.false_ne_true fun hab =>
      equalUnder_ne_false_of_convertible hfree ha hb hab h

open Classical in
/-- A classification that ends comes to the first primitive whose name is convertible with the
type. -/
theorem classifyAmong_eq (hfree : table.IsVarFree) {depth : Nat} {ty : Term} {k k' : Kernel}
    (hty : k.Avoids ty) {ps : List Primitive} {r : Option Primitive}
    (h : classifyAmong table depth ty ps k = .ok r k') :
    r = ps.find? fun p => Convertible table (.ref p.name) ty := by
  induction ps generalizing k with
  | nil => exact (EStateM.eq_of_pure_ok h).symm
  | cons p ps ih =>
    obtain ⟨same, k₁, hsame, h⟩ := EStateM.ok_of_bind_ok h
    -- the name of a primitive has no variables, so every kernel avoids it
    have hname : k.Avoids (.ref p.name) := fun id hid => by cases hid
    have hverdict := eq_true_iff_convertible hfree hname hty hsame
    cases same with
    | true =>
      rw [← EStateM.eq_of_pure_ok h, List.find?_cons_of_pos (by simpa using hverdict)]
    | false =>
      rw [List.find?_cons_of_neg (by simpa using hverdict)]
      exact ih (((progresses_equal table depth (.ref p.name) ty).of_ok hsame).avoids hty) h

/-! ## Two runs -/

theorem canIssue_of_fresh {k k' : Kernel} {n : BinderName} {x : Var}
    (h : fresh n k = .ok x k') : k.supply.CanIssue x.id := by
  obtain ⟨rfl, -⟩ := supply_of_fresh h
  exact ⟨rfl, Nat.le_refl _⟩

/-- The pairs are of variables that neither kernel is yet to issue, and that are told apart on both
sides. -/
structure Joined (P : List (VarId × VarId)) (k k' : Kernel) : Prop extends OneToOne P where
  issuedLeft : ∀ id ∈ P.map Prod.fst, ¬ k.supply.CanIssue id
  issuedRight : ∀ id ∈ P.map Prod.snd, ¬ k'.supply.CanIssue id

namespace Joined

variable {P : List (VarId × VarId)} {k k' k₁ k₁' : Kernel} {t t' : Term}

theorem empty (k k' : Kernel) : Joined [] k k' where
  left := List.nodup_nil
  right := List.nodup_nil
  issuedLeft := by simp
  issuedRight := by simp

theorem follows (h : Joined P k k') (hk : k.Follows k₁) (hk' : k'.Follows k₁') :
    Joined P k₁ k₁' where
  left := h.left
  right := h.right
  issuedLeft id hid hissue :=
    h.issuedLeft id hid ⟨hissue.1.trans hk.group, Nat.le_trans hk.next hissue.2⟩
  issuedRight id hid hissue :=
    h.issuedRight id hid ⟨hissue.1.trans hk'.group, Nat.le_trans hk'.next hissue.2⟩

theorem avoids_left (h : Joined P k k') (ht : t.Alike (Paired P) t') : k.Avoids t :=
  fun _ hid => h.issuedLeft _ (ht.mem_left_of_mem_freeIds hid)

theorem avoids_right (h : Joined P k k') (ht : t.Alike (Paired P) t') : k'.Avoids t' :=
  fun _ hid => h.issuedRight _ (ht.mem_right_of_mem_freeIds hid)

/-- Two variables that are issued at the same time are one more pair. -/
theorem fresh (h : Joined P k k') {n n' : BinderName} {x x' : Var}
    (hx : Kernel.fresh n k = .ok x k₁) (hx' : Kernel.fresh n' k' = .ok x' k₁') :
    Joined ((x.id, x'.id) :: P) k₁ k₁' where
  left := List.nodup_cons.2 ⟨fun hmem => h.issuedLeft _ hmem (canIssue_of_fresh hx), h.left⟩
  right := List.nodup_cons.2 ⟨fun hmem => h.issuedRight _ hmem (canIssue_of_fresh hx'), h.right⟩
  -- the counters of both kernels have moved past the identifiers in the new pair
  issuedLeft := List.forall_mem_cons.2
    ⟨avoids_of_fresh hx _ (List.mem_singleton.2 rfl),
      (h.follows ((progresses_fresh n).of_ok hx) ((progresses_fresh n').of_ok hx')).issuedLeft⟩
  issuedRight := List.forall_mem_cons.2
    ⟨avoids_of_fresh hx' _ (List.mem_singleton.2 rfl),
      (h.follows ((progresses_fresh n).of_ok hx) ((progresses_fresh n').of_ok hx')).issuedRight⟩

end Joined

variable {P : List (VarId × VarId)} {k k' s s' : Kernel} {depth depth' : Nat}

/-- Two comparisons of terms that are alike come to the same verdict, if both come to one. -/
theorem equal_alike (htable : table.Alike table') (hfree : table.IsVarFree)
    (hP : Joined P k k') {a a' b b' : Term} (ha : a.Alike (Paired P) a')
    (hb : b.Alike (Paired P) b') {r r' : Bool} (h : equal table depth a b k = .ok r s)
    (h' : equal table' depth' a' b' k' = .ok r' s') : r = r' := by
  have hr : r = true ↔ Convertible table a b :=
    eq_true_iff_convertible hfree (hP.avoids_left ha) (hP.avoids_left hb) h
  have hr' : r' = true ↔ Convertible table' a' b' :=
    eq_true_iff_convertible (htable.isVarFree hfree) (hP.avoids_right ha) (hP.avoids_right hb) h'
  rw [Bool.eq_iff_iff, hr, hr', Convertible.alike_iff htable hfree hP.toOneToOne ha hb]

theorem classifyAmong_alike (htable : table.Alike table') (hfree : table.IsVarFree)
    (hP : Joined P k k') {ty ty' : Term} (hty : ty.Alike (Paired P) ty') {ps : List Primitive}
    {r r' : Option Primitive} (h : classifyAmong table depth ty ps k = .ok r s)
    (h' : classifyAmong table' depth' ty' ps k' = .ok r' s') : r = r' := by
  have hsame : ∀ p : Primitive,
      Convertible table (.ref p.name) ty ↔ Convertible table' (.ref p.name) ty' :=
    fun p => Convertible.alike_iff htable hfree hP.toOneToOne (.ref p.name) hty
  rw [classifyAmong_eq hfree (hP.avoids_left hty) h,
    classifyAmong_eq (htable.isVarFree hfree) (hP.avoids_right hty) h']
  exact congrArg (List.find? · ps) (funext fun p => decide_eq_decide.2 (hsame p))

/-- Types that are alike are classified as the same primitive, or neither is one. -/
theorem classify_alike (htable : table.Alike table') (hfree : table.IsVarFree)
    (hP : Joined P k k') {ty ty' : Term} (hty : ty.Alike (Paired P) ty')
    {r r' : Option Primitive} (h : classify table depth ty k = .ok r s)
    (h' : classify table' depth' ty' k' = .ok r' s') : r = r' :=
  classifyAmong_alike htable hfree hP hty h h'

/-- Normal forms of terms that are alike are alike. -/
theorem reduce_alike (htable : table.Alike table') (hfree : table.IsVarFree) {t t' w w' : Term}
    (ht : t.Alike (Paired P) t') (h : reduce table depth t k = .ok w s)
    (h' : reduce table' depth' t' k' = .ok w' s') : w.Alike (Paired P) w' := by
  obtain ⟨v, hv, halike⟩ := (weakHead_of_reduce h).alike htable hfree ht
  rw [← hv.unique (weakHead_of_reduce h')]
  exact halike

end Kernel

end Convertible

end SelfTypes
