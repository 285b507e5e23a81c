import SelfTypes.Proofs.Elaboration.Alike
import SelfTypes.Proofs.Elaboration.TypeScope
import SelfTypes.Proofs.Erasure.Basic
import SelfTypes.Proofs.Kernel.Interchange
import SelfTypes.Proofs.Kernel.Lockstep

/-!
# Terms that differ in the types in them

Two runs of the elaborator may elaborate one term with types in it that differ in form: the types
that stand-ins are annotated with have been found by each run on its own. What the runs have in
common is described by a world: the two kernels, and the variables that stand for each other in
them. `SameType` says of two types that they can be interchanged in a world, and `Counterpart` of
two terms that they differ in such types only. Both are kept as worlds grow, and when scopes are
opened. Main statements: `SameType.allBody`, `Retyped.instantiate_one` and `Counterpart.sameType`.
-/

namespace SelfTypes

/-! ## Variables of contexts -/

namespace Context

/-- A context binds the variables in it. -/
theorem binds_iff {ctx : Context} {id : VarId} :
    ctx.Binds id ↔ ∃ p ∈ ctx.bindings, p.1.id = id := by
  simp [Binds, find?]

/-- The variables of a context and of some terms. -/
def idsWith (ctx : Context) (ts : List Term) : List VarId :=
  ctx.bindings.map (·.1.id) ++ ts.flatMap Term.freeIds

theorem mem_idsWith_iff {ctx : Context} {ts : List Term} {id : VarId} :
    id ∈ ctx.idsWith ts ↔ ctx.Binds id ∨ ∃ t ∈ ts, id ∈ t.freeIds := by
  simp [idsWith, binds_iff]

end Context

/-! ## Worlds -/

/-- The kernels of two runs with unlimited budgets, and the variables that stand for each other. -/
structure World where
  pairs : List (VarId × VarId)
  left : Kernel
  right : Kernel
  joined : Kernel.Joined pairs left right
  unlimitedLeft : left.fuel.limit = none
  unlimitedRight : right.fuel.limit = none

namespace World

/-- What two runs may lead to. -/
structure Le (W W' : World) : Prop where
  pairs : W.pairs ⊆ W'.pairs
  left : W.left.Follows W'.left
  right : W.right.Follows W'.right

variable {W W' W'' : World}

theorem Le.refl (W : World) : W.Le W :=
  ⟨List.Subset.refl _, .refl _, .refl _⟩

theorem Le.trans (h : W.Le W') (h' : W'.Le W'') : W.Le W'' :=
  ⟨fun _ hp => h'.pairs (h.pairs hp), h.left.trans h'.left, h.right.trans h'.right⟩

/-- The kernels have moved on without variables to add. -/
def advance (W : World) {k k' : Kernel} (hk : W.left.Follows k) (hk' : W.right.Follows k') :
    World where
  pairs := W.pairs
  left := k
  right := k'
  joined := W.joined.follows hk hk'
  unlimitedLeft := hk.limit.trans W.unlimitedLeft
  unlimitedRight := hk'.limit.trans W.unlimitedRight

/-- The kernels have issued a variable each, and these stand for each other. -/
def issue (W : World) {n n' : BinderName} {x x' : Var} {k k' : Kernel}
    (hx : Kernel.fresh n W.left = .ok x k) (hx' : Kernel.fresh n' W.right = .ok x' k') : World where
  pairs := (x.id, x'.id) :: W.pairs
  left := k
  right := k'
  joined := W.joined.fresh hx hx'
  unlimitedLeft := (Kernel.follows_of_fresh hx).limit.trans W.unlimitedLeft
  unlimitedRight := (Kernel.follows_of_fresh hx').limit.trans W.unlimitedRight

theorem le_advance (W : World) {k k' : Kernel} (hk : W.left.Follows k)
    (hk' : W.right.Follows k') : W.Le (W.advance hk hk') :=
  ⟨List.Subset.refl _, hk, hk'⟩

/-- The variables of the term stand for themselves. -/
def Fixes (W : World) (t : Term) : Prop :=
  ∀ id ∈ t.freeIds, (id, id) ∈ W.pairs

variable {t : Term}

theorem Fixes.avoids_left (h : W.Fixes t) : W.left.Avoids t :=
  fun id hid => W.joined.issuedLeft id (List.mem_map_of_mem (h id hid))

theorem Fixes.avoids_right (h : W.Fixes t) : W.right.Avoids t :=
  fun id hid => W.joined.issuedRight id (List.mem_map_of_mem (h id hid))

/-- The world of two kernels in which the variables of a context and of some terms stand for
themselves; neither kernel is yet to issue any of them. -/
def common (ctx : Context) (ts : List Term) {k k' : Kernel} (hk : k.fuel.limit = none)
    (hk' : k'.fuel.limit = none) (hids : ∀ id ∈ ctx.idsWith ts, ¬ k.supply.CanIssue id)
    (hids' : ∀ id ∈ ctx.idsWith ts, ¬ k'.supply.CanIssue id) : World where
  -- each variable is paired with itself, once
  pairs := (ctx.idsWith ts).dedup.map fun id => (id, id)
  left := k
  right := k'
  joined := {
    toOneToOne := .diagonal (ctx.idsWith ts)
    issuedLeft := by simpa [Function.comp_def] using hids
    issuedRight := by simpa [Function.comp_def] using hids' }
  unlimitedLeft := hk
  unlimitedRight := hk'

section Common

variable {ctx : Context} {ts : List Term} {k k' : Kernel} {hk : k.fuel.limit = none}
  {hk' : k'.fuel.limit = none} {hids : ∀ id ∈ ctx.idsWith ts, ¬ k.supply.CanIssue id}
  {hids' : ∀ id ∈ ctx.idsWith ts, ¬ k'.supply.CanIssue id} {id : VarId}

theorem mem_pairs_common (hid : id ∈ ctx.idsWith ts) :
    (id, id) ∈ (common ctx ts hk hk' hids hids').pairs := by
  simpa [common] using hid

theorem fixes_common (ht : t ∈ ts) : (common ctx ts hk hk' hids hids').Fixes t :=
  fun _ hid => mem_pairs_common (Context.mem_idsWith_iff.2 (.inr ⟨t, ht, hid⟩))

end Common

end World

/-! ## Types -/

/-- The types can be interchanged, and both are settled. -/
structure SameType (table : Table) (W : World) (ty ty' : Term) : Prop where
  left : Settled W.left ty
  right : Settled W.right ty'
  forms : Interconvertible table W.pairs ty ty'

namespace SameType

variable {table : Table} {W W' : World} {ty ty' w w' : Term}

theorem mono (h : SameType table W ty ty') (hW : W.Le W') : SameType table W' ty ty' :=
  ⟨h.left.follows hW.left, h.right.follows hW.right, h.forms.weaken hW.pairs⟩

/-- A closed type whose variables stand for themselves is one type in both runs. -/
theorem refl (hclosed : ty.IsLocallyClosed) (h : W.Fixes ty) : SameType table W ty ty :=
  ⟨⟨hclosed, h.avoids_left⟩, ⟨hclosed, h.avoids_right⟩,
    .of_alike hclosed (.refl fun x hx => h x.id hx)⟩

/-- A closed type without variables is one type in both runs. -/
theorem of_freeIds_eq_nil (hclosed : ty.IsLocallyClosed) (hfree : ty.freeIds = []) :
    SameType table W ty ty :=
  refl hclosed fun id hid => by simp [hfree] at hid

/-- A type that is convertible with one that stands for itself. -/
theorem of_convertible (hclosed : ty.IsLocallyClosed) (hclosed' : ty'.IsLocallyClosed)
    (h : W.Fixes ty) (h' : W.Fixes ty') (hconv : Convertible table ty ty') :
    SameType table W ty ty' :=
  ⟨⟨hclosed, h.avoids_left⟩, ⟨hclosed', h'.avoids_right⟩,
    (refl hclosed' h').forms.congr hconv (.refl table ty')⟩

theorem weakHead (hclosed : table.IsLocallyClosed) (hfree : table.IsVarFree)
    (h : SameType table W ty ty') (hw : WeakHead table ty w) (hw' : WeakHead table ty' w') :
    SameType table W w w' :=
  ⟨h.left.weakHead hclosed hfree hw, h.right.weakHead hclosed hfree hw',
    h.forms.weakHead hw hw'⟩

theorem heads (hclosed : table.IsLocallyClosed) (hfree : table.IsVarFree)
    (h : SameType table W ty ty') (hw : WeakHead table ty w) (hw' : WeakHead table ty' w') :
    TypeHeads table W.pairs w w' :=
  h.forms.heads hclosed hfree h.left.closed h.right.closed hw hw'

variable {s n s' n' : BinderName} {a b a' b' u u' v v' : Term}

theorem bind (hclosed : table.IsLocallyClosed) (hfree : table.IsVarFree)
    (h : SameType table W (.all s n a b) (.all s' n' a' b')) : SameType table W a a' := by
  cases h.heads hclosed hfree (.all ..) (.all ..) with
  | all ha _ => exact ⟨h.left.bind, h.right.bind, ha⟩
  | other _ _ hall _ => exact absurd rfl (hall _ _ _ _)

/-- Bodies of self types that can be interchanged, opened with terms that can be. -/
theorem allBody (hclosed : table.IsLocallyClosed) (hfree : table.IsVarFree)
    (h : SameType table W (.all s n a b) (.all s' n' a' b')) (hu : SameType table W u u')
    (hv : SameType table W v v') :
    SameType table W (b.instantiate [u, v]) (b'.instantiate [u', v']) := by
  cases h.heads hclosed hfree (.all ..) (.all ..) with
  | all _ hb =>
    exact ⟨h.left.allBody hu.left hv.left, h.right.allBody hu.right hv.right,
      hb _ _ _ _ hu.left.closed hu.right.closed hv.left.closed hv.right.closed hu.forms hv.forms⟩
  | other _ _ hall _ => exact absurd rfl (hall _ _ _ _)

end SameType

/-! ## Terms -/

/-- The terms have the same nodes and the same names, up to the types in them: a type that the
source gives differs in annotations within it only, and one that elaboration has put there may be
any that can be interchanged. -/
inductive Retyped (table : Table) (W : World) : Term → Term → Prop where
  | bound (i : Nat) : Retyped table W (.bound i) (.bound i)
  | var {x x' : Var} : Named W.pairs x x' → Retyped table W (.var x) (.var x')
  | ref (name : DefName) : Retyped table W (.ref name) (.ref name)
  | typ : Retyped table W .typ .typ
  -- of a type only what is left without annotations and locations is compared
  | all {s n s' n' : BinderName} {a b a' b' : Term} :
      a.bare.Alike (Paired W.pairs) a'.bare → b.bare.Alike (Paired W.pairs) b'.bare →
      Retyped table W (.all s n a b) (.all s' n' a' b')
  | lam {n : BinderName} {er : Bool} {b b' : Term} :
      Retyped table W b b' → Retyped table W (.lam n er b) (.lam n er b')
  | app {f a f' a' : Term} {er : Bool} :
      Retyped table W f f' → Retyped table W a a' → Retyped table W (.app f a er) (.app f' a' er)
  | letIn {n : BinderName} {dup : Bool} {e b e' b' : Term} :
      Retyped table W e e' → Retyped table W b b' →
      Retyped table W (.letIn n dup e b) (.letIn n dup e' b')
  | ann {done : Bool} {e ty e' ty' : Term} :
      Retyped table W e e' → ty.bare.Alike (Paired W.pairs) ty'.bare →
      Retyped table W (.ann done e ty) (.ann done e' ty')
  -- an annotation put in by elaboration may have another type, as long as the two are equal
  | standIn {done : Bool} {e ty e' ty' : Term} :
      Retyped table W e e' → SameType table W ty ty' →
      Retyped table W (.ann done e ty) (.ann done e' ty')
  | loc {span : Span} {e e' : Term} :
      Retyped table W e e' → Retyped table W (.loc span e) (.loc span e')

namespace Retyped

variable {table : Table} {W W' : World} {t t' v v' : Term}

theorem mono (h : Retyped table W t t') (hW : W.Le W') : Retyped table W' t t' := by
  induction h with
  | bound i => exact .bound i
  | var hx => exact .var (Named.mono hW.pairs hx)
  | ref name => exact .ref name
  | typ => exact .typ
  | all ha hb => exact .all (ha.weaken hW.pairs) (hb.weaken hW.pairs)
  | lam _ ih => exact .lam ih
  | app _ _ ihf iha => exact .app ihf iha
  | letIn _ _ ihe ihb => exact .letIn ihe ihb
  | ann _ hty ih => exact .ann ih (hty.weaken hW.pairs)
  | standIn _ hty ih => exact .standIn ih (hty.mono hW)
  | loc _ ih => exact .loc ih

/-- A term whose variables stand for themselves. -/
theorem refl (h : W.Fixes t) : Retyped table W t t := by
  -- the types are compared bare, and a bare term is like itself
  have halike : ∀ {u : Term}, W.Fixes u → u.bare.Alike (Paired W.pairs) u.bare := by
    intro u hu
    have hself : u.Alike (Paired W.pairs) u := .refl fun x hx => hu x.id hx
    exact hself.bare
  induction t with
  | bound i => exact .bound i
  | var x => exact .var ⟨h x.id (List.mem_singleton.2 rfl), rfl⟩
  | ref name => exact .ref name
  | typ => exact .typ
  | lam _ _ _ ih => exact .lam (ih h)
  | loc _ _ ih => exact .loc (ih h)
  | all _ _ _ _ _ _ =>
    exact .all (halike fun id hid => h id (List.mem_append.2 (.inl hid)))
      (halike fun id hid => h id (List.mem_append.2 (.inr hid)))
  | ann _ _ _ ih _ =>
    exact .ann (ih fun id hid => h id (List.mem_append.2 (.inl hid)))
      (halike fun id hid => h id (List.mem_append.2 (.inr hid)))
  | app _ _ _ ih₁ ih₂ =>
    exact .app (ih₁ fun id hid => h id (List.mem_append.2 (.inl hid)))
      (ih₂ fun id hid => h id (List.mem_append.2 (.inr hid)))
  | letIn _ _ _ _ ih₁ ih₂ =>
    exact .letIn (ih₁ fun id hid => h id (List.mem_append.2 (.inl hid)))
      (ih₂ fun id hid => h id (List.mem_append.2 (.inr hid)))

/-- Without the types in them, the terms are alike. -/
theorem bare (h : Retyped table W t t') : t.bare.Alike (Paired W.pairs) t'.bare := by
  induction h with
  | bound i => exact .bound i
  | var hx => exact .var hx.1
  | ref name => exact .ref name
  | typ => exact .typ
  | all ha hb => exact .all ha hb
  | lam _ ih => exact .lam ih
  | app _ _ ihf iha => exact .app ihf iha
  | letIn _ _ ihe ihb => exact .letIn ihe ihb
  -- a bare term has no annotation or location, so these three only hand the hypothesis on
  | ann _ _ ih | standIn _ _ ih | loc _ ih => exact ih

theorem skeleton (h : Retyped table W t t') : t.skeleton = t'.skeleton := by
  induction h with
  | bound | ref | typ | all => rfl
  | var hx => simp only [Term.skeleton, hx.2]
  | lam _ ih | ann _ _ ih | standIn _ _ ih | loc _ ih => simp only [Term.skeleton, ih]
  | app _ _ ih₁ ih₂ | letIn _ _ ih₁ ih₂ => simp only [Term.skeleton, ih₁, ih₂]

/-- The same literals are written. -/
theorem literal?_eq (h : Retyped table W t t') :
    Elaborator.literal? t = Elaborator.literal? t' :=
  Term.literal?_eq_of_skeleton_eq h.skeleton

theorem openIndex (hv : Retyped table W v v') (depth i : Nat) :
    Retyped table W (Term.openIndex [v] depth i) (Term.openIndex [v'] depth i) := by
  unfold Term.openIndex
  split
  · exact .bound i
  · cases i - depth with
    | zero => exact hv
    | succ j => exact .bound _

theorem openAt (h : Retyped table W t t') (hv : Retyped table W v v') (depth : Nat) :
    Retyped table W (t.openAt [v] depth) (t'.openAt [v'] depth) := by
  -- types of the source are opened too, and those put in by elaboration are closed
  have hbare : ∀ {u u' : Term}, u.bare.Alike (Paired W.pairs) u'.bare → ∀ depth,
      (u.openAt [v] depth).bare.Alike (Paired W.pairs) (u'.openAt [v'] depth).bare := by
    intro u u' h depth
    rw [Term.bare_openAt, Term.bare_openAt]
    exact h.openAt (.cons hv.bare .nil) depth
  induction h generalizing depth with
  | bound i => exact hv.openIndex depth i
  | var hx => exact .var hx
  | ref name => exact .ref name
  | typ => exact .typ
  | all ha hb => exact .all (hbare ha depth) (hbare hb (depth + 2))
  | lam _ ih => exact .lam (ih (depth + 1))
  | app _ _ ihf iha => exact .app (ihf depth) (iha depth)
  | letIn _ _ ihe ihb => exact .letIn (ihe depth) (ihb (depth + 1))
  | ann _ hty ih => exact .ann (ih depth) (hbare hty depth)
  -- the type is closed, so opening passes it by
  | standIn _ hty ih =>
    rw [Term.openAt_ann, Term.openAt_ann, (hty.left.closed.mono (Nat.zero_le depth)).openAt_eq,
      (hty.right.closed.mono (Nat.zero_le depth)).openAt_eq]
    exact .standIn (ih depth) hty
  | loc _ ih => exact .loc (ih depth)

theorem instantiate_one (h : Retyped table W t t') (hv : Retyped table W v v') :
    Retyped table W (t.instantiate [v]) (t'.instantiate [v']) :=
  h.openAt hv 0

end Retyped

/-- What the two runs elaborate: settled terms that differ in the types in them only. -/
structure Counterpart (table : Table) (W : World) (t t' : Term) : Prop where
  left : Settled W.left t
  right : Settled W.right t'
  shape : Retyped table W t t'

namespace Counterpart

variable {table : Table} {W W' : World} {t t' ty ty' e e' b b' : Term} {x x' : Var}
  {name : BinderName} {dup : Bool}

theorem mono (h : Counterpart table W t t') (hW : W.Le W') : Counterpart table W' t t' :=
  ⟨h.left.follows hW.left, h.right.follows hW.right, h.shape.mono hW⟩

/-- As a part of a type, a term can be interchanged with its counterpart. -/
theorem sameType (h : Counterpart table W t t') : SameType table W t t' :=
  ⟨h.left, h.right, .of_bare_alike h.left.closed h.shape.bare⟩

/-- Terms that are annotated with types that can be interchanged. -/
theorem annotate (h : Counterpart table W t t') (hty : SameType table W ty ty') (done : Bool) :
    Counterpart table W (.ann done t ty) (.ann done t' ty') :=
  ⟨h.left.annotate hty.left done, h.right.annotate hty.right done, .standIn h.shape hty⟩

/-- A closed term whose variables stand for themselves. -/
theorem refl (hclosed : t.IsLocallyClosed) (h : W.Fixes t) : Counterpart table W t t :=
  ⟨⟨hclosed, h.avoids_left⟩, ⟨hclosed, h.avoids_right⟩, .refl h⟩

theorem named (h : Counterpart table W (.var x) (.var x')) : Named W.pairs x x' := by
  cases h.shape with
  | var hx => exact hx

/-- The bodies of local definitions, opened with what stands for their values. -/
theorem letBody (h : Counterpart table W (.letIn name dup e b) (.letIn name dup e' b'))
    (hx : Counterpart table W (.var x) (.var x')) (hty : SameType table W ty ty') :
    Counterpart table W (b.instantiate [letStandIn dup x e ty])
      (b'.instantiate [letStandIn dup x' e' ty']) := by
  cases h.shape with
  | letIn he hb =>
    have hvalue : Counterpart table W (if dup then .var x else e)
        (if dup then .var x' else e') := by
      cases dup with
      | true => exact hx
      | false => exact ⟨h.left.expr, h.right.expr, he⟩
    have hstandIn := hvalue.annotate hty true
    exact ⟨h.left.letBody hstandIn.left, h.right.letBody hstandIn.right,
      hb.instantiate_one hstandIn.shape⟩

end Counterpart

/-- The variables of the contexts stand for each other in order, and their types can be
interchanged. -/
def Context.Retyped (table : Table) (W : World) (ctx ctx' : Context) : Prop :=
  List.Forall₂ (fun p p' => Named W.pairs p.1 p'.1 ∧ SameType table W p.2 p'.2) ctx.bindings
    ctx'.bindings

namespace Context.Retyped

variable {table : Table} {W W' : World} {ctx ctx' : Context} {x x' : Var} {ty ty' : Term}

theorem mono (h : ctx.Retyped table W ctx') (hW : W.Le W') : ctx.Retyped table W' ctx' :=
  h.imp fun _ _ h => ⟨Named.mono hW.pairs h.1, h.2.mono hW⟩

theorem extend (h : ctx.Retyped table W ctx') (hx : Named W.pairs x x')
    (hty : SameType table W ty ty') : (ctx.extend x ty).Retyped table W (ctx'.extend x' ty') :=
  .cons ⟨hx, hty⟩ h

theorem find? (h : ctx.Retyped table W ctx') (hx : Named W.pairs x x') :
    Option.Rel (SameType table W) (ctx.find? x.id) (ctx'.find? x'.id) :=
  rel_find? (fun hy hz => W.joined.toOneToOne.id_eq_iff hy.1 hz.1) h hx

/-- A well scoped context is its own counterpart. -/
theorem common (hctx : ctx.WellScoped) (ts : List Term) {k k' : Kernel}
    {hk : k.fuel.limit = none} {hk' : k'.fuel.limit = none}
    {hids : ∀ id ∈ ctx.idsWith ts, ¬ k.supply.CanIssue id}
    {hids' : ∀ id ∈ ctx.idsWith ts, ¬ k'.supply.CanIssue id} :
    ctx.Retyped table (.common ctx ts hk hk' hids hids') ctx := by
  have hself : ∀ id, ctx.Binds id → (id, id) ∈ (World.common ctx ts hk hk' hids hids').pairs :=
    fun id hid => World.mem_pairs_common (mem_idsWith_iff.2 (.inl hid))
  refine List.forall₂_same.2 fun p hp => ⟨⟨hself p.1.id (binds_iff.2 ⟨p, hp, rfl⟩), rfl⟩, ?_⟩
  obtain ⟨hclosed, hbound⟩ := hctx.types p hp
  exact .refl hclosed fun id hid => hself id (hbound id hid)

end Context.Retyped

/-- The same code, and types that can be interchanged. -/
structure SameElaborated (table : Table) (W : World) (r r' : Elaborated) : Prop where
  code : r.code = r'.code
  ty : SameType table W r.ty r'.ty

end SelfTypes
