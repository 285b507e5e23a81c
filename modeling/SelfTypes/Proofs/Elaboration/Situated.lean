import SelfTypes.Proofs.Elaboration.Derivation
import SelfTypes.Proofs.Kernel.Freshness
import SelfTypes.Proofs.Kernel.HeadReduction
import SelfTypes.Proofs.Term.Naming

/-!
# Where elaboration stands

`Situated ctx k t` gathers what holds of a term, its context and the kernel whenever elaboration
comes to a term, if it holds at the start: there are no dangling indices, no variable is in use that
the kernel is yet to issue, variables are told apart by identity and by name, and no binder of the
term has the name of a variable. There is one lemma for each step inwards. Main statement:
`Derives.settled`, by which the types that are found are of this kind too.
-/

namespace SelfTypes

/-! ## Settled terms -/

/-- The term has no dangling index and no variable that the kernel is yet to issue. -/
structure Settled (k : Kernel) (t : Term) : Prop where
  closed : t.IsLocallyClosed
  avoided : k.Avoids t

namespace Settled

variable {k k' : Kernel} {f a e b t ty u v : Term} {er dup : Bool} {name : BinderName} {span : Span}

theorem follows (h : Settled k t) (hk : k.Follows k') : Settled k' t :=
  ⟨h.closed, hk.avoids h.avoided⟩

theorem typ (k : Kernel) : Settled k .typ :=
  ⟨trivial, fun _ hid => by cases hid⟩

theorem ref (k : Kernel) (n : DefName) : Settled k (.ref n) :=
  ⟨trivial, fun _ hid => by cases hid⟩

/-- Types and bodies of a closed table are settled whatever is issued. -/
theorem of_freeIds_eq_nil (hclosed : t.IsLocallyClosed) (hfree : t.freeIds = []) :
    Settled k t :=
  ⟨hclosed, fun id hid => by rw [hfree] at hid; cases hid⟩

theorem func (h : Settled k (.app f a er)) : Settled k f :=
  ⟨h.closed.1, h.avoided.of_subset fun _ hid => List.mem_append.2 (.inl hid)⟩

theorem arg (h : Settled k (.app f a er)) : Settled k a :=
  ⟨h.closed.2, h.avoided.of_subset fun _ hid => List.mem_append.2 (.inr hid)⟩

theorem expr (h : Settled k (.letIn name dup e b)) : Settled k e :=
  ⟨h.closed.1, h.avoided.of_subset fun _ hid => List.mem_append.2 (.inl hid)⟩

theorem ann (h : Settled k (.ann dup e ty)) : Settled k e :=
  ⟨h.closed.1, h.avoided.of_subset fun _ hid => List.mem_append.2 (.inl hid)⟩

theorem annTy (h : Settled k (.ann dup e ty)) : Settled k ty :=
  ⟨h.closed.2, h.avoided.of_subset fun _ hid => List.mem_append.2 (.inr hid)⟩

theorem annotate (he : Settled k e) (hty : Settled k ty) (done : Bool) :
    Settled k (.ann done e ty) :=
  ⟨⟨he.closed, hty.closed⟩, fun id hid => (List.mem_append.1 hid).elim (he.avoided id)
    (hty.avoided id)⟩

theorem loc (h : Settled k (.loc span e)) : Settled k e :=
  ⟨h.closed, h.avoided⟩

theorem weakHead {table : Table} (hclosed : table.IsLocallyClosed) (hfree : table.IsVarFree)
    (h : Settled k t) (hw : WeakHead table t v) : Settled k v :=
  ⟨hw.isLocallyClosed hclosed h.closed, h.avoided.weakHead hfree hw⟩

theorem bind {s n : BinderName} (h : Settled k (.all s n a b)) : Settled k a :=
  ⟨h.closed.1, h.avoided.of_subset fun _ hid => List.mem_append.2 (.inl hid)⟩

theorem avoided_allBody {s n : BinderName} (h : Settled k (.all s n a b)) : k.Avoids b :=
  h.avoided.of_subset fun _ hid => List.mem_append.2 (.inr hid)

/-- The body of a self type, opened with settled values. -/
theorem allBody {s n : BinderName} (h : Settled k (.all s n a b)) (hu : Settled k u)
    (hv : Settled k v) : Settled k (b.instantiate [u, v]) where
  closed := Term.ClosedAt.instantiate_two h.closed.2 hu.closed hv.closed
  avoided := h.avoided_allBody.instantiate
    (List.forall_mem_cons.2 ⟨hu.avoided, List.forall_mem_singleton.2 hv.avoided⟩)

/-- The body of a function, opened with a settled value. -/
theorem lamBody (h : Settled k (.lam name er b)) (hv : Settled k v) :
    Settled k (b.instantiate [v]) :=
  ⟨Term.ClosedAt.instantiate_one h.closed hv.closed,
    Kernel.Avoids.instantiate h.avoided (List.forall_mem_singleton.2 hv.avoided)⟩

theorem avoided_letBody (h : Settled k (.letIn name dup e b)) : k.Avoids b :=
  h.avoided.of_subset fun _ hid => List.mem_append.2 (.inr hid)

/-- The body of a local definition, opened with a settled value. -/
theorem letBody (h : Settled k (.letIn name dup e b)) (hv : Settled k v) :
    Settled k (b.instantiate [v]) where
  closed := Term.ClosedAt.instantiate_one h.closed.2 hv.closed
  avoided := h.avoided_letBody.instantiate (List.forall_mem_singleton.2 hv.avoided)

/-- An issued variable is settled. -/
theorem issued {x : Var} (h : Kernel.fresh name k = .ok x k') : Settled k' (.var x) :=
  ⟨trivial, Kernel.avoids_of_fresh h⟩

end Settled

theorem Kernel.follows_of_fresh {name : BinderName} {x : Var} {k k' : Kernel}
    (h : Kernel.fresh name k = .ok x k') : k.Follows k' :=
  (Kernel.progresses_fresh name).of_ok h

theorem Kernel.name_of_fresh {name : BinderName} {x : Var} {k k' : Kernel}
    (h : Kernel.fresh name k = .ok x k') : x.name = name := by
  obtain ⟨rfl, -⟩ := Kernel.supply_of_fresh h
  rfl

/-- The type of the body of a function, in which the function and its parameter stand. -/
theorem Settled.lamBodyTy {k k' : Kernel} {name s n : BinderName} {er : Bool}
    {b ty bind tyBody : Term} {x : Var} (h : Settled k (.lam name er b)) (hty : Settled k ty)
    (hall : Settled k (.all s n bind tyBody)) (hx : Kernel.fresh name k = .ok x k') :
    Settled k' (tyBody.instantiate [.ann true (.lam name er b) ty, .ann true (.var x) bind]) := by
  have hk := Kernel.follows_of_fresh hx
  exact (hall.follows hk).allBody ((h.follows hk).annotate (hty.follows hk) true)
    ((Settled.issued hx).annotate (hall.bind.follows hk) true)

/-- What a term is checked against is settled. -/
def Mode.IsSettled (k : Kernel) (mode : Mode) : Prop :=
  ∀ ty, mode = .analysis ty → Settled k ty

theorem Mode.isSettled_synthesis (k : Kernel) : Mode.synthesis.IsSettled k :=
  fun _ h => by cases h

theorem Mode.isSettled_analysis {k : Kernel} {ty : Term} (h : Settled k ty) :
    (Mode.analysis ty).IsSettled k :=
  fun _ heq => by cases heq; exact h

theorem Mode.IsSettled.follows {k k' : Kernel} {mode : Mode} (h : mode.IsSettled k)
    (hk : k.Follows k') : mode.IsSettled k' :=
  fun ty heq => (h ty heq).follows hk

/-! ## Contexts -/

/-- The names of the variables of a context, the latest first. -/
def Context.names (ctx : Context) : List BinderName :=
  ctx.bindings.map (·.1.name)

theorem Context.names_extend (ctx : Context) (x : Var) (ty : Term) :
    (ctx.extend x ty).names = x.name :: ctx.names := rfl

/-- The variables of the context are issued, and told apart by identity and by name; their types are
settled. -/
structure Context.WellFormed (ctx : Context) (k : Kernel) : Prop where
  types : ∀ p ∈ ctx.bindings, Settled k p.2
  issued : ∀ p ∈ ctx.bindings, k.Avoids (.var p.1)
  ids : (ctx.bindings.map (·.1.id)).Nodup
  names : ctx.names.Nodup

namespace Context.WellFormed

variable {ctx : Context} {k k' : Kernel} {x y : Var} {ty ty' : Term} {name : BinderName}

theorem empty (k : Kernel) : Context.empty.WellFormed k where
  types _ hp := by cases hp
  issued _ hp := by cases hp
  ids := List.nodup_nil
  names := List.nodup_nil

theorem follows (h : ctx.WellFormed k) (hk : k.Follows k') : ctx.WellFormed k' where
  types p hp := (h.types p hp).follows hk
  issued p hp := hk.avoids (h.issued p hp)
  ids := h.ids
  names := h.names

/-- An issued variable is none of the context. -/
theorem id_ne (h : ctx.WellFormed k) (hx : Kernel.fresh name k = .ok x k')
    (hy : (y, ty) ∈ ctx.bindings) : y.id ≠ x.id := by
  intro hid
  exact Kernel.notMem_of_fresh hx (h.issued _ hy) (List.mem_singleton.2 hid.symm)

/-- An issued variable of a new name. -/
theorem extend (h : ctx.WellFormed k) (hx : Kernel.fresh name k = .ok x k')
    (hname : name ∉ ctx.names) (hty : Settled k ty) : (ctx.extend x ty).WellFormed k' where
  types := List.forall_mem_cons.2
    ⟨hty.follows (Kernel.follows_of_fresh hx), (h.follows (Kernel.follows_of_fresh hx)).types⟩
  issued := List.forall_mem_cons.2
    ⟨Kernel.avoids_of_fresh hx, (h.follows (Kernel.follows_of_fresh hx)).issued⟩
  ids := by
    refine List.nodup_cons.2 ⟨?_, h.ids⟩
    -- an issued identifier is later than those of the context
    intro hmem
    obtain ⟨p, hp, hid⟩ := List.mem_map.1 hmem
    exact h.id_ne hx hp hid
  names := by
    rw [Context.names_extend, Kernel.name_of_fresh hx]
    exact List.nodup_cons.2 ⟨hname, h.names⟩

/-- The context gives a variable the type that it was added with. -/
theorem find?_eq (h : ctx.WellFormed k) (hx : (x, ty) ∈ ctx.bindings)
    (hfind : ctx.find? x.id = some ty') : ty' = ty := by
  obtain ⟨p, hp, rfl⟩ := Option.map_eq_some_iff.1 hfind
  have hid : p.1.id = x.id := by simpa using List.find?_some hp
  rw [List.inj_on_of_nodup_map h.ids (List.mem_of_find?_eq_some hp) hx hid]

/-- The name of a variable tells its type. -/
theorem eq_of_name (h : ctx.WellFormed k) (hx : (x, ty) ∈ ctx.bindings)
    (hy : (y, ty') ∈ ctx.bindings) (hname : y.name = x.name) : (y, ty') = (x, ty) :=
  List.inj_on_of_nodup_map h.names hy hx hname

end Context.WellFormed

/-! ## Situations -/

/-- What holds of a term, its context and the kernel when elaboration comes to the term. -/
structure Situated (ctx : Context) (k : Kernel) (t : Term) : Prop where
  context : ctx.WellFormed k
  term : Settled k t
  vars : ∀ x ∈ t.contentVars, ∃ ty, (x, ty) ∈ ctx.bindings
  names : t.Unshadowed [] ctx.names

namespace Situated

variable {ctx : Context} {k k' : Kernel} {f a e b t ty v : Term} {er dup : Bool}
  {name : BinderName} {x : Var} {span : Span}

theorem follows (h : Situated ctx k t) (hk : k.Follows k') : Situated ctx k' t :=
  ⟨h.context.follows hk, h.term.follows hk, h.vars, h.names⟩

theorem func (h : Situated ctx k (.app f a er)) : Situated ctx k f :=
  ⟨h.context, h.term.func, fun x hx => h.vars x (List.mem_append.2 (.inl hx)), h.names.1⟩

theorem arg (h : Situated ctx k (.app f a er)) : Situated ctx k a :=
  ⟨h.context, h.term.arg, fun x hx => h.vars x (List.mem_append.2 (.inr hx)), h.names.2⟩

theorem expr (h : Situated ctx k (.letIn name dup e b)) : Situated ctx k e :=
  ⟨h.context, h.term.expr,
    fun x hx => h.vars x (List.mem_append.2 (.inl (List.mem_append.2 (.inl hx)))), h.names.2.1⟩

theorem ann (h : Situated ctx k (.ann dup e ty)) : Situated ctx k e :=
  ⟨h.context, h.term.ann, h.vars, h.names⟩

theorem loc (h : Situated ctx k (.loc span e)) : Situated ctx k e :=
  ⟨h.context, h.term.loc, h.vars, h.names⟩

/-- What holds of a variable still holds after one more. -/
theorem vars_extend (h : ∀ y ∈ t.contentVars, ∃ ty, (y, ty) ∈ ctx.bindings) (x : Var)
    (ty : Term) : ∀ y ∈ t.contentVars, ∃ ty', (y, ty') ∈ (ctx.extend x ty).bindings := by
  intro y hy
  obtain ⟨ty', hmem⟩ := h y hy
  exact ⟨ty', List.mem_cons_of_mem _ hmem⟩

theorem vars_instantiate
    (hb : ∀ y ∈ b.contentVars, ∃ ty, (y, ty) ∈ ctx.bindings)
    (hv : ∀ y ∈ v.contentVars, ∃ ty, (y, ty) ∈ ctx.bindings) :
    ∀ y ∈ (b.instantiate [v]).contentVars, ∃ ty, (y, ty) ∈ ctx.bindings := by
  intro y hy
  rcases Term.mem_gather_instantiate hy with hbody | ⟨u, hu, hvalue⟩
  · exact hb y hbody
  · cases List.mem_singleton.1 hu
    exact hv y hvalue

/-- The body of a function, opened with its parameter. -/
theorem lamBody (h : Situated ctx k (.lam name er b)) (hx : Kernel.fresh name k = .ok x k')
    (hty : Settled k ty) :
    Situated (ctx.extend x ty) k' (b.instantiate [.ann true (.var x) ty]) where
  context := h.context.extend hx h.names.1 hty
  term := (h.term.follows (Kernel.follows_of_fresh hx)).lamBody
    ((Settled.issued hx).annotate (hty.follows (Kernel.follows_of_fresh hx)) true)
  vars := by
    refine vars_instantiate (vars_extend h.vars x ty) fun y hy => ?_
    -- the body has the parameter, which the context now binds
    cases List.mem_singleton.1 hy
    exact ⟨ty, List.mem_cons_self⟩
  names := by
    rw [Context.names_extend, Kernel.name_of_fresh hx]
    have hclosed : (Term.ann true (.var x) ty).ContentClosedAt 0 := trivial
    exact (Term.unshadowed_instantiate hclosed (fun _ => Iff.rfl) b _).2 h.names.2

/-- The body of a local definition, opened with what stands for its value. -/
theorem letBody (h : Situated ctx k (.letIn name dup e b)) (hx : Kernel.fresh name k = .ok x k')
    (hty : Settled k ty) :
    Situated (ctx.extend x ty) k' (b.instantiate [letStandIn dup x e ty]) where
  context := h.context.extend hx h.names.1 hty
  term := by
    have hk := Kernel.follows_of_fresh hx
    refine (h.term.follows hk).letBody (Settled.annotate ?_ (hty.follows hk) true)
    cases dup with
    | true => exact Settled.issued hx
    | false => exact h.term.expr.follows hk
  vars := by
    have hb : ∀ y ∈ b.contentVars, ∃ ty, (y, ty) ∈ ctx.bindings := fun y hy =>
      h.vars y (List.mem_append.2 (.inr hy))
    refine vars_instantiate (vars_extend hb x ty) fun y hy => ?_
    cases dup with
    | true =>
      cases List.mem_singleton.1 hy
      exact ⟨ty, List.mem_cons_self⟩
    | false => exact vars_extend h.expr.vars x ty y hy
  names := by
    -- the name of the binder stands above the body now
    rw [Context.names_extend, Kernel.name_of_fresh hx]
    -- the variable may stand anywhere, the value where none of its binders is met
    cases dup with
    | true =>
      have hclosed : (letStandIn true x e ty).ContentClosedAt 0 := trivial
      exact (Term.unshadowed_instantiate hclosed (by simp [letStandIn, Term.Unshadowed]) b _).2
        h.names.2.2
    | false =>
      have hclosed : (letStandIn false x e ty).ContentClosedAt 0 := h.term.closed.1.content
      exact (Term.unshadowed_instantiate hclosed (by simp [letStandIn, Term.Unshadowed]) b _).2
        h.names.2.2

end Situated

/-! ## Types that are found -/

/-- The type of a global has no variable that could be issued. -/
theorem Settled.of_find? {table : Table} (hclosed : table.IsLocallyClosed)
    (hfree : table.IsVarFree) {n : DefName} {d : Definition} (hd : table.find? n = some d)
    (k : Kernel) : Settled k d.ty := by
  have hmem := List.mem_of_find?_eq_some hd
  exact .of_freeIds_eq_nil (hclosed d hmem).1 (hfree d hmem).1

/-- The type of a literal is a global. -/
theorem Elaborator.exists_ty_eq_ref_of_literal? {t : Term} {r : Elaborated}
    (h : Elaborator.literal? t = some r) : ∃ n, r.ty = .ref n := by
  obtain ⟨_, -, rfl⟩ | ⟨_, -, rfl⟩ := Elaborator.exists_of_literal? h
  · exact ⟨_, rfl⟩
  · exact ⟨_, rfl⟩

/-- Elaboration leads to a later kernel. -/
theorem Derives.follows {env : Environment} {ctx : Context} {t : Term} {mode : Mode}
    {k k' : Kernel} {r : Elaborated} (h : Derives env ctx t mode k r k') : k.Follows k' := by
  induction h with
  | later hk _ hk' ih => exact hk.trans (ih.trans hk')
  | var | ref | typ | all | literal | type => exact .refl _
  | app _ _ _ ih₁ ih₂ => exact ih₁.trans ih₂
  | letIn _ hx _ ih₁ ih₂ => exact ih₁.trans ((Kernel.follows_of_fresh hx).trans ih₂)
  | ann _ ih | loc _ _ ih => exact ih
  | lam _ hx _ ih => exact (Kernel.follows_of_fresh hx).trans ih
  | infer _ _ _ _ hk ih => exact ih.trans hk

/-- Elaboration leads to a later kernel and finds settled types. -/
theorem Derives.settled {env : Environment} (hclosed : env.table.IsLocallyClosed)
    (hfree : env.table.IsVarFree) {ctx : Context} {t : Term} {mode : Mode} {k k' : Kernel}
    {r : Elaborated} (h : Derives env ctx t mode k r k') (ht : Situated ctx k t)
    (hmode : mode.IsSettled k) : k.Follows k' ∧ Settled k' r.ty := by
  refine ⟨h.follows, ?_⟩
  induction h with
  | later hk _ hk' ih => exact (ih (ht.follows hk) (hmode.follows hk)).follows hk'
  | var hx =>
    -- the context has settled types only
    obtain ⟨p, hp, rfl⟩ := Option.map_eq_some_iff.1 hx
    exact ht.context.types p (List.mem_of_find?_eq_some hp)
  | ref hd => exact Settled.of_find? hclosed hfree hd _
  | typ | all | type => exact .typ _
  | app hf hall ha ihf iha =>
    have hfuncTy := (ihf ht.func (Mode.isSettled_synthesis _)).weakHead hclosed hfree hall
    -- the type of the application is opened with the function and the argument, both annotated
    have hself := (ht.term.func.follows hf.follows).annotate hfuncTy true
    have harg := (ht.term.arg.follows hf.follows).annotate hfuncTy.bind true
    exact (hfuncTy.follows ha.follows).allBody (hself.follows ha.follows) (harg.follows ha.follows)
  | letIn he hx _ ihe ihb =>
    have hvalue := ihe ht.expr (Mode.isSettled_synthesis _)
    have hk := he.follows.trans (Kernel.follows_of_fresh hx)
    exact ihb ((ht.follows he.follows).letBody hx hvalue) (hmode.follows hk)
  | ann _ ih => exact ih ht.ann (Mode.isSettled_analysis ht.term.annTy)
  | loc _ _ ih => exact ih ht.loc hmode
  -- the type of a literal is a reference, which is settled everywhere
  | literal hliteral =>
    obtain ⟨n, hn⟩ := Elaborator.exists_ty_eq_ref_of_literal? hliteral
    rw [hn]
    exact .ref _ n
  | lam _ hx hbody _ =>
    -- a function has the type that it was checked against
    exact (hmode _ rfl).follows ((Kernel.follows_of_fresh hx).trans hbody.follows)
  | infer _ _ hinferred _ hk _ =>
    -- so has what shows its type
    exact (hmode _ rfl).follows (hinferred.follows.trans hk)

end SelfTypes
