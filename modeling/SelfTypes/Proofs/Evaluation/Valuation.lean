import Mathlib.Logic.Function.Basic
import SelfTypes.Proofs.Elaboration.References
import SelfTypes.Proofs.Elaboration.Situated
import SelfTypes.Proofs.Evaluation.Realizability

/-!
# Values of variables

A `Valuation` gives free variables closed terms, a `Store` gives names closed code. They fit a
context if the code realizes the terms at the types of the context (`Fits`); only what is used
by a piece of code counts, and the parameter of an erased function is not. Main statements:
`Fits.extend_kept` and `Fits.extend_erased`, for one more variable.
-/

namespace SelfTypes

/-! ## Terms for variables -/

/-- A closed term for each free variable. -/
structure Valuation where
  value : VarId → Term
  closed : ∀ id, (value id).IsLocallyClosed

namespace Valuation

/-- The valuation that gives each variable itself. -/
def self : Valuation :=
  ⟨fun id => .var ⟨id, ""⟩, fun _ => trivial⟩

/-- The term with the values of its free variables. -/
def apply (ρ : Valuation) (t : Term) : Term :=
  t.subst fun x => ρ.value x.id

/-- The valuation with another value for one variable. -/
def set (ρ : Valuation) (id : VarId) (a : Term) (ha : a.IsLocallyClosed) : Valuation where
  value := Function.update ρ.value id a
  closed id' := by
    by_cases h : id' = id
    · rw [h, Function.update_self]
      exact ha
    · rw [Function.update_of_ne h]
      exact ρ.closed id'

/-- The two agree on variables that the kernel is not going to issue. -/
def Extends (k : Kernel) (ρ ρ' : Valuation) : Prop :=
  ∀ id, ¬ k.supply.CanIssue id → ρ'.value id = ρ.value id

variable {ρ ρ' ρ'' : Valuation} {k k' : Kernel} {t u v w a : Term} {table : Table}

theorem closedSubst (ρ : Valuation) : Term.ClosedSubst fun x => ρ.value x.id :=
  fun x => ρ.closed x.id

theorem isLocallyClosed_apply (ρ : Valuation) (ht : t.IsLocallyClosed) :
    (ρ.apply t).IsLocallyClosed :=
  Term.ClosedAt.subst ht ρ.closedSubst

/-- A term without free variables is left as it is. -/
theorem apply_of_freeIds_eq_nil (ρ : Valuation) (ht : t.freeIds = []) : ρ.apply t = t :=
  Term.subst_of_freeIds_eq_nil ht _

theorem apply_var (ρ : Valuation) (x : Var) : ρ.apply (.var x) = ρ.value x.id := rfl

theorem bare_apply_ann (ρ : Valuation) (done : Bool) (e ty : Term) :
    (ρ.apply (.ann done e ty)).bare = (ρ.apply e).bare := rfl

theorem apply_instantiate (ρ : Valuation) (args : List Term) (body : Term) :
    ρ.apply (body.instantiate args) = (ρ.apply body).instantiate (args.map ρ.apply) :=
  Term.subst_instantiate ρ.closedSubst args body

/-- Without annotations and locations, an opened scope is opened with the values, and annotations
and locations of these do not matter. -/
theorem bare_apply_instantiate (ρ : Valuation) {args args' : List Term}
    (h : args.map (fun v => (ρ.apply v).bare) = args'.map Term.bare) (body : Term) :
    (ρ.apply (body.instantiate args)).bare = ((ρ.apply body).instantiate args').bare := by
  rw [apply_instantiate]
  refine Term.bare_instantiate_congr rfl ?_
  rw [List.map_map]
  exact h

theorem weakHead_apply (hfree : table.IsVarFree) (ρ : Valuation) (ht : WeakHead table t w)
    (hw : WeakHead table (ρ.apply w) v) : WeakHead table (ρ.apply t) v :=
  WeakHead.subst hfree ρ.closedSubst ht hw

theorem convertible_apply (hclosed : table.IsLocallyClosed) (hfree : table.IsVarFree)
    (ρ : Valuation) (ht : t.IsLocallyClosed) (hu : u.IsLocallyClosed)
    (h : Convertible table t u) : Convertible table (ρ.apply t) (ρ.apply u) := by
  refine h.subst hclosed hfree ht hu ρ.closedSubst ρ.closedSubst fun x y hid => ?_
  rw [hid]
  exact .refl table _

/-! ### Agreement -/

theorem Extends.refl (k : Kernel) (ρ : Valuation) : Extends k ρ ρ :=
  fun _ _ => rfl

theorem Extends.trans (h : Extends k ρ ρ') (h' : Extends k ρ' ρ'') : Extends k ρ ρ'' :=
  fun id hid => (h' id hid).trans (h id hid)

/-- The later the kernel, the more variables the two agree on. -/
theorem Extends.of_follows (h : Extends k' ρ ρ') (hk : k.Follows k') : Extends k ρ ρ' := by
  intro id hid
  -- what the later kernel can issue, the earlier one can
  refine h id fun hissue => hid ⟨hissue.1.trans hk.group, Nat.le_trans hk.next hissue.2⟩

theorem Extends.apply_eq (h : Extends k ρ ρ') (ht : k.Avoids t) : ρ'.apply t = ρ.apply t :=
  Term.subst_congr fun x hx => h x.id (ht x.id hx)

/-- A variable that has been issued keeps its value. -/
theorem Extends.value_eq {x : Var} (h : Extends k ρ ρ') (hx : k.Avoids (.var x)) :
    ρ'.value x.id = ρ.value x.id :=
  h x.id (hx x.id (List.mem_singleton.2 rfl))

section Set

variable {x : Var} {name : BinderName} {ha : a.IsLocallyClosed}

theorem value_set_self (ρ : Valuation) (id : VarId) (ha : a.IsLocallyClosed) :
    (ρ.set id a ha).value id = a :=
  Function.update_self ..

theorem value_set_of_ne {id id' : VarId} (h : id' ≠ id) :
    (ρ.set id a ha).value id' = ρ.value id' :=
  Function.update_of_ne h ..

/-- A variable that is issued may get any value. -/
theorem extends_set (hx : Kernel.fresh name k = .ok x k') (ρ : Valuation)
    (ha : a.IsLocallyClosed) : Extends k ρ (ρ.set x.id a ha) := by
  intro id hid
  obtain ⟨rfl, -⟩ := Kernel.supply_of_fresh hx
  -- the variable is the next one, so it could be issued
  exact value_set_of_ne fun heq => hid (heq ▸ ⟨rfl, Nat.le_refl _⟩)

end Set

end Valuation

/-! ## Code for names -/

/-- Closed code for each name. -/
structure Store where
  code : BinderName → Code
  closed : ∀ n, (code n).IsClosed

namespace Store

variable {m n : BinderName} {v : Code}

/-- The store in which no name has code to speak of. -/
def empty : Store :=
  ⟨fun _ => .nul, fun _ => rfl⟩

/-- The store with other code for one name. -/
def set (γ : Store) (n : BinderName) (v : Code) (hv : v.IsClosed) : Store where
  code := Code.bind γ.code n v
  closed m := by
    by_cases h : m = n
    · rw [h, Code.bind_self]
      exact hv
    · rw [Code.bind_of_ne h]
      exact γ.closed m

theorem code_set_self (γ : Store) (n : BinderName) (hv : v.IsClosed) :
    (γ.set n v hv).code n = v :=
  Code.bind_self γ.code n v

theorem code_set_of_ne (γ : Store) (hv : v.IsClosed) (hmn : m ≠ n) :
    (γ.set n v hv).code m = γ.code m :=
  Code.bind_of_ne hmn

theorem isClosed_subst (γ : Store) (c : Code) : (c.subst γ.code).IsClosed :=
  Code.isClosed_subst fun n _ => γ.closed n

end Store

/-! ## Values that fit a context -/

/-- The names that a piece of code uses stand for variables of the context, and what the store has
for them realizes what the valuation has, at the type in the context; the globals that it uses
realize themselves. -/
structure Fits (table : Table) (globals : DefName → Option Code) (h : Nat) (ctx : Context)
    (ρ : Valuation) (γ : Store) (c : Code) : Prop where
  bound : ∀ n ∈ c.freeNames, ∃ x ty, (x, ty) ∈ ctx.bindings ∧ x.name = n ∧
    Realizes table globals h (ρ.value x.id) (ρ.apply ty) (γ.code n)
  references : ∀ n ∈ c.refs, ∀ d, table.find? n = some d →
    Realizes table globals h (.ref n) d.ty (.ref n)

namespace Fits

variable {table : Table} {globals : DefName → Option Code} {h h' : Nat} {ctx : Context}
  {ρ ρ' : Valuation} {γ : Store} {c c' v : Code} {k k' : Kernel} {x : Var} {name : BinderName}
  {a ty : Term}

theorem mono (hfit : Fits table globals h ctx ρ γ c) (hle : h' ≤ h) :
    Fits table globals h' ctx ρ γ c where
  bound n hn := by
    obtain ⟨x, ty, hx, hname, hreal⟩ := hfit.bound n hn
    exact ⟨x, ty, hx, hname, hreal.mono hle⟩
  references n hn d hd := (hfit.references n hn d hd).mono hle

/-- What fits code fits the parts of it that no binder stands above. -/
theorem of_subset (hfit : Fits table globals h ctx ρ γ c) (hnames : c'.freeNames ⊆ c.freeNames)
    (hrefs : c'.refs ⊆ c.refs) : Fits table globals h ctx ρ γ c' where
  bound n hn := hfit.bound n (hnames hn)
  references n hn := hfit.references n (hrefs hn)

theorem of_extends (hfit : Fits table globals h ctx ρ γ c) (hctx : ctx.WellFormed k)
    (hext : ρ.Extends k ρ') : Fits table globals h ctx ρ' γ c where
  bound n hn := by
    obtain ⟨x, ty, hx, hname, hreal⟩ := hfit.bound n hn
    refine ⟨x, ty, hx, hname, ?_⟩
    rw [hext.value_eq (hctx.issued _ hx), hext.apply_eq (hctx.types _ hx).avoided]
    exact hreal
  references := hfit.references

/-- One more variable, which has no code. -/
theorem extend_erased (hfit : Fits table globals h ctx ρ γ c) (hctx : ctx.WellFormed k)
    (hx : Kernel.fresh name k = .ok x k') (ha : a.IsLocallyClosed) (ty : Term) :
    Fits table globals h (ctx.extend x ty) (ρ.set x.id a ha) γ c where
  bound n hn := by
    obtain ⟨y, tyY, hy, hname, hreal⟩ :=
      (hfit.of_extends hctx (Valuation.extends_set hx ρ ha)).bound n hn
    exact ⟨y, tyY, List.mem_cons_of_mem _ hy, hname, hreal⟩
  references := hfit.references

/-- One more variable with its code, below its binder. -/
theorem extend_kept (hfit : Fits table globals h ctx ρ γ c') (hctx : ctx.WellFormed k)
    (hx : Kernel.fresh name k = .ok x k') (ha : a.IsLocallyClosed) (hv : v.IsClosed)
    (hty : k.Avoids ty) (hreal : Realizes table globals h a (ρ.apply ty) v)
    (hnames : ∀ n ∈ c.freeNames, n ≠ name → n ∈ c'.freeNames) (hrefs : c.refs ⊆ c'.refs) :
    Fits table globals h (ctx.extend x ty) (ρ.set x.id a ha) (γ.set name v hv) c where
  bound n hn := by
    have hext := Valuation.extends_set hx ρ ha
    -- the name is that of the new variable, or free in the code with the binder
    by_cases hname : n = name
    · refine ⟨x, ty, List.mem_cons_self, (Kernel.name_of_fresh hx).trans hname.symm, ?_⟩
      rw [Valuation.value_set_self, hext.apply_eq hty, hname, Store.code_set_self]
      exact hreal
    · obtain ⟨y, tyY, hy, hyname, hrealY⟩ :=
        (hfit.of_extends hctx hext).bound n (hnames n hn hname)
      refine ⟨y, tyY, List.mem_cons_of_mem _ hy, hyname, ?_⟩
      rw [Store.code_set_of_ne γ hv hname]
      exact hrealY
  -- the code refers to no more than the one that fits already
  references n hn := hfit.references n (hrefs hn)

end Fits

end SelfTypes
