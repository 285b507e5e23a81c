import SelfTypes.Proofs.Term.Reading

/-!
# Measures of terms

Two measures by which recursive calls on terms decrease.

`Term.size` counts the nodes of a term. Opening a scope with variables does not change it.

`Term.weight` measures the work of elaborating a term. Types do not count. A bound variable weighs
as much as what elaboration puts in its place: an annotated variable, or, where the value of a
local definition takes its place, that value. So local definitions count as if they were expanded,
and opening a scope with the stand-in of its variable does not change the weight.
-/

namespace SelfTypes.Term

/-! ## Size -/

/-- The number of nodes of a term. -/
def size : Term → Nat
  | bound _ | var _ | ref _ | typ => 1
  | all _ _ a b => a.size + b.size + 1
  | lam _ _ b => b.size + 1
  | app f a _ => f.size + a.size + 1
  | letIn _ _ e b => e.size + b.size + 1
  | ann _ e t => e.size + t.size + 1
  | loc _ e => e.size + 1

theorem size_openAt {values : List Term} (hvalues : ∀ v ∈ values, v.size = 1) (t : Term)
    (depth : Nat) : (t.openAt values depth).size = t.size := by
  induction t generalizing depth with
  | bound i =>
    -- what takes the place of an index is as small as the index
    rcases openIndex_cases values depth i with ⟨j, hj⟩ | hv
    · rw [openAt_bound, hj]
      rfl
    · exact hvalues _ hv
  | var | ref | typ => rfl
  | lam _ _ _ ih | loc _ _ ih => simp only [openAt_lam, openAt_loc, size, ih]
  | all _ _ _ _ ih₁ ih₂ | app _ _ _ ih₁ ih₂ | letIn _ _ _ _ ih₁ ih₂ | ann _ _ _ ih₁ ih₂ =>
    simp only [openAt_all, openAt_app, openAt_letIn, openAt_ann, size, ih₁, ih₂]

theorem size_instantiate {args : List Term} (hargs : ∀ v ∈ args, v.size = 1) (body : Term) :
    (body.instantiate args).size = body.size :=
  size_openAt (fun v hv => hargs v (List.mem_reverse.1 hv)) body 0

/-! ## Weight -/

/-- The weight of a term, given the weights of the variables bound around it, innermost first. -/
def weight : (around : List Nat) → Term → Nat
  | around, bound i => around.getD i 1
  | _, var _ | _, ref _ | _, typ | _, all .. => 1
  | around, lam _ _ b => b.weight (2 :: around) + 1
  | around, app f a _ => f.weight around + a.weight around + 1
  | around, letIn _ dup e b =>
    e.weight around + b.weight ((if dup then 2 else e.weight around + 1) :: around) + 1
  | around, ann _ e _ => e.weight around + 1
  | around, loc _ e => e.weight around + 1

/-- The weight as a reading, without a state. -/
def weighing : Reading Unit Nat where
  unbound := 1
  var _ _ := 1
  other := 1
  lam _ _ _ b := b + 1
  param _ _ _ _ := 2
  belowLam _ _ _ := ()
  app _ f a := f + a + 1
  letIn _ _ _ e b := e + b + 1
  -- the value of an inlined definition comes back annotated at each use, and a parameter or shared
  -- variable as an annotated variable
  defined _ dup _ e _ := if dup then 2 else e () + 1
  belowLet _ _ _ := ()
  ann e := e + 1
  loc e := e + 1

theorem weight_eq_read (around : List Nat) (t : Term) :
    t.weight around = weighing.read (around.map fun w _ => w) () t := by
  induction t generalizing around with
  | bound i =>
    simp only [weight, Reading.read, Reading.said, List.getD_eq_getElem?_getD, List.getElem?_map]
    -- an index without a binder weighs one on both sides
    cases around[i]? <;> rfl
  | var | ref | typ | all => rfl
  | lam _ _ _ ih | ann _ _ _ ih | loc _ _ ih => exact congrArg (· + 1) (ih _)
  | app _ _ _ ih₁ ih₂ => simp only [weight, ih₁, ih₂, Reading.read, weighing]
  | letIn _ _ _ _ ih₁ ih₂ => simp only [weight, ih₁, ih₂, Reading.read, List.map_cons, weighing]

theorem weight_instantiate {v : Term} (hv : v.ContentClosedAt 0) (body : Term) :
    (body.instantiate [v]).weight [] = body.weight [v.weight []] := by
  simp only [weight_eq_read]
  exact weighing.read_instantiate hv body ()

/-! ## Lighter parts -/

section

variable (n : BinderName) (er dup done : Bool) (f a e b ty : Term) (span : Span)

theorem weight_func_lt : f.weight [] < (app f a er).weight [] := by
  simp only [weight]
  omega

theorem weight_arg_lt : a.weight [] < (app f a er).weight [] := by
  simp only [weight]
  omega

theorem weight_expr_lt : e.weight [] < (letIn n dup e b).weight [] := by
  simp only [weight]
  omega

theorem weight_ann_lt : e.weight [] < (ann done e ty).weight [] :=
  Nat.lt_succ_self _

theorem weight_loc_lt : e.weight [] < (loc span e).weight [] :=
  Nat.lt_succ_self _

variable {v : Term} (hv : v.ContentClosedAt 0) (hweight : v.weight [] = 2)
include hv hweight

/-- The body of a function, opened with what stands for the parameter. -/
theorem weight_lamBody_lt : (b.instantiate [v]).weight [] < (lam n er b).weight [] := by
  rw [weight_instantiate hv, hweight]
  exact Nat.lt_succ_self _

/-- The body of a local definition that is left, opened with what stands for its variable. -/
theorem weight_sharedBody_lt :
    (b.instantiate [v]).weight [] < (letIn n true e b).weight [] := by
  rw [weight_instantiate hv, hweight]
  simp only [weight, if_true]
  omega

end

/-- The body of any other local definition, opened with the value. -/
theorem weight_inlinedBody_lt (n : BinderName) {e : Term} (he : e.ContentClosedAt 0) (b : Term) :
    (b.instantiate [ann true e typ]).weight [] < (letIn n false e b).weight [] := by
  have hvalue : (ann true e typ).ContentClosedAt 0 := he
  rw [weight_instantiate hvalue]
  simp only [weight, Bool.false_eq_true, if_false]
  omega

end SelfTypes.Term
