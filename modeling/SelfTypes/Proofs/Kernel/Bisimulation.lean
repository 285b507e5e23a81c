import SelfTypes.Proofs.Kernel.Freshness

/-!
# Bisimulations between terms

Equality of possibly recursive terms has a description without a procedure: two terms are equal if
some bisimulation relates them. A bisimulation relates terms whose weak head normal forms have the
same head and related parts, where bodies of binders are compared with the same variables in them.

The relations `SameHead` and `Opened…` leave open how bodies are opened: a bisimulation asks for
every choice of variables, a run of the kernel makes one choice. Main statement:
`SameHead.rename`, by which one choice speaks for all of them.
-/

namespace SelfTypes

/-! ## Heads and parts -/

/-- Two weak head normal forms with the same head, whose parts are related by `part` and whose
bodies, under as many binders as the number says, are related by `body`. -/
inductive SameHead (part : Term → Term → Prop) (body : Nat → Term → Term → Prop) :
    Term → Term → Prop where
  | bound (i : Nat) : SameHead part body (.bound i) (.bound i)
  | var {x y : Var} : x.id = y.id → SameHead part body (.var x) (.var y)
  | ref (name : DefName) : SameHead part body (.ref name) (.ref name)
  | typ : SameHead part body .typ .typ
  | all {s s' n n' : BinderName} {a a' b b' : Term} :
      part a a' → body 2 b b' → SameHead part body (.all s n a b) (.all s' n' a' b')
  | lam {n n' : BinderName} {er : Bool} {b b' : Term} :
      body 1 b b' → SameHead part body (.lam n er b) (.lam n' er b')
  | app {f f' a a' : Term} {er : Bool} :
      part f f' → part a a' → SameHead part body (.app f a er) (.app f' a' er)

/-- Distinct variables, as many as there are binders, that occur in neither body. -/
structure FreshFor (arity : Nat) (b b' : Term) (xs : List Var) : Prop where
  length : xs.length = arity
  nodup : (xs.map Var.id).Nodup
  notMem : ∀ x ∈ xs, x.id ∉ b.freeIds ∧ x.id ∉ b'.freeIds

/-- Two bodies that are related when they are opened with the same variables, whichever these
are. -/
def OpenedAlways (R : Term → Term → Prop) (arity : Nat) (b b' : Term) : Prop :=
  ∀ xs, FreshFor arity b b' xs → R (b.instantiate (xs.map .var)) (b'.instantiate (xs.map .var))

/-- Two bodies that are related when they are opened with the same variables, for some choice of
these. -/
def OpenedOnce (R : Term → Term → Prop) (arity : Nat) (b b' : Term) : Prop :=
  ∃ xs, FreshFor arity b b' xs ∧ R (b.instantiate (xs.map .var)) (b'.instantiate (xs.map .var))

/-- Related terms are structurally equal, or their weak head normal forms have the same head and
related parts. -/
def IsBisimulation (table : Table) (R : Term → Term → Prop) : Prop :=
  ∀ a b, R a b → a = b ∨ ∃ a' b', WeakHead table a a' ∧ WeakHead table b b' ∧
    SameHead R (OpenedAlways R) a' b'

/-- A weak head normal form has the same head as itself. -/
theorem WeakHead.sameHead_self {table : Table} {t w : Term} (h : WeakHead table t w)
    {R : Term → Term → Prop} (hR : ∀ t, R t t) : SameHead R (OpenedAlways R) w w := by
  induction h with
  | bound i => exact .bound i
  | var x => exact .var rfl
  | typ => exact .typ
  | all => exact .all (hR _) fun _ _ => hR _
  | lam => exact .lam fun _ _ => hR _
  | unknown => exact .ref _
  | stuck => exact .app (hR _) (hR _)
  | unfold _ _ ih | letIn _ ih | ann _ ih | loc _ ih | beta _ _ _ ih => exact ih

/-! ## One choice of variables speaks for all -/

/-- Renamings by which occurrences of one variable stay occurrences of one variable. -/
def RespectsIds (σ : Var → Var) : Prop :=
  ∀ x y : Var, x.id = y.id → (σ x).id = (σ y).id

/-- The renaming that takes the variables `xs` to `ys`, and others where `σ` takes them. -/
def redirect (σ : Var → Var) : List Var → List Var → Var → Var
  | x :: xs, y :: ys => fun z => if z.id = x.id then y else redirect σ xs ys z
  | _, _ => σ

theorem respectsIds_redirect {σ : Var → Var} (hσ : RespectsIds σ) (xs ys : List Var) :
    RespectsIds (redirect σ xs ys) := by
  induction xs generalizing ys with
  | nil => exact hσ
  | cons x xs ih =>
    cases ys with
    | nil => exact hσ
    | cons y ys =>
      intro u v huv
      simp only [redirect, huv]
      split
      · rfl
      · exact ih ys u v huv

theorem redirect_of_notMem {σ : Var → Var} {xs ys : List Var} {z : Var}
    (hz : ∀ x ∈ xs, z.id ≠ x.id) : redirect σ xs ys z = σ z := by
  induction xs generalizing ys with
  | nil => rfl
  | cons x xs ih =>
    cases ys with
    | nil => rfl
    | cons y ys =>
      simp only [redirect, hz x List.mem_cons_self, if_false]
      exact ih fun x hx => hz x (List.mem_cons_of_mem _ hx)

theorem map_redirect {σ : Var → Var} {xs ys : List Var} (hlength : xs.length = ys.length)
    (hnodup : (xs.map Var.id).Nodup) : xs.map (redirect σ xs ys) = ys := by
  induction xs generalizing ys with
  | nil => exact (List.length_eq_zero_iff.1 hlength.symm).symm
  | cons x xs ih =>
    cases ys with
    | nil => cases hlength
    | cons y ys =>
      -- the later variables are not `x`, so the first redirection passes them by
      obtain ⟨hx, hnodup⟩ := List.nodup_cons.1 hnodup
      have htail : xs.map (redirect σ (x :: xs) (y :: ys)) = xs.map (redirect σ xs ys) := by
        refine List.map_congr_left fun z hz => ?_
        have hne : z.id ≠ x.id := fun h => hx (h ▸ List.mem_map_of_mem hz)
        simp only [redirect, hne, if_false]
      rw [List.map_cons, htail, ih (Nat.succ.inj hlength) hnodup]
      simp only [redirect, if_true]

/-- Opening a body with new variables and renaming them is opening the renamed body with what they
are renamed to. -/
theorem rename_redirect_instantiate {σ : Var → Var} {xs ys : List Var} {b : Term}
    (hlength : xs.length = ys.length) (hnodup : (xs.map Var.id).Nodup)
    (hb : ∀ x ∈ xs, x.id ∉ b.freeIds) :
    (b.instantiate (xs.map .var)).rename (redirect σ xs ys) =
      (b.rename σ).instantiate (ys.map .var) := by
  have hbody : b.rename (redirect σ xs ys) = b.rename σ := by
    refine Term.rename_congr fun z hz => redirect_of_notMem fun x hx h => ?_
    exact hb x hx (h ▸ hz)
  have hargs : (xs.map Term.var).map (Term.rename (redirect σ xs ys)) = ys.map Term.var := by
    calc
      (xs.map Term.var).map (Term.rename (redirect σ xs ys))
          = (xs.map (redirect σ xs ys)).map Term.var := by
        rw [List.map_map, List.map_map]
        rfl
      _ = ys.map Term.var := by rw [map_redirect hlength hnodup]
  rw [Term.rename_instantiate, hbody, hargs]

/-- Heads that agree with bodies opened once agree, after renaming, with bodies opened in every way,
in a relation that has all renamings of the given one. -/
theorem SameHead.rename {C R : Term → Term → Prop} {p q : Term}
    (h : SameHead C (OpenedOnce C) p q)
    (hCR : ∀ a b σ, C a b → RespectsIds σ → R (a.rename σ) (b.rename σ)) {σ : Var → Var}
    (hσ : RespectsIds σ) : SameHead R (OpenedAlways R) (p.rename σ) (q.rename σ) := by
  have hbody : ∀ arity b b', OpenedOnce C arity b b' →
      OpenedAlways R arity (b.rename σ) (b'.rename σ) := by
    rintro arity b b' ⟨xs, hxs, hC⟩ ys hys
    have hlength : xs.length = ys.length := hxs.length.trans hys.length.symm
    -- rename the variables of the one choice to those of the other
    have hR := hCR _ _ (redirect σ xs ys) hC (respectsIds_redirect hσ xs ys)
    rw [rename_redirect_instantiate hlength hxs.nodup fun x hx => (hxs.notMem x hx).1,
      rename_redirect_instantiate hlength hxs.nodup fun x hx => (hxs.notMem x hx).2] at hR
    exact hR
  cases h with
  | bound i => exact .bound i
  | var hid => exact .var (hσ _ _ hid)
  | ref name => exact .ref name
  | typ => exact .typ
  | all ha hb => exact .all (hCR _ _ σ ha hσ) (hbody _ _ _ hb)
  | lam hb => exact .lam (hbody _ _ _ hb)
  | app hf ha => exact .app (hCR _ _ σ hf hσ) (hCR _ _ σ ha hσ)

end SelfTypes
