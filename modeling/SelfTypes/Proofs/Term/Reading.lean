import SelfTypes.Proofs.Term.Closed

/-!
# Readings of terms

The weight of a term, the names that it leaves loose and what it asks of names around it are read
off it in one way: what its parts in places with content say is put together, and a bound variable
says what its binder says of it. A state goes inwards, and what a bound variable says may depend on
the state at its occurrence. `Reading σ α` is a way to read terms, with states in `σ` and results in
`α`.

Main statements: `Reading.read_instantiate`, by which opening a scope with a closed value is reading
its body with a variable that says what the value says, and `Reading.Respects.read`, by which a
relation that all steps of a reading respect holds between two readings if it holds between what the
variables say.
-/

namespace SelfTypes

/-- How what the parts of a term say is put together. -/
structure Reading (σ α : Type) where
  /-- An index that has no binder. -/
  unbound : α
  var : Var → σ → α
  /-- A reference, or a type. -/
  other : α
  lam : BinderName → Bool → σ → α → α
  /-- What a parameter says, from the state at its binder and that at the occurrence. -/
  param : BinderName → Bool → σ → σ → α
  /-- The state in the body of a function. -/
  belowLam : BinderName → Bool → σ → σ
  app : Bool → α → α → α
  letIn : BinderName → Bool → σ → α → α → α
  /-- What the variable of a local definition says, from what its value says in any state. -/
  defined : BinderName → Bool → σ → (σ → α) → σ → α
  /-- The state in the body of a local definition. -/
  belowLet : BinderName → Bool → σ → σ
  ann : α → α
  loc : α → α

namespace Reading

variable {σ α : Type} (R : Reading σ α)

/-- What an index says in a state, if the bound variables around, innermost first, say this. -/
def said (around : List (σ → α)) (i : Nat) (s : σ) : α :=
  around.getD i (fun _ => R.unbound) s

/-- What a term says in a state. -/
def read : (around : List (σ → α)) → σ → Term → α
  | around, s, .bound i => R.said around i s
  | _, s, .var x => R.var x s
  | _, _, .ref _ | _, _, .typ | _, _, .all .. => R.other
  | around, s, .lam n er b =>
    R.lam n er s (read (R.param n er s :: around) (R.belowLam n er s) b)
  | around, s, .app f a er => R.app er (read around s f) (read around s a)
  | around, s, .letIn n dup e b =>
    R.letIn n dup s (read around s e)
      (read (R.defined n dup s (fun s' => read around s' e) :: around) (R.belowLet n dup s) b)
  | around, s, .ann _ e _ => R.ann (read around s e)
  | around, s, .loc _ e => R.loc (read around s e)

/-! ## Relations between readings -/

/-- The relation holds between what two terms say if it holds between what their parts say. -/
structure Respects (r : α → α → Prop) : Prop where
  refl : ∀ a, r a a
  lam : ∀ n er s {a a'}, r a a' → r (R.lam n er s a) (R.lam n er s a')
  app : ∀ er {f f' a a'}, r f f' → r a a' → r (R.app er f a) (R.app er f' a')
  letIn : ∀ n dup s {e e' b b'}, r e e' → r b b' → r (R.letIn n dup s e b) (R.letIn n dup s e' b')
  defined : ∀ n dup s {v v' : σ → α}, (∀ s, r (v s) (v' s)) →
    ∀ s', r (R.defined n dup s v s') (R.defined n dup s v' s')
  ann : ∀ {a a'}, r a a' → r (R.ann a) (R.ann a')
  loc : ∀ {a a'}, r a a' → r (R.loc a) (R.loc a')

variable {R} {r : α → α → Prop} {around around' : List (σ → α)} {t : Term} {depth : Nat}

/-- Only what is said by the binders that the content refers to matters. -/
theorem Respects.read (hR : R.Respects r) (ht : t.ContentClosedAt depth)
    (h : ∀ i < depth, ∀ s, r (R.said around i s) (R.said around' i s)) (s : σ) :
    r (R.read around s t) (R.read around' s t) := by
  -- one more binder on both sides
  have hcons : ∀ {depth : Nat} {around around' : List (σ → α)} {say say' : σ → α},
      (∀ s, r (say s) (say' s)) →
      -- the new binder says related things, and further out nothing has changed
      (∀ i < depth, ∀ s, r (R.said around i s) (R.said around' i s)) →
      ∀ i < depth + 1, ∀ s, r (R.said (say :: around) i s) (R.said (say' :: around') i s) := by
    intro depth around around' say say' hsay h i hi
    cases i with
    | zero => exact hsay
    | succ i => exact h i (Nat.lt_of_succ_lt_succ hi)
  induction t generalizing depth around around' s with
  | bound i => exact h i ht s
  | var | ref | typ | all => exact hR.refl _
  | lam n er b ih => exact hR.lam n er s (ih ht (hcons (fun _ => hR.refl _) h) _)
  | app f a er ihf iha => exact hR.app er (ihf ht.1 h s) (iha ht.2 h s)
  | letIn n dup e b ihe ihb =>
    have hvalue := hR.defined n dup s (ihe ht.1 h)
    exact hR.letIn n dup s (ihe ht.1 h s) (ihb ht.2 (hcons hvalue h) _)
  | ann _ _ _ ih => exact hR.ann (ih ht h s)
  | loc _ _ ih => exact hR.loc (ih ht h s)

variable (R)

theorem respects_eq : R.Respects Eq where
  refl _ := rfl
  lam n er s := congrArg (R.lam n er s)
  app er _ _ _ _ hf ha := by rw [hf, ha]
  letIn n dup s _ _ _ _ he hb := by rw [he, hb]
  defined n dup s _ _ h s' := congrArg (R.defined n dup s · s') (funext h)
  ann := congrArg R.ann
  loc := congrArg R.loc

/-- A term whose indices have binders says the same below any binders. -/
theorem read_of_closed (ht : t.ContentClosedAt 0) (around : List (σ → α)) (s : σ) :
    R.read around s t = R.read [] s t :=
  R.respects_eq.read ht (fun i hi => absurd hi (Nat.not_lt_zero i)) s

/-! ## Opened scopes -/

theorem read_openIndex {v : Term} (hv : v.ContentClosedAt 0) (inner around : List (σ → α))
    (i : Nat) (s : σ) :
    R.read (inner ++ around) s (Term.openIndex [v] inner.length i) =
      R.said (inner ++ (fun s => R.read [] s v) :: around) i s := by
  unfold Term.openIndex
  rcases Nat.lt_or_ge i inner.length with hlt | hle
  -- an index of an inner scope says the same with and without the value
  · simp [read, said, hlt, List.getElem?_append_left hlt]
  · obtain ⟨j, rfl⟩ := Nat.exists_eq_add_of_le hle
    cases j with
    -- the index of the opened scope says what the value does, in whatever state it stands
    | zero => simp [said, R.read_of_closed hv]
    | succ j =>
      -- an index further out is counted past one binder less
      have hpred : inner.length + (j + 1) - [v].length = inner.length + j := rfl
      rw [if_neg (Nat.not_lt.2 hle), Nat.add_sub_cancel_left, hpred]
      simp [read, said, List.getElem?_append_right]

theorem read_openAt {v : Term} (hv : v.ContentClosedAt 0) (t : Term)
    (inner around : List (σ → α)) (s : σ) :
    R.read (inner ++ around) s (t.openAt [v] inner.length) =
      R.read (inner ++ (fun s => R.read [] s v) :: around) s t := by
  induction t generalizing inner s with
  -- the scopes between the depth and the index are passed through one by one
  | bound i => exact R.read_openIndex hv inner around i s
  | var | ref | typ | all => rfl
  | lam n er _ ih => exact congrArg (R.lam n er s) (ih (_ :: inner) _)
  | app _ _ _ ih₁ ih₂ => simp only [Term.openAt_app, read, ih₁, ih₂]
  | letIn n dup _ _ ih₁ ih₂ =>
    simp only [Term.openAt_letIn, read, ih₁]
    exact congrArg (R.letIn n dup s _) (ih₂ (_ :: inner) _)
  | ann _ _ _ ih | loc _ _ ih => simp only [Term.openAt_ann, Term.openAt_loc, read, ih]

/-- A scope that is opened with a closed value says what its body says, if the variable says what
the value does. -/
theorem read_instantiate {v : Term} (hv : v.ContentClosedAt 0) (body : Term) (s : σ) :
    R.read [] s (body.instantiate [v]) = R.read [fun s => R.read [] s v] s body :=
  R.read_openAt hv body [] [] s

/-- Locations can be left out if nothing is said of them. -/
theorem read_unlocate (hloc : ∀ a, R.loc a = a) (around : List (σ → α)) (s : σ) (t : Term) :
    R.read around s t.unlocate = R.read around s t := by
  induction t generalizing around s with
  | bound | var | ref | typ | all => rfl
  | lam _ _ _ ih | ann _ _ _ ih => simp only [Term.unlocate, read, ih]
  | app _ _ _ ih₁ ih₂ | letIn _ _ _ _ ih₁ ih₂ => simp only [Term.unlocate, read, ih₁, ih₂]
  | loc _ _ ih => simp only [Term.unlocate, read, ih, hloc]

end Reading

end SelfTypes
