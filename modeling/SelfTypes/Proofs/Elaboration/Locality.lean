import SelfTypes.Proofs.Elaboration.Lockstep

/-!
# Elaboration looks up what it is led to

All the globals that a run looks up are those that its terms refer to, or those that the definitions
it came to before refer to. So two tables that agree on a set of names which is closed under
references lead to the same run: the same states, and the same ending. The relation `Coincides` says
so of two computations, and that what they come to refers to names of the set only. Main statement:
`Elaborator.definition_eq_of_agreesOn`.
-/

namespace SelfTypes

/-! ## Tables -/

/-- The tables have the same definitions of the names in a set, and these refer to names in the set
only. -/
structure Table.AgreesOn (known : DefName → Prop) (t t' : Table) : Prop where
  find? : ∀ n, known n → t.find? n = t'.find? n
  ty : ∀ n d m, known n → t.find? n = some d → m ∈ d.ty.globals → known m
  body : ∀ n d m, known n → t.find? n = some d → m ∈ d.body.globals → known m

namespace Table.AgreesOn

variable {known : DefName → Prop} {t t' : Table}

theorem comparable (h : t.AgreesOn known t') : Comparable { known } t t' Eq where
  faithful := .eq
  find? n hn := by
    rw [← h.find? n hn]
    cases hd : t.find? n with
    | none => exact .none
    | some d =>
      exact .some ⟨.refl (fun _ _ => rfl) fun m hm => h.ty n d m hn hd hm,
        .refl (fun _ _ => rfl) fun m hm => h.body n d m hn hd hm⟩

end Table.AgreesOn

/-! ## Copies of themselves -/

section Related

variable {R : Term → Term → Prop}

theorem Event.Related.eq (hR : ∀ {t t'}, R t t' → t = t') {e e' : Event} (h : e.Related R e') :
    e = e' := by
  cases h with
  | unfolding | definition => rfl
  | comparison ha hb => rw [hR ha, hR hb]
  | inference ht | checking ht => rw [hR ht]

theorem Task.Related.eq (hR : ∀ {t t'}, R t t' → t = t') {task task' : Task}
    (h : task.Related R task') : task = task' := by
  cases h with
  | definition => rfl
  | synthesis ht => rw [hR ht]
  | analysis ht hty => rw [hR ht, hR hty]

theorem Cause.Related.eq (hR : ∀ {t t'}, R t t' → t = t') {cause cause' : Cause}
    (h : cause.Related R cause') : cause = cause' := by
  -- each cause is made of terms, so related terms that are equal leave one cause
  cases h with
  | undefinedReference | danglingIndex => rfl
  | unboundVariable hx => rw [Term.var.inj (hR hx)]
  | notAFunction ht hty | notAFunctionType ht hty => rw [hR ht, hR hty]
  | uninferableFunction ht => rw [hR ht]
  | mismatch hty hfound => rw [hR hty, hR hfound]

end Related

/-- Under a strict likeness, copies whose variables stand for themselves are one term. -/
theorem Term.Copy.eq_of_known {known : DefName → Prop} {t t' : Term}
    (h : t.Copy { known } Eq t') : t = t' :=
  h.eq_of_strict id id

/-! ## Runs that coincide -/

/-- The endings leave the same state, with the same reason to halt or with related values. -/
inductive SameEnding {ε σ α : Type} (R : α → α → Prop) :
    EStateM.Result ε σ α → EStateM.Result ε σ α → Prop where
  | ok {a a' : α} {s : σ} : R a a' → SameEnding R (.ok a s) (.ok a' s)
  | error (e : ε) (s : σ) : SameEnding R (.error e s) (.error e s)

theorem SameEnding.eq {ε σ α : Type} {r r' : EStateM.Result ε σ α}
    (h : SameEnding (fun a a' => a = a') r r') : r = r' := by
  cases h with
  | ok h => rw [h]
  | error => rfl

/-- If variables stand for themselves, the computations end in the same way from every state. -/
def Coincides {ε σ : Type} (α : Type) (ρ : VarRelation) (Q : VarRelation → α → α → Prop)
    (x x' : EStateM ε σ α) : Prop :=
  ρ = Eq → ∀ s, SameEnding (Q Eq) (x s) (x' s)

namespace Coincides

variable {ε σ α β : Type} {ρ : VarRelation} {Q : VarRelation → α → α → Prop}
  {R : VarRelation → β → β → Prop} {x x' : EStateM ε σ α}

/-- What is known of variables that stand for themselves may be used. -/
theorem of_comparable {L : Likeness} {table table' : Table}
    (hcomparable : Comparable L table table' Eq)
    (h : Comparable L table table' ρ → Coincides α ρ Q x x') : Coincides α ρ Q x x' := by
  rintro rfl
  exact h hcomparable rfl

theorem pure {a a' : α} (h : Q ρ a a') :
    Coincides α ρ Q (Pure.pure a : EStateM ε σ α) (Pure.pure a') := by
  rintro rfl s
  exact .ok h

theorem bind {f f' : α → EStateM ε σ β} (hx : Coincides α ρ Q x x')
    (hf : ∀ ρ' a a', Subrelation ρ ρ' → Q ρ' a a' → Coincides β ρ' R (f a) (f' a')) :
    Coincides β ρ R (x >>= f) (x' >>= f') := by
  rintro rfl s
  rw [EStateM.bind_apply, EStateM.bind_apply]
  have h := hx rfl s
  generalize x s = r, x' s = r' at h ⊢
  cases h with
  | ok hQ => exact hf Eq _ _ id hQ rfl _
  | error => exact .error _ _

/-- A computation coincides with itself, if its values are related to themselves. -/
theorem refl (hQ : ∀ s a t, x s = .ok a t → Q Eq a a) : Coincides α ρ Q x x := by
  rintro rfl s
  cases hx : x s with
  | ok a t => exact .ok (hQ s a t hx)
  | error e t => exact .error e t

end Coincides

section Lockstep

variable {known : DefName → Prop} {table table' : Table}

theorem Kernel.isLockstep_coincides (h : table.AgreesOn known table') :
    IsLockstep { known } table table' Coincides where
  comparable := .of_comparable h.comparable
  pure := .pure
  bind := .bind
  giveUp := .refl fun _ _ _ ht => by cases ht
  note he := by
    rintro rfl
    cases he.eq Term.Copy.eq_of_known
    exact Coincides.refl (Q := fun _ _ _ => True) (fun _ _ _ _ => trivial) rfl
  -- nothing is burnt or issued differently: these steps are the same on both sides
  burn := .refl fun _ _ _ _ => trivial
  fresh _ := .refl fun _ _ _ _ => rfl

theorem Elaborator.coincides_lift {α : Type} {ρ : VarRelation} {Q : VarRelation → α → α → Prop}
    {x x' : KernelM α} (hx : Coincides α ρ Q x x') : Coincides α ρ Q (lift x) (lift x') := by
  intro hρ e
  rw [lift_apply, lift_apply]
  have h := hx hρ e.kernel
  generalize x e.kernel = r, x' e.kernel = r' at h ⊢
  cases h with
  | ok hQ => exact .ok hQ
  | error halt k => cases halt <;> exact .error _ _

theorem Elaborator.coincides_within {α : Type} {ρ : VarRelation} {Q : VarRelation → α → α → Prop}
    (task : Task) {x x' : ElaboratorM α} (hx : Coincides α ρ Q x x') :
    Coincides α ρ Q (within task x) (within task x') := by
  intro hρ e
  rw [within_apply, within_apply]
  have h := hx hρ { e with stack := task :: e.stack }
  generalize x { e with stack := task :: e.stack } = r, x' { e with stack := task :: e.stack } = r'
    at h ⊢
  cases h with
  -- a failure carries the stack of the elaborator, which is one on both sides
  | ok hQ => exact .ok hQ
  | error halt e' => exact .error _ _

theorem Elaborator.isLockstep_coincides (h : table.AgreesOn known table')
    (hknown : Likeness.KnowsBuiltins { known }) (subsumption : Bool) :
    IsLockstep { known } ⟨table, subsumption⟩ ⟨table', subsumption⟩ Coincides where
  builtins := hknown
  comparable := .of_comparable h.comparable
  pure := .pure
  bind := .bind
  giveUp := .refl fun _ _ _ ht => by cases ht
  raise hcause := by
    -- copies under a strict likeness are one term, so the causes are the same
    rintro rfl
    cases hcause.eq Term.Copy.eq_of_known
    exact Coincides.refl (fun _ _ _ ht => by cases ht) rfl
  within htask hx := by
    rintro rfl
    cases htask.eq Term.Copy.eq_of_known
    exact coincides_within _ hx rfl
  note he := coincides_lift ((Kernel.isLockstep_coincides h).note he)
  fresh name := coincides_lift ((Kernel.isLockstep_coincides h).fresh name)
  reduce depth ht := coincides_lift ((Kernel.isLockstep_coincides h).reduce id depth ht)
  equal depth ha hb := coincides_lift ((Kernel.isLockstep_coincides h).equal id depth ha hb)
  -- the two environments differ in the table alone
  subsumption := .inl rfl

/-- A definition whose name is in the set is elaborated in the same way in both tables. -/
theorem Elaborator.definition_eq_of_agreesOn (h : table.AgreesOn known table')
    (hknown : Likeness.KnowsBuiltins { known }) (subsumption : Bool) (depth : Nat) {name : DefName}
    (hname : known name) :
    definition ⟨table, subsumption⟩ depth name = definition ⟨table', subsumption⟩ depth name := by
  funext e
  exact ((isLockstep_coincides h hknown subsumption).definition depth hname rfl e).eq

end Lockstep

end SelfTypes
