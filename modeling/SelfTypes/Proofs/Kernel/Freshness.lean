import SelfTypes.Proofs.Kernel.WeakHead

/-!
# Freshness of issued variables

A kernel avoids a term if it will not issue any of the term's free variables again. What it avoids
it goes on avoiding, normal forms included, and a variable it issues does not occur in what it
avoided before.
-/

namespace SelfTypes

/-- The supply has yet to issue the variable. -/
def Supply.CanIssue (s : Supply) (id : VarId) : Prop :=
  id.group = s.group ∧ s.next ≤ id.index

namespace Kernel

/-- The kernel will not issue any free variable of the term. -/
def Avoids (k : Kernel) (t : Term) : Prop :=
  ∀ id ∈ t.freeIds, ¬ k.supply.CanIssue id

variable {k k' : Kernel} {t : Term}

/-- What is yet to be issued later is yet to be issued now. -/
theorem Follows.canIssue (h : Follows k k') {id : VarId} (hid : k'.supply.CanIssue id) :
    k.supply.CanIssue id :=
  ⟨hid.1.trans h.group, Nat.le_trans h.next hid.2⟩

theorem Follows.avoids (h : Follows k k') (ht : k.Avoids t) : k'.Avoids t :=
  fun id hid hissue => ht id hid (h.canIssue hissue)

/-- What a successful computation leads to still avoids what was avoided before. -/
theorem Avoids.of_ok {α : Type} {x : KernelM α} (hx : Progresses Follows x) {a : α}
    (h : x k = .ok a k') (ht : k.Avoids t) : k'.Avoids t :=
  (hx.of_ok h).avoids ht

theorem Avoids.of_subset {u : Term} (ht : k.Avoids t)
    (h : ∀ id ∈ u.freeIds, id ∈ t.freeIds) : k.Avoids u :=
  fun id hid => ht id (h id hid)

theorem Avoids.weakHead {table : Table} {w : Term} (htable : table.IsVarFree)
    (h : WeakHead table t w) (ht : k.Avoids t) : k.Avoids w :=
  ht.of_subset fun _ => h.freeIds_subset htable

theorem Avoids.instantiate {args : List Term} (ht : k.Avoids t)
    (hargs : ∀ v ∈ args, k.Avoids v) : k.Avoids (t.instantiate args) := by
  intro id hid
  rcases Term.freeIds_instantiate hid with h | ⟨v, hv, h⟩
  · exact ht id h
  · exact hargs v hv id h

/-- Reduction issues no variable. -/
theorem supply_reduce (table : Table) (depth : Nat) (t : Term) :
    Progresses (fun k k' => k'.supply = k.supply) (reduce table depth t) := by
  -- reduction opens no binder with a variable, so nothing is issued
  have trans : ∀ k₁ k₂ k₃ : Kernel, k₂.supply = k₁.supply → k₃.supply = k₂.supply →
      k₃.supply = k₁.supply := fun _ _ _ h h' => h'.trans h
  have hburn : Progresses (fun k k' => k'.supply = k.supply) burn := by
    intro k
    unfold burn
    cases k.fuel.burn <;> rfl
  induction depth generalizing t with
  | zero => exact fun _ => rfl
  | succ depth ih =>
    cases t with
    | bound | var | typ | all | lam => exact fun _ => rfl
    | ann _ e _ | loc _ e => exact ih e
    | letIn _ _ e b => exact .bind trans hburn fun _ => ih _
    | ref name =>
      simp only [reduce]
      cases table.find? name with
      | none => exact fun _ => rfl
      | some d => exact .bind trans hburn fun _ => .bind trans (fun _ => rfl) fun _ => ih d.body
    | app f a er =>
      refine .bind trans (ih f) fun head => ?_
      cases head with
      | lam => exact .bind trans hburn fun _ => ih _
      | _ => exact fun _ => rfl

/-! ## Issued variables -/

theorem supply_of_fresh {name : BinderName} {x : Var} (h : fresh name k = .ok x k') :
    x = ⟨⟨k.supply.group, k.supply.next⟩, name⟩ ∧
      k'.supply = ⟨k.supply.group, k.supply.next + 1⟩ := by
  cases h
  exact ⟨rfl, rfl⟩

/-- An issued variable does not occur where the kernel avoided all variables. -/
theorem notMem_of_fresh {name : BinderName} {x : Var} (h : fresh name k = .ok x k')
    (ht : k.Avoids t) : x.id ∉ t.freeIds := by
  obtain ⟨rfl, -⟩ := supply_of_fresh h
  intro hmem
  exact ht _ hmem ⟨rfl, Nat.le_refl _⟩

/-- An issued variable is not issued again. -/
theorem avoids_of_fresh {name : BinderName} {x : Var} (h : fresh name k = .ok x k') :
    k'.Avoids (.var x) := by
  obtain ⟨rfl, hsupply⟩ := supply_of_fresh h
  intro id hid hissue
  rw [List.mem_singleton.1 hid, Supply.CanIssue, hsupply] at hissue
  exact Nat.not_succ_le_self _ hissue.2

end Kernel

end SelfTypes
