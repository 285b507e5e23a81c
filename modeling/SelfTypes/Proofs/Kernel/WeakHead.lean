import SelfTypes.Proofs.Depth
import SelfTypes.Proofs.Progress
import SelfTypes.Proofs.Term.FreeVariables

/-!
# Weak head normal forms

`WeakHead table t w` says that `w` is the weak head normal form of `t`, without reference to budgets
or depths. Main statement: `weakHead_iff_returns`, by which it is what reduction with an unlimited
budget returns. Normal forms are unique, and renaming of free variables carries over to them.
-/

namespace SelfTypes

/-- Whether a term is a function. -/
def Term.isLam : Term → Bool
  | .lam .. => true
  | _ => false

/-- `w` is the weak head normal form of the first term. -/
inductive WeakHead (table : Table) : Term → Term → Prop where
  | bound (i : Nat) : WeakHead table (.bound i) (.bound i)
  | var (x : Var) : WeakHead table (.var x) (.var x)
  | typ : WeakHead table .typ .typ
  | all (s n : BinderName) (a b : Term) : WeakHead table (.all s n a b) (.all s n a b)
  | lam (n : BinderName) (er : Bool) (b : Term) : WeakHead table (.lam n er b) (.lam n er b)
  /-- A global without definition stays as it is. -/
  | unknown {name : DefName} :
      table.find? name = none → WeakHead table (.ref name) (.ref name)
  /-- A defined global gives way to its body. -/
  | unfold {name : DefName} {d : Definition} {w : Term} :
      table.find? name = some d → WeakHead table d.body w → WeakHead table (.ref name) w
  /-- A local definition is contracted. -/
  | letIn {n : BinderName} {dup : Bool} {e b w : Term} :
      WeakHead table (b.instantiate [e]) w → WeakHead table (.letIn n dup e b) w
  /-- An annotation at the head is dropped. -/
  | ann {d : Bool} {e ty w : Term} : WeakHead table e w → WeakHead table (.ann d e ty) w
  /-- A location at the head is dropped. -/
  | loc {s : Span} {e w : Term} : WeakHead table e w → WeakHead table (.loc s e) w
  /-- An applied function is contracted. -/
  | beta {f a b w : Term} {n : BinderName} {er er' : Bool} :
      WeakHead table f (.lam n er' b) → WeakHead table (b.instantiate [a]) w →
      WeakHead table (.app f a er) w
  /-- An application whose head is no function keeps its argument. -/
  | stuck {f a h : Term} {er : Bool} :
      WeakHead table f h → h.isLam = false → WeakHead table (.app f a er) (.app h a er)

namespace WeakHead

variable {table : Table} {t w w' : Term}

theorem unique (h : WeakHead table t w) (h' : WeakHead table t w') : w = w' := by
  induction h generalizing w' with
  | bound | var | typ | all | lam => cases h'; rfl
  -- a global is defined or not, so the two rules for it exclude each other
  | unknown hname =>
    cases h' with
    | unknown => rfl
    | unfold hname' => rw [hname] at hname'; cases hname'
  | unfold hname _ ih =>
    cases h' with
    | unknown hname' => rw [hname] at hname'; cases hname'
    | unfold hname' h' =>
      rw [hname] at hname'
      cases hname'
      exact ih h'
  | letIn _ ih => cases h' with | letIn h' => exact ih h'
  | ann _ ih => cases h' with | ann h' => exact ih h'
  | loc _ ih => cases h' with | loc h' => exact ih h'
  | beta _ _ ih₁ ih₂ =>
    cases h' with
    | beta h₁ h₂ =>
      cases ih₁ h₁
      exact ih₂ h₂
    | stuck h₁ hlam =>
      -- the head is a function, so the application is not stuck
      cases ih₁ h₁
      cases hlam
  | stuck _ hlam ih =>
    cases h' with
    | beta h₁ _ =>
      cases ih h₁
      cases hlam
    | stuck h₁ _ => rw [ih h₁]

theorem freeIds_subset (htable : table.IsVarFree) (h : WeakHead table t w) {id : VarId}
    (hid : id ∈ w.freeIds) : id ∈ t.freeIds := by
  induction h with
  | bound | var | typ | all | lam | unknown => exact hid
  | unfold hname _ ih =>
    -- a body of the table has no variable to give
    have hbody := ih hid
    rw [htable.body hname] at hbody
    cases hbody
  | letIn _ ih =>
    rcases Term.freeIds_instantiate (ih hid) with h | ⟨v, hv, h⟩
    · exact List.mem_append.2 (.inr h)
    · cases List.mem_singleton.1 hv
      exact List.mem_append.2 (.inl h)
  | ann _ ih => exact List.mem_append.2 (.inl (ih hid))
  | loc _ ih => exact ih hid
  | beta _ _ ih₁ ih₂ =>
    rcases Term.freeIds_instantiate (ih₂ hid) with h | ⟨v, hv, h⟩
    · exact List.mem_append.2 (.inl (ih₁ h))
    · cases List.mem_singleton.1 hv
      exact List.mem_append.2 (.inr h)
  | stuck _ _ ih =>
    rcases List.mem_append.1 hid with h | h
    · exact List.mem_append.2 (.inl (ih h))
    · exact List.mem_append.2 (.inr h)

theorem isLam_rename (σ : Var → Var) (t : Term) : (t.rename σ).isLam = t.isLam := by
  cases t <;> rfl

/-- Renaming free variables carries over to the normal form: reduction does not look at them. -/
theorem rename (htable : table.IsVarFree) (h : WeakHead table t w) (σ : Var → Var) :
    WeakHead table (t.rename σ) (w.rename σ) := by
  induction h with
  | bound | var | typ | all | lam => constructor
  | unknown hname => exact .unknown hname
  | unfold hname _ ih =>
    -- a body of the table has no variable to rename
    rw [Term.rename_of_freeIds_eq_nil (htable.body hname)] at ih
    exact .unfold hname ih
  | letIn _ ih =>
    rw [Term.rename_instantiate] at ih
    exact .letIn ih
  | ann _ ih => exact .ann ih
  | loc _ ih => exact .loc ih
  | beta _ _ ih₁ ih₂ =>
    rw [Term.rename_instantiate] at ih₂
    exact .beta ih₁ ih₂
  | stuck _ hlam ih =>
    rw [← isLam_rename σ] at hlam
    exact .stuck ih hlam

end WeakHead

/-! ## Reduction computes the normal form -/

namespace Kernel

/-- What reduction returns is the normal form, whatever the budget. -/
theorem weakHead_of_reduce {table : Table} {d : Nat} {t w : Term} {k k' : Kernel}
    (h : reduce table d t k = .ok w k') : WeakHead table t w := by
  induction d generalizing t w k k' with
  | zero => cases h
  | succ d ih =>
    cases t with
    | bound i => cases h; exact .bound i
    | var x => cases h; exact .var x
    | typ => cases h; exact .typ
    | all s n a b => cases h; exact .all s n a b
    | lam n er b => cases h; exact .lam n er b
    | ann _ e _ => exact .ann (ih h)
    | loc _ e => exact .loc (ih h)
    | letIn n dup e b =>
      -- the step that is burnt and the event that is noted leave no mark on the result
      obtain ⟨_, _, _, h⟩ := EStateM.ok_of_bind_ok h
      exact .letIn (ih h)
    | ref name =>
      simp only [reduce] at h
      cases hname : table.find? name with
      | none =>
        rw [hname] at h
        cases h
        exact .unknown hname
      | some entry =>
        rw [hname] at h
        obtain ⟨_, _, _, h⟩ := EStateM.ok_of_bind_ok h
        obtain ⟨_, _, _, h⟩ := EStateM.ok_of_bind_ok h
        exact .unfold hname (ih h)
    | app f a er =>
      obtain ⟨head, _, hhead, h⟩ := EStateM.ok_of_bind_ok h
      -- whether the application is contracted depends on the head that was found
      cases head with
      | lam n er' b =>
        obtain ⟨_, _, _, h⟩ := EStateM.ok_of_bind_ok h
        exact .beta (ih hhead) (ih h)
      | _ =>
        cases h
        exact .stuck (ih hhead) rfl

/-- An unlimited budget allows one more step. -/
theorem returns_burn {k : Kernel} (hk : k.fuel.limit = none) :
    Returns (fun _ => burn) k (.ok () { k with fuel := ⟨none, k.fuel.used + 1⟩ }) :=
  returns_const (burn_of_unlimited hk) (isAnswer_ok _ _)

/-- Every normal form is returned by reduction with an unlimited budget. -/
theorem returns_of_weakHead {table : Table} {t w : Term} (h : WeakHead table t w) :
    ∀ k : Kernel, k.fuel.limit = none →
      ∃ k', k'.fuel.limit = none ∧ Returns (fun d => reduce table d t) k (.ok w k') := by
  induction h with
  | bound | var | typ | all | lam =>
    -- a normal form is returned at once
    intro k hk
    exact ⟨k, hk, .of_succ (returns_const rfl (isAnswer_ok _ k))⟩
  | unknown hname =>
    intro k hk
    refine ⟨k, hk, .of_succ ?_⟩
    simp only [reduce, hname]
    exact returns_const rfl (isAnswer_ok _ k)
  | @unfold name entry w hname _ ih =>
    intro k hk
    obtain ⟨k', hk', h⟩ :=
      ih ⟨k.supply, ⟨none, k.fuel.used + 1⟩, .unfolding name :: k.trace⟩ rfl
    refine ⟨k', hk', .of_succ ?_⟩
    simp only [reduce, hname]
    exact (returns_burn hk).bind ((returns_const rfl (isAnswer_ok _ _)).bind h)
  | ann _ ih | loc _ ih =>
    intro k hk
    obtain ⟨k', hk', h⟩ := ih k hk
    exact ⟨k', hk', .of_succ h⟩
  | letIn _ ih =>
    intro k hk
    obtain ⟨k', hk', h⟩ := ih { k with fuel := ⟨none, k.fuel.used + 1⟩ } rfl
    exact ⟨k', hk', .of_succ ((returns_burn hk).bind h)⟩
  | beta _ _ ih₁ ih₂ =>
    intro k hk
    -- the head, then the step, then the contracted term
    obtain ⟨k₁, hk₁, h₁⟩ := ih₁ k hk
    obtain ⟨k', hk', h₂⟩ := ih₂ { k₁ with fuel := ⟨none, k₁.fuel.used + 1⟩ } rfl
    refine ⟨k', hk', .of_succ ?_⟩
    simp only [reduce]
    exact h₁.bind ((returns_burn hk₁).bind h₂)
  | @stuck f a head er _ hlam ih =>
    intro k hk
    obtain ⟨k', hk', h⟩ := ih k hk
    refine ⟨k', hk', .of_succ ?_⟩
    simp only [reduce]
    refine h.bind ?_
    cases head with
    | lam => cases hlam
    | _ => exact returns_const rfl (isAnswer_ok _ k')

/-- Normal forms are what reduction with an unlimited budget returns. -/
theorem weakHead_iff_returns {table : Table} {t w : Term} {k : Kernel}
    (hk : k.fuel.limit = none) :
    WeakHead table t w ↔ ∃ k', Returns (fun d => reduce table d t) k (.ok w k') := by
  refine ⟨?_, ?_⟩
  · intro h
    obtain ⟨k', -, hreturns⟩ := returns_of_weakHead h k hk
    exact ⟨k', hreturns⟩
  · intro h
    obtain ⟨k', hreturns⟩ := h
    obtain ⟨depth, hdepth⟩ := hreturns.exists_depth
    exact weakHead_of_reduce hdepth

end Kernel

end SelfTypes
