import SelfTypes.Proofs.Elaboration.Congruence

/-!
# Progress

Whatever the kernel and the elaborator do, and however it ends, the counters of their states only
go up: the budget keeps its limit and no step is given back, the supply stays with its group and no
variable is issued twice. The elaborator also closes the tasks it opens.
-/

namespace SelfTypes

/-! ## The kernel -/

namespace Kernel

/-- `k'` is a state that work may lead to from `k`. -/
structure Follows (k k' : Kernel) : Prop where
  limit : k'.fuel.limit = k.fuel.limit
  used : k.fuel.used ≤ k'.fuel.used
  group : k'.supply.group = k.supply.group
  next : k.supply.next ≤ k'.supply.next

namespace Follows

theorem refl (k : Kernel) : Follows k k :=
  ⟨rfl, Nat.le_refl _, rfl, Nat.le_refl _⟩

theorem trans {k₁ k₂ k₃ : Kernel} (h : Follows k₁ k₂) (h' : Follows k₂ k₃) : Follows k₁ k₃ where
  limit := h'.limit.trans h.limit
  used := Nat.le_trans h.used h'.used
  group := h'.group.trans h.group
  next := Nat.le_trans h.next h'.next

end Follows

theorem progresses_note (e : Event) : Progresses Follows (Kernel.note e) :=
  fun _ => ⟨rfl, Nat.le_refl _, rfl, Nat.le_refl _⟩

theorem progresses_fresh (name : BinderName) : Progresses Follows (Kernel.fresh name) :=
  fun _ => ⟨rfl, Nat.le_refl _, rfl, Nat.le_succ _⟩

theorem burn_of_unlimited {k : Kernel} (h : k.fuel.limit = none) :
    Kernel.burn k = .ok () { k with fuel := ⟨none, k.fuel.used + 1⟩ } := by
  simp [burn, Fuel.burn, h]

theorem burn_of_lt {k : Kernel} {limit : Nat} (h : k.fuel.limit = some limit)
    (hlt : k.fuel.used < limit) :
    Kernel.burn k = .ok () { k with fuel := ⟨some limit, k.fuel.used + 1⟩ } := by
  simp [burn, Fuel.burn, h, hlt]

theorem burn_of_le {k : Kernel} {limit : Nat} (h : k.fuel.limit = some limit)
    (hle : limit ≤ k.fuel.used) : Kernel.burn k = .error (.failed ⟨limit⟩) k := by
  simp [burn, Fuel.burn, h, Nat.not_lt.2 hle]

/-- A step is taken if it is below the limit, and it is counted. -/
theorem burn_eq_ok_iff {k k' : Kernel} :
    Kernel.burn k = .ok () k' ↔
      (∀ limit, k.fuel.limit = some limit → k.fuel.used < limit) ∧
        k' = { k with fuel := ⟨k.fuel.limit, k.fuel.used + 1⟩ } := by
  cases hlimit : k.fuel.limit with
  | none =>
    rw [burn_of_unlimited hlimit]
    simp [eq_comm]
  | some limit =>
    rcases Nat.lt_or_ge k.fuel.used limit with hlt | hle
    · rw [burn_of_lt hlimit hlt]
      simp [hlt, eq_comm]
    · rw [burn_of_le hlimit hle]
      simp [Nat.not_lt.2 hle]

/-- A step is refused if the limit is used up, and then nothing changes. -/
theorem burn_eq_error_iff {k k' : Kernel} {halt : Halt OutOfFuel} :
    Kernel.burn k = .error halt k' ↔
      ∃ limit, k.fuel.limit = some limit ∧ limit ≤ k.fuel.used ∧
        halt = .failed ⟨limit⟩ ∧ k' = k := by
  cases hlimit : k.fuel.limit with
  | none =>
    rw [burn_of_unlimited hlimit]
    simp
  | some limit =>
    rcases Nat.lt_or_ge k.fuel.used limit with hlt | hle
    · rw [burn_of_lt hlimit hlt]
      simp [Nat.not_le.2 hlt]
    · rw [burn_of_le hlimit hle]
      simp [hle, eq_comm]

theorem progresses_burn : Progresses Follows Kernel.burn := by
  intro k
  cases h : Kernel.burn k with
  | ok _ k' =>
    obtain ⟨-, rfl⟩ := burn_eq_ok_iff.1 h
    exact ⟨rfl, Nat.le_succ _, rfl, Nat.le_refl _⟩
  | error _ k' =>
    obtain ⟨_, -, -, -, rfl⟩ := burn_eq_error_iff.1 h
    exact .refl k'

theorem isCongruence_progresses : IsCongruence fun _ x _ => Progresses Follows x where
  pure _ := .refl
  bind hx hf := Progresses.bind @Follows.trans hx hf
  giveUp := .refl
  note := progresses_note
  burn := progresses_burn
  fresh := progresses_fresh

theorem progresses_reduce (table : Table) (d : Nat) (t : Term) :
    Progresses Follows (reduce table d t) :=
  isCongruence_progresses.reduce table (.refl d) t

theorem progresses_equalUnder (table : Table) (d : Nat) (assumed : List (Term × Term))
    (a b : Term) : Progresses Follows (equalUnder table d assumed a b) :=
  isCongruence_progresses.equalUnder table (.refl d) assumed a b

theorem progresses_equal (table : Table) (d : Nat) (a b : Term) :
    Progresses Follows (equal table d a b) :=
  progresses_equalUnder table d [] a b

theorem progresses_classify (table : Table) (d : Nat) (ty : Term) :
    Progresses Follows (classify table d ty) :=
  isCongruence_progresses.classify table (.refl d) ty

end Kernel

/-! ## The elaborator -/

namespace Elaborator

/-- `e'` is a state that work may lead to from `e`. -/
structure Follows (e e' : Elaborator) : Prop where
  kernel : Kernel.Follows e.kernel e'.kernel
  stack : e'.stack = e.stack

namespace Follows

theorem refl (e : Elaborator) : Follows e e :=
  ⟨.refl _, rfl⟩

theorem trans {e₁ e₂ e₃ : Elaborator} (h : Follows e₁ e₂) (h' : Follows e₂ e₃) :
    Follows e₁ e₃ :=
  ⟨h.kernel.trans h'.kernel, h'.stack.trans h.stack⟩

end Follows

theorem Follows.limit {e e' : Elaborator} (h : Follows e e') :
    e'.kernel.fuel.limit = e.kernel.fuel.limit :=
  h.kernel.limit

theorem progresses_within {α : Type} (task : Task) {x : ElaboratorM α}
    (hx : Progresses Follows x) : Progresses Follows (within task x) := by
  intro e
  rw [within_apply, EStateM.Result.state_mapState]
  exact ⟨(hx { e with stack := task :: e.stack }).kernel, rfl⟩

theorem progresses_lift {α : Type} {x : KernelM α} (hx : Progresses Kernel.Follows x) :
    Progresses Follows (lift x) := by
  intro e
  rw [lift_apply, state_liftEnding]
  exact ⟨hx e.kernel, rfl⟩

theorem isCongruence_progresses :
    IsCongruence (fun _ x _ => Progresses Kernel.Follows x) fun _ x _ => Progresses Follows x where
  kernel := Kernel.isCongruence_progresses
  pure _ := .refl
  bind hx hf := Progresses.bind @Follows.trans hx hf
  giveUp := .refl
  raise _ := .refl
  within task _ _ hx := progresses_within task hx
  lift hx := progresses_lift hx

theorem progresses_infer (env : Environment) (d : Nat) (ctx : Context) (t : Term) :
    Progresses Follows (infer env d ctx t) :=
  isCongruence_progresses.infer env (.refl d) ctx t

theorem progresses_check (env : Environment) (d : Nat) (ctx : Context) (t ty : Term) :
    Progresses Follows (check env d ctx t ty) :=
  isCongruence_progresses.check env (.refl d) ctx t ty

theorem progresses_definition (env : Environment) (d : Nat) (name : DefName) :
    Progresses Follows (definition env d name) :=
  isCongruence_progresses.definition env (.refl d) name

end Elaborator

end SelfTypes
