import SelfTypes.Proofs.Progress

/-!
# Running out of fuel

A step of the budget is refused only where the limit has been reached, and no step is taken beyond
it. So a run of the kernel that fails has spent the limit, or what had been spent before it if that
was more. Main statement: `StaysWithin.fuel_of_failed`, for every computation that is put together
from the actions of the kernel.
-/

namespace SelfTypes.Kernel

variable {α β : Type} {x : KernelM α}

/-- The computation does not go beyond the limit, and fails only where it has been reached. -/
structure StaysWithin (x : KernelM α) : Prop where
  follows : Progresses Follows x
  used_le : ∀ {k limit}, k.fuel.limit = some limit →
    (x k).state.fuel.used ≤ max limit k.fuel.used
  failed : ∀ {k k' e}, x k = .error (.failed e) k' →
    k.fuel.limit = some e.limit ∧ e.limit ≤ k'.fuel.used

namespace StaysWithin

/-- A failed run leaves no step of the budget. -/
theorem fuel_of_failed (hx : StaysWithin x) {k k' : Kernel} {e : OutOfFuel}
    (h : x k = .error (.failed e) k') :
    k.fuel.limit = some e.limit ∧ k'.fuel = ⟨some e.limit, max e.limit k.fuel.used⟩ := by
  obtain ⟨hlimit, hle⟩ := hx.failed h
  have hfollows := hx.follows k
  have hge := hx.used_le hlimit
  rw [h] at hfollows hge
  -- the budget is at the limit at least, and at the limit or where it started at most
  have hused : k'.fuel.used = max e.limit k.fuel.used :=
    Nat.le_antisymm hge (Nat.max_le.2 ⟨hle, hfollows.used⟩)
  have hlimit' : k'.fuel.limit = some e.limit := hfollows.limit.trans hlimit
  refine ⟨hlimit, ?_⟩
  rw [← hused, ← hlimit']

/-- A computation that leaves the budget alone and does not fail. -/
theorem of_fuel (hx : Progresses Follows x) (hfuel : ∀ k, (x k).state.fuel = k.fuel)
    (hfailed : ∀ k k' e, x k ≠ .error (.failed e) k') : StaysWithin x where
  follows := hx
  used_le {k limit} _ := by
    rw [hfuel]
    exact Nat.le_max_right limit k.fuel.used
  failed h := absurd h (hfailed _ _ _)

theorem bind {f : α → KernelM β} (hx : StaysWithin x) (hf : ∀ a, StaysWithin (f a)) :
    StaysWithin (x >>= f) where
  follows := Progresses.bind @Follows.trans hx.follows fun a => (hf a).follows
  used_le {k limit} hlimit := by
    have hfollows := hx.follows k
    have hle := hx.used_le hlimit
    cases hk : x k with
    | error e k' =>
      rw [hk] at hle
      rwa [EStateM.bind_of_error hk]
    | ok a k' =>
      rw [hk] at hle hfollows
      rw [EStateM.bind_of_ok hk]
      calc
        (f a k').state.fuel.used ≤ max limit k'.fuel.used :=
          (hf a).used_le (hfollows.limit.trans hlimit)
        _ ≤ max limit k.fuel.used := Nat.max_le.2 ⟨Nat.le_max_left _ _, hle⟩
  failed {k k' e} h := by
    obtain h | ⟨a, k₁, hk, h⟩ := EStateM.error_of_bind_error h
    · exact hx.failed h
    · obtain ⟨hlimit, hle⟩ := (hf a).failed h
      exact ⟨(hx.follows.of_ok hk).limit.symm.trans hlimit, hle⟩

end StaysWithin

theorem staysWithin_burn : StaysWithin burn where
  follows := progresses_burn
  used_le {k limit} hlimit := by
    rcases Nat.lt_or_ge k.fuel.used limit with hlt | hle
    · rw [burn_of_lt hlimit hlt]
      exact Nat.le_trans hlt (Nat.le_max_left _ _)
    · rw [burn_of_le hlimit hle]
      exact Nat.le_max_right _ _
  failed {k k' e} h := by
    obtain ⟨limit, hlimit, hle, he, rfl⟩ := burn_eq_error_iff.1 h
    cases he
    exact ⟨hlimit, hle⟩

theorem isCongruence_staysWithin : IsCongruence fun _ x _ => StaysWithin x where
  pure _ := .of_fuel .refl (fun _ => rfl) nofun
  bind hx hf := hx.bind hf
  giveUp := .of_fuel .refl (fun _ => rfl) nofun
  note e := .of_fuel (progresses_note e) (fun _ => rfl) nofun
  burn := staysWithin_burn
  fresh name := .of_fuel (progresses_fresh name) (fun _ => rfl) nofun

theorem staysWithin_reduce (table : Table) (depth : Nat) (t : Term) :
    StaysWithin (reduce table depth t) :=
  isCongruence_staysWithin.reduce table (.refl depth) t

theorem staysWithin_equal (table : Table) (depth : Nat) (a b : Term) :
    StaysWithin (equal table depth a b) :=
  isCongruence_staysWithin.equal table (.refl depth) a b

theorem staysWithin_classify (table : Table) (depth : Nat) (ty : Term) :
    StaysWithin (classify table depth ty) :=
  isCongruence_staysWithin.classify table (.refl depth) ty

end SelfTypes.Kernel
