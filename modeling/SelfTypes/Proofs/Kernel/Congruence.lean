import SelfTypes.Kernel.Classification
import SelfTypes.Proofs.Computation

/-!
# Relations that the kernel respects

Reduction, comparison and classification are put together from a few actions of the kernel. A
relation between computations that sequencing and those actions respect, `Kernel.IsCongruence`,
is therefore respected by all of them. The two sides of the relation may also differ in how deep
they follow calls, if giving up is related to everything (`Compatible`).

Properties of single computations are relations that ignore one side.
-/

namespace SelfTypes

/-- Relations between the computations of a monad, at every type of values. -/
abbrev Relation (m : Type → Type) := ∀ α : Type, m α → m α → Prop

/-- Bounds on depth under which the two sides of a relation may be followed: the same bound, or
a larger one on the right if giving up is related to everything. -/
def Compatible {m : Type → Type} (giveUp : ∀ α, m α) (rel : Relation m) (d d' : Nat) : Prop :=
  d = d' ∨ d ≤ d' ∧ ∀ α (x : m α), rel α (giveUp α) x

namespace Compatible

variable {m : Type → Type} {giveUp : ∀ α, m α} {rel : Relation m} {d d' : Nat}

theorem refl (d : Nat) : Compatible giveUp rel d d :=
  .inl rfl

theorem zero (h : Compatible giveUp rel 0 d') : d' = 0 ∨ ∀ α (x : m α), rel α (giveUp α) x := by
  rcases h with rfl | ⟨-, hlax⟩
  · exact .inl rfl
  · exact .inr hlax

theorem succ (h : Compatible giveUp rel (d + 1) d') :
    ∃ d'', d' = d'' + 1 ∧ Compatible giveUp rel d d'' := by
  rcases h with rfl | ⟨hle, hlax⟩
  · exact ⟨d, rfl, .inl rfl⟩
  · exact ⟨d' - 1, by omega, .inr ⟨by omega, hlax⟩⟩

end Compatible

namespace Kernel

/-- A relation that sequencing and the actions of the kernel respect. -/
structure IsCongruence (rel : Relation KernelM) : Prop where
  pure : ∀ {α} (a : α), rel α (Pure.pure a) (Pure.pure a)
  bind : ∀ {α β} {x x' : KernelM α} {f f' : α → KernelM β},
    rel α x x' → (∀ a, rel β (f a) (f' a)) → rel β (x >>= f) (x' >>= f')
  giveUp : ∀ {α}, rel α Kernel.giveUp Kernel.giveUp
  note : ∀ e, rel Unit (Kernel.note e) (Kernel.note e)
  burn : rel Unit Kernel.burn Kernel.burn
  fresh : ∀ name, rel Var (Kernel.fresh name) (Kernel.fresh name)

namespace IsCongruence

variable {rel : Relation KernelM} {d d' : Nat}

theorem atZero (C : IsCongruence rel) (h : Compatible (@Kernel.giveUp) rel 0 d') {α : Type}
    {f : Nat → KernelM α} (hf : f 0 = Kernel.giveUp) : rel α Kernel.giveUp (f d') := by
  rcases h.zero with rfl | hlax
  · rw [hf]
    exact C.giveUp
  · exact hlax α (f d')

theorem reduce (C : IsCongruence rel) (table : Table) :
    Compatible (@Kernel.giveUp) rel d d' →
      ∀ t, rel Term (Kernel.reduce table d t) (Kernel.reduce table d' t) := by
  induction d generalizing d' with
  | zero =>
    intro h t
    exact C.atZero h (f := fun d => Kernel.reduce table d t) rfl
  | succ d ih =>
    intro h t
    obtain ⟨d', rfl, hd⟩ := h.succ
    cases t with
    | bound | var | typ | all | lam =>
      -- a normal form is returned at once
      exact C.pure _
    | ann _ e _ => exact ih hd e
    | loc _ e => exact ih hd e
    | letIn _ _ e b => exact C.bind C.burn fun _ => ih hd _
    | ref name =>
      simp only [Kernel.reduce]
      cases table.find? name with
      | none => exact C.pure _
      | some entry => exact C.bind C.burn fun _ => C.bind (C.note _) fun _ => ih hd _
    | app f a er =>
      refine C.bind (ih hd f) fun head => ?_
      -- what comes next depends on the head alone
      cases head with
      | lam => exact C.bind C.burn fun _ => ih hd _
      | _ => exact C.pure _

theorem congruent (C : IsCongruence rel) {compare compare' : Term → Term → KernelM Bool}
    (hcompare : ∀ a b, rel Bool (compare a b) (compare' a b)) (a b : Term) :
    rel Bool (Kernel.congruent compare a b) (Kernel.congruent compare' a b) := by
  -- terms with different heads are told apart without an action
  cases a <;> cases b <;> try exact C.pure _
  case all.all =>
    refine C.bind (hcompare _ _) fun same => ?_
    cases same with
    | false => exact C.pure _
    | true => exact C.bind (C.fresh _) fun _ => C.bind (C.fresh _) fun _ => hcompare _ _
  case lam.lam =>
    simp only [Kernel.congruent]
    split
    · exact C.bind (C.fresh _) fun _ => hcompare _ _
    · exact C.pure _
  case app.app =>
    simp only [Kernel.congruent]
    split
    · refine C.bind (hcompare _ _) fun same => ?_
      cases same with
      | false => exact C.pure _
      | true => exact hcompare _ _
    · exact C.pure _

theorem equalUnder (C : IsCongruence rel) (table : Table) :
    Compatible (@Kernel.giveUp) rel d d' → ∀ assumed a b,
      rel Bool (Kernel.equalUnder table d assumed a b)
        (Kernel.equalUnder table d' assumed a b) := by
  induction d generalizing d' with
  | zero =>
    intro h assumed a b
    exact C.atZero h (f := fun d => Kernel.equalUnder table d assumed a b) rfl
  | succ d ih =>
    intro h assumed a b
    obtain ⟨d', rfl, hd⟩ := h.succ
    simp only [Kernel.equalUnder]
    split
    · exact C.pure _
    · refine C.bind (C.reduce table hd a) fun a' => C.bind (C.reduce table hd b) fun b' => ?_
      split
      · exact C.pure _
      · exact C.bind (C.note _) fun _ => C.congruent (ih hd _) a' b'

theorem equal (C : IsCongruence rel) (table : Table) (h : Compatible (@Kernel.giveUp) rel d d')
    (a b : Term) : rel Bool (Kernel.equal table d a b) (Kernel.equal table d' a b) :=
  C.equalUnder table h [] a b

theorem classify (C : IsCongruence rel) (table : Table)
    (h : Compatible (@Kernel.giveUp) rel d d') (ty : Term) :
    rel (Option Primitive) (Kernel.classify table d ty) (Kernel.classify table d' ty) := by
  -- on the primitives that are still to be tried
  have among : ∀ ps : List Primitive, rel (Option Primitive)
      (Kernel.classifyAmong table d ty ps) (Kernel.classifyAmong table d' ty ps) := by
    intro ps
    induction ps with
    | nil => exact C.pure _
    | cons p ps ih =>
      refine C.bind (C.equal table h _ _) fun same => ?_
      cases same with
      | true => exact C.pure _
      | false => exact ih
  exact among Primitive.registry

end IsCongruence

end Kernel

end SelfTypes
