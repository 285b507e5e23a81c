import SelfTypes.Proofs.Kernel.Alike
import SelfTypes.Proofs.Kernel.Exhaustion

/-!
# Classification respects equality

A type is classified as the first primitive whose name is equal to it. Each comparison on the way
decides convertibility, which is transitive, so types that are found equal are accepted and refused
by the same primitives, although the comparisons with the one and with the other unfold different
definitions. Main statement: `classify_eq_of_equal`.
-/

namespace SelfTypes.Kernel

variable {table : Table} {ty ty' : Term}

/-! ## The primitive of a type -/

open Classical in
/-- The first primitive whose name is convertible with the type. -/
noncomputable def primitive? (table : Table) (ty : Term) : Option Primitive :=
  Primitive.registry.find? fun p => Convertible table (.ref p.name) ty

/-- A classification that ends has found the primitive of the type. -/
theorem eq_primitive?_of_classify (hfree : table.IsVarFree) {k k' : Kernel} (hty : k.Avoids ty)
    {depth : Nat} {p : Option Primitive} (h : classify table depth ty k = .ok p k') :
    p = primitive? table ty :=
  classifyAmong_eq hfree hty h

/-- Types that are convertible with the same globals have the same primitive. -/
theorem primitive?_congr
    (h : ∀ n, Convertible table (.ref n) ty ↔ Convertible table (.ref n) ty') :
    primitive? table ty = primitive? table ty' :=
  congrArg (List.find? · _) (funext fun p => decide_eq_decide.2 (h p.name))

theorem primitive?_eq_of_convertible (h : Convertible table ty ty') :
    primitive? table ty = primitive? table ty' :=
  primitive?_congr fun _ => ⟨fun hn => hn.trans h, fun hn => hn.trans h.symm⟩

/-! ## Classifications of equal types -/

/-- Without a limit a classification that ends has an answer. -/
theorem exists_ok_of_classify {k : Kernel} (hlimit : k.fuel.limit = none)
    {r : EStateM.Result (Halt OutOfFuel) Kernel (Option Primitive)}
    (h : Returns (fun d => classify table d ty) k r) : ∃ p s, r = .ok p s := by
  obtain ⟨depth, hdepth⟩ := h.exists_depth
  cases r with
  | ok p s => exact ⟨p, s, rfl⟩
  | error halt s =>
    cases halt with
    | unfinished => exact absurd rfl (h.1 s)
    | failed e =>
      -- a failure would have reached a limit
      have hstays := isCongruence_staysWithin.classify table (.refl depth) ty
      obtain ⟨hsome, -⟩ := hstays.failed hdepth
      rw [hlimit] at hsome
      cases hsome

/-- Types that a comparison has found equal are classified as the same primitive, or neither is one,
if both classifications end and have no limit. The comparison may have had one, and the three runs
need have nothing else in common. -/
theorem classify_eq_of_equal (hfree : table.IsVarFree) {k k₁ k₂ s : Kernel} (hty : k.Avoids ty)
    (hty' : k.Avoids ty') (hequal : Returns (fun d => equal table d ty ty') k (.ok true s))
    (hty₁ : k₁.Avoids ty) (hlimit₁ : k₁.fuel.limit = none) (hty₂ : k₂.Avoids ty')
    (hlimit₂ : k₂.fuel.limit = none)
    {r₁ r₂ : EStateM.Result (Halt OutOfFuel) Kernel (Option Primitive)}
    (h₁ : Returns (fun d => classify table d ty) k₁ r₁)
    (h₂ : Returns (fun d => classify table d ty') k₂ r₂) :
    ∃ p s₁ s₂, r₁ = .ok p s₁ ∧ r₂ = .ok p s₂ := by
  obtain ⟨p₁, s₁, rfl⟩ := exists_ok_of_classify hlimit₁ h₁
  obtain ⟨p₂, s₂, rfl⟩ := exists_ok_of_classify hlimit₂ h₂
  obtain ⟨depth, hequal⟩ := hequal.exists_depth
  obtain ⟨depth₁, h₁⟩ := h₁.exists_depth
  obtain ⟨depth₂, h₂⟩ := h₂.exists_depth
  -- both answers are the first primitive that is convertible with the type
  have hp : p₁ = p₂ := by
    rw [eq_primitive?_of_classify hfree hty₁ h₁, eq_primitive?_of_classify hfree hty₂ h₂]
    exact primitive?_eq_of_convertible (.of_equal hfree hty hty' hequal)
  exact ⟨p₁, s₁, s₂, rfl, by rw [hp]⟩

/-- Two primitives that unfold to one recursive type, and a copy of that type. -/
def sharedPrimitives : Table :=
  .ofList
    [⟨"Bool", .typ, .all "self" "x" (.ref "Bool") (.ref "Bool")⟩,
     ⟨"Nat", .typ, .ref "Bool"⟩,
     ⟨"Copy", .typ, .all "self" "x" (.ref "Copy") (.ref "Nat")⟩]

/-- An alias and a copy of a primitive are classified as the first name of their type. -/
theorem sharedPrimitives_classified :
    ∃ s s₁ s₂, sharedPrimitives.IsVarFree ∧
      Returns (fun d => equal sharedPrimitives d (.ref "Nat") (.ref "Copy"))
        (.start ⟨0, 0⟩ none) (.ok true s) ∧
      Returns (fun d => classify sharedPrimitives d (.ref "Nat")) (.start ⟨0, 0⟩ none)
        (.ok (some .bool) s₁) ∧
      Returns (fun d => classify sharedPrimitives d (.ref "Copy")) (.start ⟨1, 0⟩ none)
        (.ok (some .bool) s₂) := by
  have hfree : sharedPrimitives.IsVarFree := by decide
  -- a reference has no variables for a kernel to avoid
  have href : ∀ g n, (Kernel.start ⟨g, 0⟩ none).Avoids (.ref n) := fun g n id hid => by cases hid
  obtain ⟨s, h⟩ := (deepens_equal sharedPrimitives (.ref "Nat") (.ref "Copy")).returns_of_value?
    (.start ⟨0, 0⟩ none) true 9 (by decide +kernel)
  obtain ⟨s₁, h₁⟩ := (deepens_classify sharedPrimitives (.ref "Nat")).returns_of_value?
    (.start ⟨0, 0⟩ none) (some .bool) 9 (by decide +kernel)
  obtain ⟨s₂, h₂⟩ := (deepens_classify sharedPrimitives (.ref "Copy")).returns_of_value?
    (.start ⟨1, 0⟩ none) (some .bool) 9 (by decide +kernel)
  obtain ⟨p, t₁, t₂, hr₁, hr₂⟩ :=
    classify_eq_of_equal hfree (href 0 "Nat") (href 0 "Copy") h (href 0 "Nat") rfl
      (href 1 "Copy") rfl h₁ h₂
  cases hr₁
  rw [hr₂] at h₂
  exact ⟨s, s₁, t₂, hfree, h, h₁, h₂⟩

end SelfTypes.Kernel
