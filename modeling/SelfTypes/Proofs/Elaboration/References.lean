import SelfTypes.Proofs.Elaboration.Derivation
import SelfTypes.Proofs.Term.Content

/-!
# References in code

The code of a term refers to globals only where the term does so in a place with content, and only
to defined ones. Main statement: `Derives.refs_subset`. A name that elaboration looks at is thus one
that the search for dependencies follows.
-/

namespace SelfTypes

namespace Code

/-- The globals that code refers to, in order of occurrence. -/
def refs : Code → List DefName
  | var _ | nul | chr _ | str _ => []
  | ref n => [n]
  | lam _ b => b.refs
  | app f a => f.refs ++ a.refs
  | letIn _ e b => e.refs ++ b.refs
  | elim _ v => v.refs
  | inst _ f => f.refs

end Code

/-! ## Code of composite terms -/

theorem refs_calleeCode (prim : Option Primitive) (func : Code) :
    (calleeCode prim func).refs = func.refs := by
  cases prim <;> rfl

theorem refs_instCode (prim : Option Primitive) (func : Code) :
    (instCode prim func).refs = func.refs := by
  cases prim <;> rfl

theorem refs_lamCode (name : BinderName) (er : Bool) (body : Code) :
    (lamCode name er body).refs = body.refs := by
  cases er <;> rfl

theorem mem_refs_appCode {er : Bool} {callee arg : Code} {n : DefName}
    (h : n ∈ (appCode er callee arg).refs) : n ∈ callee.refs ∨ n ∈ arg.refs := by
  cases er with
  | false => exact List.mem_append.1 h
  | true => exact .inl h

theorem mem_refs_letCode {name : BinderName} {dup : Bool} {value body : Code} {n : DefName}
    (h : n ∈ (letCode name dup value body).refs) : n ∈ value.refs ∨ n ∈ body.refs := by
  cases dup with
  | true => exact List.mem_append.1 h
  | false => exact .inr h

/-- A literal refers to nothing. -/
theorem refs_of_literal? {t : Term} {r : Elaborated} (h : Elaborator.literal? t = some r) :
    r.code.refs = [] := by
  obtain ⟨_, -, rfl⟩ | ⟨_, -, rfl⟩ := Elaborator.exists_of_literal? h
  · rfl
  · rfl

/-- What stands for the variable of a local definition refers to what its value refers to. -/
theorem mem_dependencies_letStandIn {dup : Bool} {x : Var} {e ty : Term} {n : DefName}
    (h : n ∈ (letStandIn dup x e ty).dependencies) : n ∈ e.dependencies := by
  cases dup with
  | true => cases h
  | false => exact h

/-! ## References of derived code -/

/-- Code refers to defined globals that its term refers to in places with content. -/
theorem Derives.refs_subset {env : Environment} {ctx : Context} {t : Term} {mode : Mode}
    {k k' : Kernel} {r : Elaborated} (h : Derives env ctx t mode k r k') {n : DefName}
    (hn : n ∈ r.code.refs) : n ∈ t.dependencies ∧ n ∈ env.table.names := by
  induction h with
  | later _ _ _ ih => exact ih hn
  | var | typ | all | type => cases hn
  -- only here a reference comes into the code, and the table has found it
  | ref hd =>
    cases List.mem_singleton.1 hn
    exact ⟨List.mem_singleton.2 rfl, Table.mem_names_of_find? hd⟩
  | app _ _ _ ihf iha =>
    rcases mem_refs_appCode hn with hn | hn
    -- a primitive wraps the code of the callee and brings in no reference
    · rw [refs_calleeCode] at hn
      exact (ihf hn).imp_left fun hdep => List.mem_append.2 (.inl hdep)
    · exact (iha hn).imp_left fun hdep => List.mem_append.2 (.inr hdep)
  | letIn _ _ _ ihe ihb =>
    rcases mem_refs_letCode hn with hn | hn
    · exact (ihe hn).imp_left fun hdep => List.mem_append.2 (.inl hdep)
    · -- the body is opened with what stands for the value
      refine (ihb hn).imp_left fun hdep => ?_
      rcases Term.dependencies_instantiate hdep with hbody | ⟨v, hv, hvalue⟩
      · exact List.mem_append.2 (.inr hbody)
      · cases List.mem_singleton.1 hv
        exact List.mem_append.2 (.inl (mem_dependencies_letStandIn hvalue))
  | ann _ ih => exact ih hn
  | loc _ _ ih => exact ih hn
  -- the code of a literal is a character or a string, which refers to nothing
  | literal hliteral =>
    rw [refs_of_literal? hliteral] at hn
    cases hn
  | lam _ _ _ ih =>
    rw [refs_instCode, refs_lamCode] at hn
    refine (ih hn).imp_left fun hdep => ?_
    -- the variable that the body is opened with refers to nothing
    rcases Term.dependencies_instantiate hdep with hbody | ⟨v, hv, hvar⟩
    · exact hbody
    · cases List.mem_singleton.1 hv
      cases hvar
  | infer _ _ _ _ _ ih => exact ih hn

namespace Elaborator

/-- An accepted definition refers to defined globals that the sorter follows from it. -/
theorem refs_of_definition {env : Environment} {depth : Nat} {name n : DefName}
    {e e' : Elaborator} {code : Code} (h : definition env depth name e = .ok code e')
    (hn : n ∈ code.refs) :
    ∃ d, env.table.find? name = some d ∧ n ∈ d.body.dependencies ∧ n ∈ env.table.names := by
  obtain ⟨d, ty, hd, hderives⟩ := derives_of_definition h
  obtain ⟨hdep, hnames⟩ := hderives.refs_subset hn
  rw [Term.dependencies_unlocate] at hdep
  exact ⟨d, hd, hdep, hnames⟩

end Elaborator

end SelfTypes
