import SelfTypes.Proofs.Elaboration.Location

/-!
# Elaboration does not depend on history

An elaborator may be asked for one thing after the other, and its supply, its count of steps and its
trace outlive whatever it was asked for, failures included. None of that shows in what becomes of a
definition: the variables that are issued for it have other numbers, and otherwise it ends in the
same way. Main statement: `Elaborator.definition_after_history`.
-/

namespace SelfTypes

namespace Elaborator

/-! ## Histories -/

/-- What an elaborator can be asked for. -/
inductive Operation where
  | fresh (name : BinderName)
  | reduce (t : Term)
  | equal (a b : Term)
  | classify (ty : Term)
  | infer (ctx : Context) (t : Term)
  | check (ctx : Context) (t ty : Term)
  | definition (name : DefName)

/-- The state that an operation within a depth leaves, with a value or without. -/
def Operation.leaves (env : Environment) (depth : Nat) (e : Elaborator) : Operation → Elaborator
  | fresh name => (Elaborator.fresh name e).state
  | reduce t => (Elaborator.reduce env depth t e).state
  | equal a b => (Elaborator.equal env depth a b e).state
  | classify ty => (Elaborator.classify env depth ty e).state
  | infer ctx t => (Elaborator.infer env depth ctx t e).state
  | check ctx t ty => (Elaborator.check env depth ctx t ty e).state
  | definition name => (Elaborator.definition env depth name e).state

theorem Operation.follows_leaves (env : Environment) (depth : Nat) (e : Elaborator)
    (op : Operation) : Follows e (op.leaves env depth e) := by
  cases op with
  | fresh name => exact progresses_lift (Kernel.progresses_fresh name) e
  | reduce t => exact progresses_lift (Kernel.progresses_reduce env.table depth t) e
  | equal a b => exact progresses_lift (Kernel.progresses_equal env.table depth a b) e
  | classify ty => exact progresses_lift (Kernel.progresses_classify env.table depth ty) e
  | infer ctx t => exact progresses_infer env depth ctx t e
  | check ctx t ty => exact progresses_check env depth ctx t ty e
  | definition name => exact progresses_definition env depth name e

/-- Operations one after the other, each within a depth of its own. -/
abbrev History := List (Operation × Nat)

/-- The state that a history leaves; each operation starts in the state that the one before left. -/
def History.leaves (env : Environment) (e : Elaborator) (past : History) : Elaborator :=
  past.foldl (fun e step => step.1.leaves env step.2 e) e

theorem History.follows_leaves (env : Environment) (past : History) (e : Elaborator) :
    Follows e (past.leaves env e) := by
  induction past generalizing e with
  | nil => exact .refl e
  | cons step past ih => exact (step.1.follows_leaves env step.2 e).trans (ih _)

/-- A history that starts without a limit and without open tasks leaves neither. -/
theorem History.unlimited_leaves (env : Environment) (supply : Supply) (past : History) :
    (past.leaves env (start supply none)).kernel.fuel.limit = none ∧
      (past.leaves env (start supply none)).stack = [] :=
  have h := past.follows_leaves env (start supply none)
  ⟨h.limit, h.stack⟩

/-! ## Definitions -/

/-- Without a limit, no answer is for want of fuel. -/
theorem not_interrupted_of_unlimited {halt : Halt Failure} {e : Elaborator}
    (hlimit : e.kernel.fuel.limit = none)
    (hanswer : IsAnswer (.error halt e : EStateM.Result _ Elaborator Code)) :
    ¬ Interrupted e.kernel halt := by
  intro h
  cases h with
  | unfinished => exact hanswer e rfl
  | outOfFuel hsome => exact nomatch hsome.symm.trans hlimit

/-- A definition that is elaborated after any two histories, with the variables of any two supplies,
ends alike wherever it ends: with the same code, or with the same failure up to the variables that
were issued for it. -/
theorem definition_after_history {env : Environment} (hfree : env.table.IsVarFree)
    (supply supply' : Supply) (past past' : History) (name : DefName)
    {r r' : EStateM.Result (Halt Failure) Elaborator Code}
    (hr : Returns (fun d => definition env d name) (past.leaves env (start supply none)) r)
    (hr' : Returns (fun d => definition env d name) (past'.leaves env (start supply' none)) r') :
    (∃ code e e', r = .ok code e ∧ r' = .ok code e') ∨
      ∃ f f' e e' P, r = .error (.failed f) e ∧ r' = .error (.failed f') e' ∧ OneToOne P ∧
        f.Related (Corresponds P) f' := by
  -- whatever was done before, no limit was set and no call was left open
  obtain ⟨hlimit, hstack⟩ := past.unlimited_leaves env supply
  obtain ⟨hlimit', hstack'⟩ := past'.unlimited_leaves env supply'
  have hanswer := hr.1
  have hanswer' := hr'.1
  -- within one depth, both come to their endings, and both start without open tasks
  obtain ⟨depth, rfl, rfl⟩ := hr.exists_common_depth hr'
  have hend := (progresses_definition env depth name _).limit.trans hlimit
  have hend' := (progresses_definition env depth name _).limit.trans hlimit'
  have hconcordant := concordant_definition hfree.relocated_self hfree hfree env.subsumption
    depth name _ _ hstack hstack'
  generalize definition env depth name _ = r, definition env depth name _ = r'
    at hanswer hanswer' hend hend' hconcordant ⊢
  cases hconcordant with
  -- code has the names of the variables only, and these are the same on both sides
  | ok _ _ _ hcode => exact .inl ⟨_, _, _, rfl, by rw [hcode]⟩
  | failed hP hf => exact .inr ⟨_, _, _, _, _, rfl, rfl, hP, hf⟩
  -- neither is interrupted: there is no limit to reach
  | left h => exact absurd h (not_interrupted_of_unlimited hend hanswer)
  | right h => exact absurd h (not_interrupted_of_unlimited hend' hanswer')

/-- A function that applies its parameter to itself, which no type allows. -/
def selfApplication : Table :=
  .ofList
    [⟨"apply", .pi "x" .typ (.pi "z" .typ .typ), .lam "y" false (.app (.bound 0) (.bound 0) false)⟩]

/-- Why the function is refused, if `y` is issued for its parameter. -/
def notApplicable (y : Var) : Failure :=
  let t : Term := .app (.ann true (.var y) .typ) (.ann true (.var y) .typ) false
  { cause := .notAFunction t .typ
    stack :=
      [.term t .synthesis, .term t (.analysis (.pi "z" .typ .typ)),
       .term (.lam "y" false (.app (.bound 0) (.bound 0) false))
         (.analysis (.pi "x" .typ (.pi "z" .typ .typ))),
       .definition "apply"] }

/-- The function is refused when an elaborator starts with it, and when another one comes to it
after it has refused it before, with failures about different variables. -/
theorem selfApplication_after_history :
    selfApplication.IsVarFree ∧ ∃ e e' P,
      Returns (fun d => definition ⟨selfApplication, true⟩ d "apply")
        (History.leaves ⟨selfApplication, true⟩ (start ⟨0, 0⟩ none) [])
        (.error (.failed (notApplicable ⟨⟨0, 0⟩, "y"⟩)) e) ∧
      Returns (fun d => definition ⟨selfApplication, true⟩ d "apply")
        (History.leaves ⟨selfApplication, true⟩ (start ⟨5, 0⟩ none)
          [(.fresh "z", 0), (.definition "apply", 8)])
        (.error (.failed (notApplicable ⟨⟨5, 2⟩, "y"⟩)) e') ∧
      OneToOne P ∧
        (notApplicable ⟨⟨0, 0⟩, "y"⟩).Related (Corresponds P) (notApplicable ⟨⟨5, 2⟩, "y"⟩) := by
  have hfree : selfApplication.IsVarFree := by decide
  have hrun := deepens_definition ⟨selfApplication, true⟩ "apply"
  obtain ⟨e, hr⟩ := hrun.returns_of_halt?
    (History.leaves ⟨selfApplication, true⟩ (start ⟨0, 0⟩ none) [])
    (notApplicable ⟨⟨0, 0⟩, "y"⟩) 8 (by decide +kernel)
  obtain ⟨e', hr'⟩ := hrun.returns_of_halt?
    (History.leaves ⟨selfApplication, true⟩ (start ⟨5, 0⟩ none)
      [(.fresh "z", 0), (.definition "apply", 8)])
    (notApplicable ⟨⟨5, 2⟩, "y"⟩) 8 (by decide +kernel)
  -- the second run has issued a variable and compiled the definition once before
  obtain ⟨_, _, _, h, -⟩ | ⟨_, _, _, _, P, h, h', hP, hf⟩ :=
    definition_after_history hfree ⟨0, 0⟩ ⟨5, 0⟩ [] [(.fresh "z", 0), (.definition "apply", 8)]
      "apply" hr hr'
  · cases h
  · cases h
    cases h'
    exact ⟨hfree, e, e', P, hr, hr', hP, hf⟩

end Elaborator

end SelfTypes
