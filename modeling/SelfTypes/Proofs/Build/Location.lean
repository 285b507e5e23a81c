import SelfTypes.Proofs.Build.Sequential
import SelfTypes.Proofs.Build.Termination
import SelfTypes.Proofs.Dependency.Agreement
import SelfTypes.Proofs.Elaboration.Report

/-!
# Builds of tables that have lost their locations

A definition is checked without its own locations, but the types and the bodies of the globals that
it refers to keep theirs. If no definition of either build uses up its budget, that does not matter:
both succeed with the same result, or both fail with the same error, in which variables may be
numbered differently. Main statement: `compile_unlocate`. That the condition is needed shows in
`circular_out_of_fuel`: what ends in time without its locations may run out of fuel with them.
-/

namespace SelfTypes

/-! ## Errors -/

namespace BuildError

/-- The same errors, about terms that `R` relates. -/
inductive Related (R : Term → Term → Prop) : BuildError → BuildError → Prop where
  | undefinedReference (name : DefName) :
      Related R (.undefinedReference name) (.undefinedReference name)
  | rejected {f f' : Failure} : f.Related R f' → Related R (.rejected f) (.rejected f')

/-- The same error, about terms with other variables. -/
def rename (σ : Var → Var) : BuildError → BuildError
  | undefinedReference name => undefinedReference name
  | rejected f => rejected (f.rename σ)

/-- A definition has used up its budget. -/
def IsOutOfFuel (err : BuildError) : Prop :=
  ∃ limit stack, err = rejected ⟨.outOfFuel limit, stack⟩

theorem related_ofFailure {R : Term → Term → Prop} {f f' : Failure} (h : f.Related R f') :
    (ofFailure f).Related R (ofFailure f') := by
  obtain ⟨cause, stack⟩ := f
  obtain ⟨cause', stack'⟩ := f'
  cases h.cause with
  | undefinedReference name => exact .undefinedReference name
  | unboundVariable | danglingIndex | notAFunction | notAFunctionType | uninferableFunction
  | mismatch => exact .rejected h

/-- Once the variables have been replaced, errors that correspond to each other have the same
wording, or none. -/
theorem Related.message?_rename {P : List (VarId × VarId)} (hP : OneToOne P) {err err' : BuildError}
    (h : err.Related (Corresponds P) err') :
    (err.rename (counterpart P)).message? = err'.message? := by
  cases h with
  | undefinedReference => rfl
  | rejected hf => exact hf.report?_rename hP

end BuildError

namespace Build

/-! ## Endings that agree -/

/-- Why a run halts that may not halt in the same way elsewhere: calls went too deep, or a budget is
used up. -/
inductive CutShort : Halt BuildError → Prop where
  | unfinished : CutShort .unfinished
  | outOfFuel {err : BuildError} : err.IsOutOfFuel → CutShort (.failed err)

/-- The endings have the same value, or errors that correspond to each other, unless one of the runs
is cut short. -/
inductive Concordant {α : Type} :
    EStateM.Result (Halt BuildError) Trace α → EStateM.Result (Halt BuildError) Trace α → Prop where
  | ok (a : α) (t t' : Trace) : Concordant (.ok a t) (.ok a t')
  | failed {P : List (VarId × VarId)} {err err' : BuildError} (t t' : Trace) :
      OneToOne P → err.Related (Corresponds P) err' →
      Concordant (.error (.failed err) t) (.error (.failed err') t')
  | left {halt : Halt BuildError} (t : Trace) (r' : EStateM.Result (Halt BuildError) Trace α) :
      CutShort halt → Concordant (.error halt t) r'
  | right {halt' : Halt BuildError} (r : EStateM.Result (Halt BuildError) Trace α) (t' : Trace) :
      CutShort halt' → Concordant r (.error halt' t')

theorem Concordant.bind {α β : Type} {x x' : BuildM α} {f f' : α → BuildM β} {t t' : Trace}
    (hx : Concordant (x t) (x' t')) (hf : ∀ a s s', Concordant (f a s) (f' a s')) :
    Concordant ((x >>= f) t) ((x' >>= f') t') := by
  rw [EStateM.bind_apply, EStateM.bind_apply]
  generalize x t = r, x' t' = r' at hx ⊢
  cases hx with
  | ok a s s' => exact hf a s s'
  | failed s s' hP herr => exact .failed s s' hP herr
  | left s _ hcut => exact .left s _ hcut
  | right _ s' hcut => exact .right _ s' hcut

/-! ## Jobs -/

section Jobs

variable {table table' : Table} {settings : Settings}

/-- A job ends alike in tables that differ in locations only, if nothing cuts it. -/
theorem Job.concordant_run (htable : table.Relocated table') (hfree : table.IsVarFree)
    (hfree' : table'.IsVarFree) (settings : Settings) (depth : Nat) (job : Job) (t t' : Trace) :
    Concordant (job.run table settings depth t) (job.run table' settings depth t') := by
  have h := Elaborator.concordant_definition htable hfree hfree' settings.subsumption depth job.name
    (.start job.supply settings.fuel) (.start job.supply settings.fuel) rfl rfl
  rw [run_apply, run_apply, environment, environment]
  generalize Elaborator.definition ⟨table, settings.subsumption⟩ depth job.name _ = r,
    Elaborator.definition ⟨table', settings.subsumption⟩ depth job.name _ = r' at h ⊢
  -- a job ends as its definition does, with the failure made into a build error
  cases h with
  | ok _ _ _ hcode =>
    cases hcode
    exact .ok _ _ _
  | failed hP hf => exact .failed _ _ hP (BuildError.related_ofFailure hf)
  | left h =>
    -- an interruption of the elaborator is one of the job, for want of depth or of fuel
    cases h with
    | unfinished => exact .left _ _ .unfinished
    | outOfFuel => exact .left _ _ (.outOfFuel ⟨_, _, rfl⟩)
  | right h =>
    cases h with
    | unfinished => exact .right _ _ .unfinished
    | outOfFuel => exact .right _ _ (.outOfFuel ⟨_, _, rfl⟩)

theorem concordant_runInTurn {depth : Nat} (h : ∀ (job : Job) t t',
      Concordant (job.run table settings depth t) (job.run table' settings depth t'))
    (jobs : List Job) (t t' : Trace) :
    Concordant (runInTurn table settings depth jobs t)
      (runInTurn table' settings depth jobs t') := by
  induction jobs generalizing t t' with
  | nil => exact .ok [] t t'
  | cons job jobs ih =>
    rw [runInTurn_cons, runInTurn_cons]
    exact (h job t t').bind fun code s s' => (ih s s').bind fun codes s s' => .ok _ s s'

/-! ### Side by side -/

/-- The outcomes of jobs become known in an order in which all of them occur, and which depends on
their places only. -/
structure Arrival.IsReordering (arrival : Arrival) : Prop where
  perm : ∀ outcomes, (arrival outcomes).Perm outcomes
  forall₂ : ∀ {R : Outcome → Outcome → Prop} {outcomes outcomes' : List Outcome},
    List.Forall₂ R outcomes outcomes' → List.Forall₂ R (arrival outcomes) (arrival outcomes')

theorem Arrival.isReordering_id : Arrival.IsReordering id where
  perm _ := .refl _
  forall₂ h := h

/-- The reasons for which two builds halt, if they do: errors that correspond to each other, unless
one of the builds is cut short. -/
inductive SameHalt : Option (Halt BuildError) → Option (Halt BuildError) → Prop where
  | none : SameHalt none none
  | failed {P : List (VarId × VarId)} {err err' : BuildError} :
      OneToOne P → err.Related (Corresponds P) err' →
        SameHalt (some (.failed err)) (some (.failed err'))
  | left {halt : Halt BuildError} (o : Option (Halt BuildError)) :
      CutShort halt → SameHalt (some halt) o
  | right {halt' : Halt BuildError} (o : Option (Halt BuildError)) :
      CutShort halt' → SameHalt o (some halt')

/-- The first outcomes that are not successes agree, if all outcomes do. -/
theorem sameHalt_findSome? {outcomes outcomes' : List Outcome}
    (h : List.Forall₂ Concordant outcomes outcomes') :
    SameHalt (outcomes.findSome? haltOf?) (outcomes'.findSome? haltOf?) := by
  induction h with
  | nil => exact .none
  | cons ho _ ih =>
    rw [List.findSome?_cons, List.findSome?_cons]
    -- a code is passed over, and the first halt on one side meets the first on the other
    cases ho with
    | ok => exact ih
    | failed _ _ hP herr => exact .failed hP herr
    | left _ _ hcut => exact .left _ hcut
    | right _ _ hcut => exact .right _ hcut

/-- Jobs of which none has halted have the same code on both sides. -/
theorem filterMap_codeOf?_eq {outcomes outcomes' : List Outcome}
    (h : List.Forall₂ Concordant outcomes outcomes')
    (hnone : ∀ o ∈ outcomes, haltOf? o = none) (hnone' : ∀ o ∈ outcomes', haltOf? o = none) :
    outcomes.filterMap codeOf? = outcomes'.filterMap codeOf? := by
  induction h with
  | nil => rfl
  | cons ho _ ih =>
    obtain ⟨ho₁, hos₁⟩ := List.forall_mem_cons.1 hnone
    obtain ⟨ho₂, hos₂⟩ := List.forall_mem_cons.1 hnone'
    cases ho with
    | ok => simp only [List.filterMap_cons, codeOf?, ih hos₁ hos₂]
    -- no outcome halts, on either side
    | failed | left => cases ho₁
    | right => cases ho₂

theorem concordant_runTogether {arrival : Arrival} (harrival : arrival.IsReordering) {depth : Nat}
    (h : ∀ (job : Job) t t',
      Concordant (job.run table settings depth t) (job.run table' settings depth t'))
    (jobs : List Job) (t t' : Trace) :
    Concordant (runTogether arrival table settings depth jobs t)
      (runTogether arrival table' settings depth jobs t') := by
  -- the outcomes agree job by job, and so they do in the order in which they become known
  have houtcomes : List.Forall₂ Concordant (jobs.map fun job => job.run table settings depth [])
      (jobs.map fun job => job.run table' settings depth []) := by
    rw [List.forall₂_map_left_iff, List.forall₂_map_right_iff]
    exact List.forall₂_same.2 fun job _ => h job [] []
  simp only [runTogether]
  generalize (jobs.map fun job => job.run table settings depth []) = outcomes,
    (jobs.map fun job => job.run table' settings depth []) = outcomes' at houtcomes ⊢
  have hhalt := sameHalt_findSome? (harrival.forall₂ houtcomes)
  have hnone : ∀ os : List Outcome, (arrival os).findSome? haltOf? = none →
      ∀ o ∈ os, haltOf? o = none := fun os hfind o ho =>
    List.findSome?_eq_none_iff.1 hfind o ((harrival.perm os).mem_iff.2 ho)
  generalize hfind : (arrival outcomes).findSome? haltOf? = halt,
    hfind' : (arrival outcomes').findSome? haltOf? = halt' at hhalt ⊢
  cases hhalt with
  -- the first halt is the outcome, if there is one; otherwise there are codes, and they agree
  | none =>
    simp only [filterMap_codeOf?_eq houtcomes (hnone _ hfind) (hnone _ hfind')]
    exact .ok _ _ _
  | failed hP herr => exact .failed _ _ hP herr
  | left _ hcut => exact .left _ _ hcut
  | right _ hcut => exact .right _ _ hcut

theorem concordant_runJobs {arrival : Arrival} (harrival : arrival.IsReordering)
    (htable : table.Relocated table') (hfree : table.IsVarFree) (hfree' : table'.IsVarFree)
    (settings : Settings) (depth : Nat) (jobs : List Job) (t t' : Trace) :
    Concordant (runJobs arrival table settings depth jobs t)
      (runJobs arrival table' settings depth jobs t') := by
  have hrun := Job.concordant_run htable hfree hfree' settings depth
  unfold runJobs
  split
  · exact concordant_runTogether harrival hrun jobs t t'
  · exact concordant_runInTurn hrun jobs t t'

end Jobs

end Build

/-! ## Tables -/

section Tables

variable {table : Table}

theorem Table.IsVarFree.relocated_unlocate (h : table.IsVarFree) :
    table.Relocated table.unlocate := by
  intro n
  rw [Table.find?_unlocate]
  rcases none_or_some_of_rel (h.relocated_self n) with ⟨hd, -⟩ | ⟨d, d', hd, hd', hcopy⟩
  · rw [hd]
    exact .none
  · cases hd.symm.trans hd'
    rw [hd]
    exact .some ⟨hcopy.ty.unlocate_right trivial, hcopy.body.unlocate_right trivial⟩

theorem Table.sameDependencies_unlocate (table : Table) :
    table.SameDependencies (fun _ => True) table.unlocate where
  find? n _ := by
    rw [Table.find?_unlocate]
    cases table.find? n with
    | none => rfl
    | some d => exact congrArg some d.body.dependencies_unlocate.symm
  closed _ _ _ _ _ _ := trivial

end Tables

namespace Build

/-! ## Builds -/

theorem concordant_compileArriving {table : Table} (hfree : table.IsVarFree) {arrival : Arrival}
    (harrival : arrival.IsReordering) (settings : Settings) (depth : Nat) (entry : DefName)
    (t t' : Trace) :
    Concordant (compileArriving arrival table settings depth entry t)
      (compileArriving arrival table.unlocate settings depth entry t') := by
  -- locations play no part in what is defined and in what depends on what
  have hdeps := table.sameDependencies_unlocate
  have hcontains : table.contains entry = table.unlocate.contains entry := hdeps.contains_eq trivial
  cases hentry : table.contains entry with
  | false =>
    rw [compileArriving_of_not_contains hentry,
      compileArriving_of_not_contains (hcontains ▸ hentry)]
    -- nothing has been issued, so the empty list pairs all variables
    exact .failed t t' (P := []) ⟨.nil, .nil⟩ (.undefinedReference entry)
  | true =>
    rw [compileArriving_of_contains hentry, compileArriving_of_contains (hcontains ▸ hentry),
      ← hdeps.order_eq trivial]
    exact (concordant_runJobs harrival hfree.relocated_unlocate hfree hfree.unlocate settings
      depth _ _ _).bind fun codes _ _ => .ok _ _ _

/-- A build that fails because one of its definitions has used up its budget. -/
def ExhaustsBudget (r : EStateM.Result (Halt BuildError) Trace Compiled) : Prop :=
  ∃ err t, r = .error (.failed err) t ∧ err.IsOutOfFuel

theorem CutShort.exhaustsBudget {halt : Halt BuildError} {t : Trace} (h : CutShort halt)
    (hanswer : IsAnswer (.error halt t : EStateM.Result _ Trace Compiled)) :
    ExhaustsBudget (.error halt t) := by
  cases h with
  | unfinished => exact absurd rfl (hanswer t)
  | outOfFuel h => exact ⟨_, t, rfl, h⟩

/-- A build of a table without free variables, and a build of that table without its locations, come
to the same: both succeed with the same result, or both fail with the same error, whose wording is
the same up to the numbers of variables, unless one of them exhausts a budget. Under a limit, both
builds come to an end if the table is locally closed. -/
theorem compile_unlocate {table : Table} (hfree : table.IsVarFree) {arrival : Arrival}
    (harrival : arrival.IsReordering) (settings : Settings) (entry : DefName) (trace : Trace) :
    (∀ r r',
      Returns (fun d => compileArriving arrival table settings d entry) trace r →
      Returns (fun d => compileArriving arrival table.unlocate settings d entry) trace r' →
      (∃ c t t', r = .ok c t ∧ r' = .ok c t') ∨
      (∃ err err' t t' P, r = .error (.failed err) t ∧ r' = .error (.failed err') t' ∧
        OneToOne P ∧ err.Related (Corresponds P) err' ∧
        (err.rename (counterpart P)).message? = err'.message?) ∨
      ExhaustsBudget r ∨ ExhaustsBudget r') ∧
    ∀ limit, settings.fuel = some limit → table.IsLocallyClosed →
      Terminates (fun d => compileArriving arrival table settings d entry) trace ∧
        Terminates (fun d => compileArriving arrival table.unlocate settings d entry) trace := by
  -- first the agreement of two results, then that under a limit there are results
  refine ⟨fun r r' hr hr' => ?_, fun limit hfuel hclosed => ⟨?_, ?_⟩⟩
  · have hanswer := hr.1
    have hanswer' := hr'.1
    obtain ⟨depth, h, h'⟩ := hr.exists_common_depth hr'
    have hconcordant := concordant_compileArriving hfree harrival settings depth entry trace trace
    simp only [h, h'] at hconcordant
    -- what is returned is an answer, so a run that is cut short has exhausted a budget
    cases hconcordant with
    | ok c t t' => exact .inl ⟨c, t, t', rfl, rfl⟩
    | failed t t' hP herr =>
      exact .inr (.inl ⟨_, _, t, t', _, rfl, rfl, hP, herr, herr.message?_rename hP⟩)
    | left t _ hcut => exact .inr (.inr (.inl (hcut.exhaustsBudget hanswer)))
    | right _ t' hcut => exact .inr (.inr (.inr (hcut.exhaustsBudget hanswer')))
  · exact terminates_compileArriving harrival.perm hclosed hfuel entry trace
  · exact terminates_compileArriving harrival.perm hclosed.unlocate hfuel entry trace

/-- A function that is defined as itself, under a type that is written at some place. -/
def circular : Table :=
  .ofList [⟨"Endo", .typ, .pi "x" .typ .typ⟩, ⟨"f", .loc ⟨0, 4⟩ (.ref "Endo"), .ref "f"⟩]

theorem order_circular : circular.order "f" = [] := by
  cbv

theorem order_circular_unlocate : circular.unlocate.order "f" = [] := by
  rw [← circular.sameDependencies_unlocate.order_eq trivial, order_circular]

/-- A definition without dependencies compiles to its own code. -/
theorem returns_compile_of_order_eq_nil {table : Table} {settings : Settings} {entry : DefName}
    (hseq : settings.parallel = false) (hentry : table.contains entry = true)
    (horder : table.order entry = []) {code : Code} (trace : Trace)
    (h : Job.Accepts table settings ⟨entry, ⟨0, 0⟩⟩ code) :
    ∃ t, Returns (fun d => compile table settings d entry) trace
      (.ok (.collect [entry] [code]) t) := by
  refine (returns_compile_ok_iff hseq).2 ⟨hentry, [code], ?_, ?_⟩
  · rw [horder]
    exact .cons h .nil
  · rw [horder]
    rfl

/-- Why the circular definition is refused, with a location on its type, if it may take one step. -/
def circularFailure : Failure where
  cause := .outOfFuel 1
  stack := [.term (.ref "f") (.analysis (.ref "Endo")), .definition "f"]

/-- Locations matter to a build under a limit: one step is enough for the circular definition when
its type has no location, but not when it has one. The type is then compared with itself, and only
one of the two has its location. -/
theorem circular_out_of_fuel :
    (∃ t, Returns (fun d => compile circular { fuel := some 1 } d "f") []
      (.error (.failed (.rejected circularFailure)) t)) ∧
    ∃ t, Returns (fun d => compile circular.unlocate { fuel := some 1 } d "f") []
      (.ok (.collect ["f"] [.ref "f"]) t) := by
  have hrefuses : Job.Refuses circular { fuel := some 1 } ⟨"f", ⟨0, 0⟩⟩ circularFailure :=
    (Elaborator.deepens_definition _ "f").returns_of_halt? (.start ⟨0, 0⟩ (some 1)) _ 6
      (by decide +kernel)
  have haccepts : Job.Accepts circular.unlocate { fuel := some 1 } ⟨"f", ⟨0, 0⟩⟩ (.ref "f") :=
    (Elaborator.deepens_definition _ "f").returns_of_value? (.start ⟨0, 0⟩ (some 1)) _ 6
      (by decide +kernel)
  -- neither build has anything to compile before the entry itself
  refine ⟨(returns_compile_failed_iff rfl).2 (.inr ⟨by decide, ?_⟩), ?_⟩
  · rw [order_circular]
    exact ⟨0, _, _, rfl, fun j _ hj => absurd hj (Nat.not_lt_zero j), hrefuses, rfl⟩
  · exact returns_compile_of_order_eq_nil rfl (by decide) order_circular_unlocate [] haccepts

/-- Under a limit that is not reached, the location of its type does not matter to the
definition. -/
theorem circular_within_budget :
    circular.IsVarFree ∧ circular.IsLocallyClosed ∧ Arrival.IsReordering id ∧ ∃ c c' t t',
      Returns (fun d => compileArriving id circular { fuel := some 3 } d "f") [] (.ok c t) ∧
      Returns (fun d => compileArriving id circular.unlocate { fuel := some 3 } d "f") []
        (.ok c' t') ∧
      c = c' := by
  have hfree : circular.IsVarFree := by decide
  have hclosed : circular.IsLocallyClosed := by decide
  have haccepts : Job.Accepts circular { fuel := some 3 } ⟨"f", ⟨0, 0⟩⟩ (.ref "f") :=
    (Elaborator.deepens_definition _ "f").returns_of_value? (.start ⟨0, 0⟩ (some 3)) _ 6
      (by decide +kernel)
  have haccepts' : Job.Accepts circular.unlocate { fuel := some 3 } ⟨"f", ⟨0, 0⟩⟩ (.ref "f") :=
    (Elaborator.deepens_definition _ "f").returns_of_value? (.start ⟨0, 0⟩ (some 3)) _ 6
      (by decide +kernel)
  obtain ⟨t, h⟩ := returns_compile_of_order_eq_nil rfl (by decide) order_circular [] haccepts
  obtain ⟨t', h'⟩ :=
    returns_compile_of_order_eq_nil rfl (by decide) order_circular_unlocate [] haccepts'
  obtain ⟨hagree, hends⟩ := compile_unlocate hfree Arrival.isReordering_id { fuel := some 3 } "f" []
  -- what the two builds come to under the limit is what was computed
  obtain ⟨⟨r, hr⟩, r', hr'⟩ := hends 3 rfl hclosed
  obtain rfl := hr.unique h
  obtain rfl := hr'.unique h'
  refine ⟨hfree, hclosed, Arrival.isReordering_id, _, _, t, t', hr, hr', ?_⟩
  obtain ⟨_, _, _, hc, hc'⟩ | ⟨_, _, _, _, _, hfailed, -⟩ | ⟨_, _, hfailed, -⟩ |
    ⟨_, _, hfailed, -⟩ :=
    hagree _ _ hr hr'
  · cases hc
    cases hc'
    rfl
  all_goals cases hfailed

end Build

end SelfTypes
