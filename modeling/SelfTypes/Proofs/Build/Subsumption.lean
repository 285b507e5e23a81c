import SelfTypes.Proofs.Build.Sequential
import SelfTypes.Proofs.Elaboration.Subsumption

/-!
# Builds without subsumption

A build that leaves out the comparison of types accepts at least what a build with it accepts, with
the same result, and spends no more reduction steps on any definition. Main statements:
`runJobs_ok_iff`, by which jobs succeed if each of them does, and `compile_without_subsumption`.
-/

namespace SelfTypes.Build

/-! ## Jobs that succeed within a depth -/

section Jobs

variable {table : Table} {settings : Settings} {depth : Nat}

/-- Within the depth, the definition of the job is accepted and has this code. -/
def Job.AcceptsWithin (table : Table) (settings : Settings) (depth : Nat) (job : Job)
    (code : Code) : Prop :=
  ∃ e, Elaborator.definition (environment table settings) depth job.name
    (.start job.supply settings.fuel) = .ok code e

theorem Job.run_ok_iff {job : Job} {code : Code} (trace : Trace) :
    (∃ t, job.run table settings depth trace = .ok code t) ↔
      job.AcceptsWithin table settings depth code := by
  simp only [run_apply, AcceptsWithin]
  cases Elaborator.definition (environment table settings) depth job.name
      (.start job.supply settings.fuel) with
  | ok code' e => simp [settle]
  | error halt e => cases halt <;> simp [settle]

theorem runInTurn_ok_iff {jobs : List Job} {codes : List Code} {trace : Trace} :
    (∃ t, runInTurn table settings depth jobs trace = .ok codes t) ↔
      List.Forall₂ (Job.AcceptsWithin table settings depth) jobs codes := by
  induction jobs generalizing codes trace with
  | nil =>
    constructor
    · rintro ⟨t, h⟩
      cases h
      exact .nil
    · intro h
      cases h
      exact ⟨trace, rfl⟩
  | cons job jobs ih =>
    -- the traces in between do not matter, as whether a job succeeds is independent of them
    rw [runInTurn_cons]
    constructor
    · rintro ⟨t, h⟩
      obtain ⟨code, t₁, hcode, h⟩ := EStateM.ok_of_bind_ok h
      obtain ⟨codes', t₂, hcodes, h⟩ := EStateM.ok_of_bind_ok h
      cases h
      exact .cons ((Job.run_ok_iff _).1 ⟨t₁, hcode⟩) (ih.1 ⟨_, hcodes⟩)
    · intro h
      rcases h with _ | ⟨hcode, hcodes⟩
      obtain ⟨t₁, hcode⟩ := (Job.run_ok_iff trace).2 hcode
      obtain ⟨t₂, hcodes⟩ := ih.2 hcodes
      exact ⟨t₂, (EStateM.bind_of_ok hcode).trans (EStateM.bind_of_ok hcodes)⟩

/-- Jobs side by side of which none has halted are those that have all been accepted. -/
theorem forall₂_acceptsWithin_iff {jobs : List Job} {codes : List Code} :
    List.Forall₂ (Job.AcceptsWithin table settings depth) jobs codes ↔
      (∀ o ∈ jobs.map fun job => job.run table settings depth [], haltOf? o = none) ∧
        (jobs.map fun job => job.run table settings depth []).filterMap codeOf? = codes := by
  induction jobs generalizing codes with
  | nil => simp [eq_comm]
  | cons job jobs ih =>
    rw [List.map_cons, List.forall_mem_cons, List.forall₂_cons_left_iff]
    cases hrun : job.run table settings depth [] with
    -- the job has one outcome at this depth, so it accepts that code and no other
    | ok code t =>
      have hcode : ∀ c, job.AcceptsWithin table settings depth c ↔ c = code := by
        intro c
        rw [← Job.run_ok_iff [], hrun]
        simp [eq_comm]
      simp [hcode, ih, haltOf?, codeOf?, eq_comm]
    | error halt t =>
      have hcode : ∀ c, ¬ job.AcceptsWithin table settings depth c := by
        intro c
        rw [← Job.run_ok_iff [], hrun]
        simp
      simp [hcode, haltOf?]

theorem runTogether_ok_iff {arrival : Arrival}
    (harrival : ∀ outcomes, (arrival outcomes).Perm outcomes) {jobs : List Job} {codes : List Code}
    {trace : Trace} :
    (∃ t, runTogether arrival table settings depth jobs trace = .ok codes t) ↔
      List.Forall₂ (Job.AcceptsWithin table settings depth) jobs codes := by
  rw [forall₂_acceptsWithin_iff]
  -- whether there is a failure does not depend on the order of arrival
  have hnone : (arrival (jobs.map fun job => job.run table settings depth [])).findSome? haltOf? =
      none ↔ ∀ o ∈ jobs.map fun job => job.run table settings depth [], haltOf? o = none := by
    simp only [List.findSome?_eq_none_iff, (harrival _).mem_iff]
  rw [← hnone]
  simp only [runTogether]
  cases (arrival (jobs.map fun job => job.run table settings depth [])).findSome? haltOf? <;> simp

/-- Jobs succeed, side by side or in turn, if each of them does. -/
theorem runJobs_ok_iff {arrival : Arrival}
    (harrival : ∀ outcomes, (arrival outcomes).Perm outcomes) {jobs : List Job} {codes : List Code}
    {trace : Trace} :
    (∃ t, runJobs arrival table settings depth jobs trace = .ok codes t) ↔
      List.Forall₂ (Job.AcceptsWithin table settings depth) jobs codes := by
  unfold runJobs
  split
  · exact runTogether_ok_iff harrival
  · exact runInTurn_ok_iff

theorem Job.AcceptsWithin.elaborates {job : Job} {e : Elaborator} {code : Code}
    (h : Elaborator.definition (environment table settings) depth job.name
      (.start job.supply settings.fuel) = .ok code e) :
      job.Elaborates table settings (.ok code e) := by
  have hreturns := (Elaborator.deepens_definition (environment table settings) job.name).returns
    depth (s := .start job.supply settings.fuel)
  simp only [h] at hreturns
  exact hreturns (isAnswer_ok code e)

/-- A job that is accepted is accepted without subsumption, too. -/
theorem Job.AcceptsWithin.without_subsumption (hfree : table.IsVarFree) {job : Job} {code : Code}
    (h : job.AcceptsWithin table { settings with subsumption := true } depth code) :
    job.AcceptsWithin table { settings with subsumption := false } depth code ∧
      ∃ e e', job.Elaborates table { settings with subsumption := true } (.ok code e) ∧
        job.Elaborates table { settings with subsumption := false } (.ok code e') ∧
        e'.kernel.spent ≤ e.kernel.spent := by
  obtain ⟨e, he⟩ := h
  obtain ⟨e', he', hspent⟩ := Elaborator.definition_without_subsumption hfree he
  exact ⟨⟨e', he'⟩, e, e', elaborates he, elaborates he', hspent⟩

end Jobs

/-! ## Builds -/

/-- A build that succeeds with subsumption succeeds without it, with the same result, and each of
its definitions has the same code then and takes no more reduction steps. -/
theorem compile_without_subsumption {arrival : Arrival}
    (harrival : ∀ outcomes, (arrival outcomes).Perm outcomes) {table : Table}
    (hfree : table.IsVarFree) {settings : Settings} {depth : Nat} {entry : DefName}
    {trace t : Trace} {c : Compiled}
    (h : compileArriving arrival table { settings with subsumption := true } depth entry trace =
      .ok c t) :
    (∃ t', compileArriving arrival table { settings with subsumption := false } depth entry trace =
      .ok c t') ∧
    ∀ job ∈ Job.forNames {} c.names, ∃ code e e',
      job.Elaborates table { settings with subsumption := true } (.ok code e) ∧
        job.Elaborates table { settings with subsumption := false } (.ok code e') ∧
        e'.kernel.spent ≤ e.kernel.spent := by
  cases hentry : table.contains entry with
  | false =>
    rw [compileArriving_of_not_contains hentry] at h
    cases h
  | true =>
    rw [compileArriving_of_contains hentry] at h ⊢
    obtain ⟨codes, t₁, hjobs, h⟩ := EStateM.ok_of_bind_ok h
    cases h
    have haccepts := (runJobs_ok_iff harrival).1 ⟨t₁, hjobs⟩
    refine ⟨?_, fun job hjob => ?_⟩
    · obtain ⟨t₁', hjobs'⟩ := (runJobs_ok_iff harrival).2
        -- each job is accepted without subsumption too, with the same code
        (haccepts.imp fun job code hcode => (hcode.without_subsumption hfree).1)
      exact ⟨_, EStateM.bind_of_ok hjobs'⟩
    · -- the job is at some position, and so is its code
      obtain ⟨i, hi⟩ := List.mem_iff_getElem?.1 hjob
      obtain ⟨code, hcode⟩ : ∃ code, codes[i]? = some code := by
        have hlength := haccepts.length_eq
        have hlt := (List.getElem?_eq_some_iff.1 hi).1
        exact ⟨_, List.getElem?_eq_getElem (hlength ▸ hlt)⟩
      have hzip : (job, code) ∈ (Job.forNames {} _).zip codes :=
        List.mem_of_getElem? (List.getElem?_zip_eq_some.2 ⟨hi, hcode⟩)
      exact ⟨code, (((List.forall₂_iff_zip.1 haccepts).2 hzip).without_subsumption hfree).2⟩

/-- Two functions on types, of which the second is the first one under a type that has to be
unfolded to see that. -/
def disguised : Table :=
  .ofList
    [⟨"second", .pi "x" .typ .typ, .ref "first"⟩,
     ⟨"first", .ref "Endo", .lam "x" false (.bound 0)⟩,
     ⟨"Endo", .typ, .pi "x" .typ .typ⟩]

theorem order_disguised : disguised.order "second" = ["first"] := by
  cbv

/-- The functions compile with and without subsumption. -/
theorem disguised_without_subsumption :
    (∀ outcomes : List Outcome, (id outcomes).Perm outcomes) ∧ disguised.IsVarFree ∧
      ∃ c t t',
        compileArriving id disguised { fuel := some 10, subsumption := true } 6 "second" [] =
          .ok c t ∧
        compileArriving id disguised { fuel := some 10, subsumption := false } 6 "second" [] =
          .ok c t' ∧ c.names = ["first", "second"] := by
  have hid : ∀ outcomes : List Outcome, (id outcomes).Perm outcomes := .refl
  have hfree : disguised.IsVarFree := by decide
  obtain ⟨t, h⟩ : ∃ t, compileArriving id disguised
      { ({ fuel := some 10 } : Settings) with subsumption := true } 6 "second" [] =
      .ok (.collect ["first", "second"] [.lam "x" .nul, .ref "first"]) t := by
    -- the order is computed first, for the build to be evaluated job by job
    rw [compileArriving_of_contains (by decide), order_disguised]
    exact EStateM.Result.exists_ok_of_value? (by decide +kernel)
  obtain ⟨⟨t', h'⟩, -⟩ := compile_without_subsumption hid hfree h
  exact ⟨hid, hfree, _, t, t', h, h', rfl⟩

end SelfTypes.Build
