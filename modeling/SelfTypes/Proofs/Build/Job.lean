import SelfTypes.Build
import SelfTypes.Proofs.Trace

/-!
# Jobs

A job elaborates one definition. What comes of it depends on the table, the settings and its group
of variables, and on nothing that was done before: it returns what the elaboration of the
definition returns on its own (`returns_run_iff`).
-/

namespace SelfTypes.Build

/-- The environment in which a build checks definitions. -/
def environment (table : Table) (settings : Settings) : Environment :=
  { table, subsumption := settings.subsumption }

namespace Job

variable (table : Table) (settings : Settings)

/-- What the elaboration of the job's definition returns on its own, before any other work. -/
def Elaborates (job : Job) (r : EStateM.Result (Halt Failure) Elaborator Code) : Prop :=
  Returns (fun d => Elaborator.definition (environment table settings) d job.name)
    (.start job.supply settings.fuel) r

/-- The definition of the job is accepted and has this code. -/
def Accepts (job : Job) (code : Code) : Prop :=
  ∃ e, job.Elaborates table settings (.ok code e)

/-- The definition of the job is refused with this failure. -/
def Refuses (job : Job) (failure : Failure) : Prop :=
  ∃ e, job.Elaborates table settings (.error (.failed failure) e)

/-- The ending of a job that starts with the given trace, from the ending of its elaboration. -/
def settle (older : Trace) (job : Job) :
    EStateM.Result (Halt Failure) Elaborator Code → Outcome
  | .ok code e => .ok code (.checked job.name e.kernel.spent :: (e.kernel.trace ++ older))
  | .error (.failed f) e => .error (.failed (.ofFailure f)) (e.kernel.trace ++ older)
  | .error .unfinished e => .error .unfinished (e.kernel.trace ++ older)

theorem isAnswer_settle_iff (older : Trace) (job : Job)
    (r : EStateM.Result (Halt Failure) Elaborator Code) :
    IsAnswer (job.settle older r) ↔ IsAnswer r := by
  cases r with
  | ok code e => exact iff_of_true (isAnswer_ok _ _) (isAnswer_ok _ _)
  | error halt e =>
    cases halt with
    | failed f => exact iff_of_true (isAnswer_failed _ _) (isAnswer_failed _ _)
    | unfinished => exact iff_of_false (fun h => h _ rfl) fun h => h _ rfl

theorem run_apply (depth : Nat) (job : Job) (trace : Trace) :
    job.run table settings depth trace =
      job.settle trace (Elaborator.definition (environment table settings) depth job.name
        (.start job.supply settings.fuel)) := by
  have h := Elaborator.carries_definition trace (environment table settings) depth job.name
    (.start job.supply settings.fuel)
  -- the elaborator of the job starts with the trace, which `h` moves to the end
  change (match Elaborator.definition (environment table settings) depth job.name
      (Elaborator.withOlder trace (.start job.supply settings.fuel)) with
    | .ok code e => _
    | .error (.failed f) e => _
    | .error .unfinished e => _) = _
  rw [h]
  cases Elaborator.definition (environment table settings) depth job.name
      (.start job.supply settings.fuel) with
  | ok code e => rfl
  | error halt e => cases halt <;> rfl

variable {table settings} {job : Job} {trace : Trace}

/-- A job returns what the elaboration of its definition returns on its own. -/
theorem returns_run_iff {q : Outcome} :
    Returns (fun d => job.run table settings d) trace q ↔
      ∃ r, job.Elaborates table settings r ∧ job.settle trace r = q :=
  (Elaborator.deepens_definition (environment table settings) job.name).returns_map_iff
    (isAnswer_settle_iff trace job) fun d => run_apply table settings d job trace

theorem deepens_run (table : Table) (settings : Settings) (job : Job) :
    Deepens fun d => job.run table settings d := by
  intro d d' hle trace h
  change IsAnswer (job.run table settings d trace) at h
  change job.run table settings d' trace = job.run table settings d trace
  rw [run_apply, isAnswer_settle_iff] at h
  rw [run_apply, run_apply]
  exact congrArg _ (Elaborator.deepens_definition _ _ d d' hle _ h)

theorem returns_run_ok_iff {code : Code} :
    (∃ t, Returns (fun d => job.run table settings d) trace (.ok code t)) ↔
      job.Accepts table settings code := by
  refine ⟨?_, ?_⟩
  · intro h
    obtain ⟨t, h⟩ := h
    obtain ⟨r, hr, hsettle⟩ := returns_run_iff.1 h
    -- a job succeeds exactly where the definition does, and passes the code on
    cases r with
    | ok code' e =>
      cases hsettle
      exact ⟨e, hr⟩
    | error halt e => cases halt <;> cases hsettle
  · intro h
    obtain ⟨e, h⟩ := h
    exact ⟨_, returns_run_iff.2 ⟨_, h, rfl⟩⟩

theorem returns_run_failed_iff {err : BuildError} :
    (∃ t, Returns (fun d => job.run table settings d) trace (.error (.failed err) t)) ↔
      ∃ f, job.Refuses table settings f ∧ err = .ofFailure f := by
  refine ⟨?_, ?_⟩
  · intro h
    obtain ⟨t, h⟩ := h
    obtain ⟨r, hr, hsettle⟩ := returns_run_iff.1 h
    -- only a failure is reported as one; a run that is cut off is not
    cases r with
    | ok code e => cases hsettle
    | error halt e =>
      cases halt with
      | failed f =>
        cases hsettle
        exact ⟨f, ⟨e, hr⟩, rfl⟩
      | unfinished => cases hsettle
  · intro h
    obtain ⟨f, ⟨e, h⟩, rfl⟩ := h
    exact ⟨_, returns_run_iff.2 ⟨_, h, rfl⟩⟩

end Job

/-! ## Builds as sequences -/

theorem runInTurn_cons (table : Table) (settings : Settings) (depth : Nat) (job : Job)
    (jobs : List Job) :
    runInTurn table settings depth (job :: jobs) =
      (job.run table settings depth >>= fun code =>
        runInTurn table settings depth jobs >>= fun codes => pure (code :: codes)) := by
  rw [runInTurn, List.mapM_cons]
  rfl

/-- Runs the jobs of a build, side by side or in turn as the settings say. -/
def runJobs (arrival : Arrival) (table : Table) (settings : Settings) (depth : Nat)
    (jobs : List Job) : BuildM (List Code) :=
  if settings.parallel then runTogether arrival table settings depth jobs
  else runInTurn table settings depth jobs

section Compile

variable {table : Table} {entry : DefName}

theorem compileArriving_of_not_contains (h : table.contains entry = false) (arrival : Arrival)
    (settings : Settings) (depth : Nat) (trace : Trace) :
    compileArriving arrival table settings depth entry trace =
      .error (.failed (.undefinedReference entry)) trace := by
  simp only [compileArriving, h]
  rfl

theorem compileArriving_of_contains (h : table.contains entry = true) (arrival : Arrival)
    (settings : Settings) (depth : Nat) (trace : Trace) :
    compileArriving arrival table settings depth entry trace =
      (runJobs arrival table settings depth (Job.forNames {} (table.order entry ++ [entry])) >>=
        fun codes => note (.compiled entry (table.order entry ++ [entry]).length) >>=
        fun _ => pure (.collect (table.order entry ++ [entry]) codes))
      (.ordering entry (table.order entry) :: trace) := by
  simp only [compileArriving, dependencies, runJobs, h, if_true]
  cases settings.parallel <;> rfl

end Compile

end SelfTypes.Build
