import SelfTypes.Proofs.Build.Subsumption
import SelfTypes.Proofs.Build.Termination
import SelfTypes.Proofs.Dependency.Order

/-!
# Jobs in turn and side by side

The jobs of a build read one table and share nothing else: before the first of them starts, each has
the group of variables of its position. So it does not matter to the result whether they are done in
turn or side by side, nor in which order they are finished. What may differ is which error is
reported when several definitions are refused. Main statement: `compile_side_by_side`.
-/

namespace SelfTypes.Build

/-! ## What happened before does not matter -/

section Oblivious

variable (arrival : Arrival) (table : Table) (settings : Settings) (depth : Nat)

theorem Job.oblivious_run (job : Job) : Oblivious (job.run table settings depth) := by
  intro trace trace'
  rw [run_apply, run_apply]
  cases Elaborator.definition (environment table settings) depth job.name
      (.start job.supply settings.fuel) with
  | ok code e => rfl
  | error halt e => cases halt <;> rfl

theorem oblivious_runInTurn (jobs : List Job) :
    Oblivious (runInTurn table settings depth jobs) := by
  induction jobs with
  | nil =>
    intro _ _
    rfl
  | cons job jobs ih =>
    rw [runInTurn_cons]
    apply (job.oblivious_run table settings depth).bind
    intro code
    exact ih.bind fun codes _ _ => rfl

theorem oblivious_runTogether (jobs : List Job) :
    Oblivious (runTogether arrival table settings depth jobs) := by
  intro trace trace'
  -- the jobs start with empty traces, and the trace of the build only receives their events
  simp only [runTogether]
  cases (arrival (jobs.map fun job => job.run table settings depth [])).findSome? haltOf? with
  | none => rfl
  | some halt => rfl

theorem oblivious_compileArriving (entry : DefName) :
    Oblivious (compileArriving arrival table settings depth entry) := by
  intro trace trace'
  cases hentry : table.contains entry with
  | false =>
    rw [compileArriving_of_not_contains hentry, compileArriving_of_not_contains hentry]
    rfl
  | true =>
    have hrun : ∀ jobs, Oblivious (runJobs arrival table settings depth jobs) := by
      intro jobs
      unfold runJobs
      split
      · exact oblivious_runTogether arrival table settings depth jobs
      · exact oblivious_runInTurn table settings depth jobs
    rw [compileArriving_of_contains hentry, compileArriving_of_contains hentry]
    exact (hrun _).bind (fun codes _ _ => rfl) _ _

end Oblivious

/-! ## Entries that are not defined -/

section Undefined

variable {table : Table} {settings : Settings} {entry : DefName}

/-- A definition that the table does not have is refused for this reason. -/
theorem Job.refuses_of_find?_eq_none {job : Job} (h : table.find? job.name = none) :
    job.Refuses table settings ⟨.undefinedReference job.name, [.definition job.name]⟩ := by
  refine ⟨.start job.supply settings.fuel, isAnswer_failed _ _, 0, fun d _ => ?_⟩
  have hfind : (environment table settings).table.find? job.name = none := h
  simp only [Elaborator.definition, hfind]
  rfl

theorem find?_of_not_contains (h : table.contains entry = false) : table.find? entry = none := by
  rw [Table.find?_eq_none_iff]
  simpa [Table.contains] using h

/-- The only job for an entry that is not defined is that of the entry. -/
theorem forNames_of_not_contains (h : table.contains entry = false) :
    Job.forNames {} (table.order entry ++ [entry]) = [⟨entry, ⟨0, 0⟩⟩] := by
  simp only [Table.order, find?_of_not_contains h]
  rfl

theorem firstRefusal_of_not_contains (h : table.contains entry = false) {err : BuildError} :
    FirstRefusal table settings (Job.forNames {} (table.order entry ++ [entry])) err ↔
      err = .undefinedReference entry := by
  have hrefuses : Job.Refuses table settings ⟨entry, ⟨0, 0⟩⟩ _ :=
    Job.refuses_of_find?_eq_none (find?_of_not_contains h)
  rw [forNames_of_not_contains h, firstRefusal_cons_iff]
  constructor
  · rintro (⟨f, ⟨e, hf⟩, rfl⟩ | ⟨-, _, _, _, hnil, -⟩)
    · -- there is one answer to what comes of the definition
      obtain ⟨e', hf'⟩ := hrefuses
      cases hf.unique hf'
      rfl
    · simp at hnil
  · rintro rfl
    exact .inl ⟨_, hrefuses, rfl⟩

/-- A build in turn fails with the error of the first definition that is refused, the entry included
that is not defined. -/
theorem returns_compile_failed_iff_firstRefusal (hseq : settings.parallel = false)
    {err : BuildError} {trace : Trace} :
    (∃ t, Returns (fun d => compile table settings d entry) trace (.error (.failed err) t)) ↔
      FirstRefusal table settings (Job.forNames {} (table.order entry ++ [entry])) err := by
  rw [returns_compile_failed_iff hseq]
  cases h : table.contains entry with
  | false => simp [firstRefusal_of_not_contains h]
  | true => simp

end Undefined

/-! ## Errors of jobs side by side -/

section Errors

variable {arrival : Arrival} {table : Table} {settings : Settings} {depth : Nat} {err : BuildError}
  {trace t : Trace}

/-- The error of jobs side by side is that of one of them, in whichever order they are finished. -/
theorem exists_refuses_of_runTogether (harrival : ∀ outcomes, (arrival outcomes).Perm outcomes)
    {jobs : List Job}
    (h : runTogether arrival table settings depth jobs trace = .error (.failed err) t) :
    ∃ job ∈ jobs, ∃ f, job.Refuses table settings f ∧ err = .ofFailure f := by
  simp only [runTogether] at h
  split at h
  · rename_i halt hfind
    cases h
    obtain ⟨o, ho, hhalt⟩ := List.exists_of_findSome?_eq_some hfind
    -- what has become known is the outcome of a job
    obtain ⟨job, hjob, rfl⟩ := List.mem_map.1 ((harrival _).mem_iff.1 ho)
    have hrun : (job.run table settings depth []).halt? = some (.failed err) := by
      cases hrun : job.run table settings depth [] with
      | ok code t' =>
        rw [hrun] at hhalt
        cases hhalt
      | error halt' t' =>
        rw [hrun] at hhalt
        exact hhalt
    have hreturns := (Job.deepens_run table settings job).returns_of_halt? [] err depth hrun
    exact ⟨job, hjob, Job.returns_run_failed_iff.1 hreturns⟩
  · cases h

theorem exists_refuses_of_compileArriving
    (harrival : ∀ outcomes, (arrival outcomes).Perm outcomes) (hpar : settings.parallel = true)
    {entry : DefName}
    (h : compileArriving arrival table settings depth entry trace = .error (.failed err) t) :
    ∃ job ∈ Job.forNames {} (table.order entry ++ [entry]), ∃ f,
      job.Refuses table settings f ∧ err = .ofFailure f := by
  cases hentry : table.contains entry with
  | false =>
    rw [compileArriving_of_not_contains hentry] at h
    cases h
    rw [forNames_of_not_contains hentry]
    exact ⟨_, List.mem_singleton.2 rfl, _,
      Job.refuses_of_find?_eq_none (find?_of_not_contains hentry), rfl⟩
  | true =>
    rw [compileArriving_of_contains hentry, EStateM.bind_apply] at h
    simp only [runJobs, hpar, if_true] at h
    split at h
    · -- nothing fails once all jobs are done
      cases h
    · rename_i hrun
      cases h
      exact exists_refuses_of_runTogether harrival hrun

end Errors

/-! ## Builds that succeed -/

section Compile

variable {table : Table} {settings : Settings} {entry : DefName} {trace : Trace}

/-- Within a depth, a build succeeds if each of its definitions is accepted, in turn or side by
side. -/
theorem compileArriving_ok_iff {arrival : Arrival}
    (harrival : ∀ outcomes, (arrival outcomes).Perm outcomes) {depth : Nat} {c : Compiled} :
    (∃ t, compileArriving arrival table settings depth entry trace = .ok c t) ↔
      table.contains entry = true ∧ ∃ codes,
        List.Forall₂ (Job.AcceptsWithin table settings depth)
          (Job.forNames {} (table.order entry ++ [entry])) codes ∧
        c = .collect (table.order entry ++ [entry]) codes := by
  cases hentry : table.contains entry with
  | false =>
    rw [compileArriving_of_not_contains hentry]
    simp
  | true =>
    rw [compileArriving_of_contains hentry]
    constructor
    · rintro ⟨t, h⟩
      obtain ⟨codes, t₁, hjobs, h⟩ := EStateM.ok_of_bind_ok h
      cases h
      exact ⟨rfl, codes, (runJobs_ok_iff harrival).1 ⟨t₁, hjobs⟩, rfl⟩
    · rintro ⟨-, codes, hcodes, rfl⟩
      obtain ⟨t₁, hjobs⟩ := (runJobs_ok_iff harrival).2 hcodes
      exact ⟨_, EStateM.bind_of_ok hjobs⟩

/-- What one way to do the jobs gives, any other way gives that comes to an end. -/
theorem returns_ok_of_terminates {arrival arrival' : Arrival}
    (harrival : ∀ outcomes, (arrival outcomes).Perm outcomes)
    (harrival' : ∀ outcomes, (arrival' outcomes).Perm outcomes) (par par' : Bool) {c : Compiled}
    {t : Trace}
    (hok : Returns
      (fun d => compileArriving arrival table { settings with parallel := par } d entry) trace
      (.ok c t))
    (hends : Terminates
      (fun d => compileArriving arrival' table { settings with parallel := par' } d entry) trace) :
    ∃ t', Returns
      (fun d => compileArriving arrival' table { settings with parallel := par' } d entry) trace
      (.ok c t') := by
  obtain ⟨r, hr⟩ := hends
  obtain ⟨depth, h, h'⟩ := hok.exists_common_depth hr
  -- at that depth both are decided by the same elaborations
  have haccepted := (compileArriving_ok_iff harrival).1 ⟨t, h⟩
  obtain ⟨t', hok'⟩ : ∃ t', compileArriving arrival' table { settings with parallel := par' } depth
      entry trace = .ok c t' := (compileArriving_ok_iff harrival').2 haccepted
  cases h'.symm.trans hok'
  exact ⟨t', hr⟩

/-- If the elaboration of each definition comes to an end, builds in turn and side by side do so,
and one succeeds if and only if the other does, with the same result. A build side by side fails
with the error that one of its definitions has on its own, whichever is known first, and a build in
turn with that of the first definition in the list that is refused. Builds of many entries come to
what the build of each entry comes to, in the order of the entries. -/
theorem compile_side_by_side (table : Table) (settings : Settings) (trace : Trace) :
    (∀ (entry : DefName) (arrival : Arrival), (∀ outcomes, (arrival outcomes).Perm outcomes) →
      (∀ job ∈ Job.forNames {} (table.order entry ++ [entry]),
        ∃ r, job.Elaborates table settings r) →
      Terminates (fun d =>
        compileArriving arrival table { settings with parallel := true } d entry) trace ∧
      Terminates (fun d => compile table { settings with parallel := false } d entry) trace ∧
      (∀ c,
        (∃ t, Returns (fun d =>
          compileArriving arrival table { settings with parallel := true } d entry) trace
          (.ok c t)) ↔
        ∃ t, Returns (fun d =>
          compile table { settings with parallel := false } d entry) trace (.ok c t)) ∧
      (∀ err t, Returns (fun d =>
          compileArriving arrival table { settings with parallel := true } d entry) trace
          (.error (.failed err) t) →
        ∃ job ∈ Job.forNames {} (table.order entry ++ [entry]), ∃ f,
          job.Refuses table settings f ∧ err = .ofFailure f) ∧
      ∀ err,
        (∃ t, Returns (fun d => compile table { settings with parallel := false } d entry) trace
          (.error (.failed err) t)) ↔
        FirstRefusal table settings (Job.forNames {} (table.order entry ++ [entry])) err) ∧
    ∀ (entries : List DefName) (depth : Nat),
      (compileMany table settings depth entries).map EStateM.Result.verdict =
        entries.map fun entry => (compile table settings depth entry trace).verdict := by
  refine ⟨fun entry arrival harrival hjobs => ?_, fun entries depth => ?_⟩
  · -- how the jobs are done plays no part in what becomes of them
    have hjobs' : ∀ (par : Bool), ∀ job ∈ Job.forNames {} (table.order entry ++ [entry]),
        ∃ r, job.Elaborates table { settings with parallel := par } r := fun _ => hjobs
    have htogether : Terminates (fun d =>
        compileArriving arrival table { settings with parallel := true } d entry) trace :=
      terminates_compileArriving_of_jobs harrival (hjobs' true) trace
    have hinTurn : Terminates (fun d =>
        compile table { settings with parallel := false } d entry) trace :=
      terminates_compileArriving_of_jobs .refl (hjobs' false) trace
    refine ⟨htogether, hinTurn, fun c => ⟨?_, ?_⟩, fun err t h => ?_, fun err => ?_⟩
    · rintro ⟨t, hok⟩
      exact returns_ok_of_terminates harrival .refl true false hok hinTurn
    · rintro ⟨t, hok⟩
      exact returns_ok_of_terminates .refl harrival false true hok htogether
    · obtain ⟨depth, hdepth⟩ := h.exists_depth
      have hpar : ({ settings with parallel := true } : Settings).parallel = true := rfl
      exact exists_refuses_of_compileArriving harrival hpar hdepth
    · have hseq : ({ settings with parallel := false } : Settings).parallel = false := rfl
      exact returns_compile_failed_iff_firstRefusal hseq
  · rw [compileMany, List.map_map]
    apply List.map_congr_left
    intro entry _
    exact oblivious_compileArriving id table settings depth entry [] trace

/-- A type that combines two definitions, each of which refers to nothing. -/
def flawed : Table :=
  .ofList
    [⟨"main", .typ, .app (.ref "a") (.ref "b") false⟩,
     ⟨"a", .ref "Bool", .ref "left"⟩,
     ⟨"b", .ref "Bool", .ref "right"⟩]

theorem order_flawed : flawed.order "main" = ["a", "b"] := by
  cbv

/-- Both definitions are refused. In turn, the first of them is reported; if the last one is known
first, one of the two is. -/
theorem flawed_side_by_side :
    (∀ outcomes : List Outcome, outcomes.reverse.Perm outcomes) ∧
      (∀ job ∈ Job.forNames {} (flawed.order "main" ++ ["main"]),
        ∃ r, job.Elaborates flawed {} r) ∧
      (∃ t, Returns (fun d => compile flawed { parallel := false } d "main") []
        (.error (.failed (.undefinedReference "left")) t)) ∧
      ∃ err t, Returns
          (fun d => compileArriving List.reverse flawed { parallel := true } d "main") []
          (.error (.failed err) t) ∧
        ∃ job ∈ Job.forNames {} ["a", "b", "main"], ∃ f,
          job.Refuses flawed {} f ∧ err = .ofFailure f := by
  have hperm : ∀ outcomes : List Outcome, outcomes.reverse.Perm outcomes := List.reverse_perm
  have hnames : flawed.order "main" ++ ["main"] = ["a", "b", "main"] := by rw [order_flawed]; rfl
  -- what comes of each definition on its own
  have ha : Job.Refuses flawed {} ⟨"a", ⟨0, 0⟩⟩
      ⟨.undefinedReference "left", [.term (.ref "left") .synthesis,
        .term (.ref "left") (.analysis (.ref "Bool")), .definition "a"]⟩ :=
    (Elaborator.deepens_definition _ "a").returns_of_halt? (.start ⟨0, 0⟩ none) _ 6
      (by decide +kernel)
  have hb : Job.Refuses flawed {} ⟨"b", ⟨1, 0⟩⟩
      ⟨.undefinedReference "right", [.term (.ref "right") .synthesis,
        .term (.ref "right") (.analysis (.ref "Bool")), .definition "b"]⟩ :=
    (Elaborator.deepens_definition _ "b").returns_of_halt? (.start ⟨1, 0⟩ none) _ 6
      (by decide +kernel)
  have hmain : Job.Accepts flawed {} ⟨"main", ⟨2, 0⟩⟩ .nul :=
    (Elaborator.deepens_definition _ "main").returns_of_value? (.start ⟨2, 0⟩ none) _ 6
      (by decide +kernel)
  have hjobs : ∀ job ∈ Job.forNames {} (flawed.order "main" ++ ["main"]),
      ∃ r, job.Elaborates flawed {} r := by
    rw [hnames]
    show ∀ job ∈ [(⟨"a", ⟨0, 0⟩⟩ : Job), ⟨"b", ⟨1, 0⟩⟩, ⟨"main", ⟨2, 0⟩⟩], _
    obtain ⟨_, ha⟩ := ha
    obtain ⟨_, hb⟩ := hb
    obtain ⟨_, hmain⟩ := hmain
    simp only [List.forall_mem_cons, List.not_mem_nil, false_imp_iff, implies_true, and_true]
    exact ⟨⟨_, ha⟩, ⟨_, hb⟩, ⟨_, hmain⟩⟩
  obtain ⟨⟨r, hr⟩, -, hok, hfailed, hfirst⟩ :=
    (compile_side_by_side flawed {} []).1 "main" List.reverse hperm hjobs
  have hinTurn : ∃ t, Returns (fun d => compile flawed { parallel := false } d "main") []
      (.error (.failed (.undefinedReference "left")) t) := by
    refine (hfirst _).2 ?_
    rw [hnames]
    exact ⟨0, _, _, rfl, fun j _ hj => absurd hj (Nat.not_lt_zero j), ha, rfl⟩
  refine ⟨hperm, hjobs, hinTurn, ?_⟩
  cases r with
  | ok c t =>
    -- a success would be one in turn as well
    obtain ⟨t', hok'⟩ := (hok c).1 ⟨t, hr⟩
    obtain ⟨_, hinTurn⟩ := hinTurn
    cases hinTurn.unique hok'
  | error halt t =>
    cases halt with
    | failed err =>
      have hjob := hfailed err t hr
      rw [hnames] at hjob
      exact ⟨err, t, hr, hjob⟩
    | unfinished => exact absurd rfl (hr.1 t)

end Compile

end SelfTypes.Build
