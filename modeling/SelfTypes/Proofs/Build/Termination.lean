import SelfTypes.Proofs.Build.Job
import SelfTypes.Proofs.Elaboration.Termination

/-!
# Builds terminate under a limit

A build terminates, in turn or side by side, if the elaboration of each of its definitions does
(`terminates_compileArriving_of_jobs`). Each job has a budget of its own, and if that is limited,
and the definitions are locally closed, every job terminates. Main statement: `terminates_of_limit`,
for the kernel, the elaborator and builds.
-/

namespace SelfTypes

namespace Build

section Jobs

variable {table : Table} {settings : Settings} {limit : Nat}

/-! ## Jobs whose definitions can be elaborated -/

theorem Job.terminates_run {job : Job} (hjob : ∃ r, job.Elaborates table settings r)
    (trace : Trace) : Terminates (fun d => job.run table settings d) trace := by
  obtain ⟨r, hr⟩ := hjob
  exact ⟨_, Job.returns_run_iff.2 ⟨r, hr, rfl⟩⟩

theorem terminates_runInTurn {jobs : List Job}
    (hjobs : ∀ job ∈ jobs, ∃ r, job.Elaborates table settings r) (trace : Trace) :
    Terminates (fun d => runInTurn table settings d jobs) trace := by
  induction jobs generalizing trace with
  | nil => exact terminates_pure _ trace
  | cons job jobs ih =>
    obtain ⟨hjob, hrest⟩ := List.forall_mem_cons.1 hjobs
    simp only [runInTurn_cons]
    refine (Job.terminates_run hjob trace).bind fun code t _ => ?_
    exact (ih hrest t).bind fun codes t' _ => terminates_pure _ t'

/-- From some depth on, the jobs that run side by side have the same outcomes. -/
theorem exists_outcomes {jobs : List Job}
    (hjobs : ∀ job ∈ jobs, ∃ r, job.Elaborates table settings r) :
    ∃ outcomes : List Outcome, (∀ o ∈ outcomes, IsAnswer o) ∧ ∃ depth, ∀ d, depth ≤ d →
      jobs.map (fun job => job.run table settings d []) = outcomes := by
  induction jobs with
  | nil => exact ⟨[], by simp, 0, fun _ _ => rfl⟩
  | cons job jobs ih =>
    obtain ⟨hjob, hrest⟩ := List.forall_mem_cons.1 hjobs
    obtain ⟨r, hr, depth, hdepth⟩ := Job.terminates_run hjob []
    obtain ⟨outcomes, houtcomes, depth', hdepth'⟩ := ih hrest
    -- beyond both depths, neither the first outcome nor the others change
    refine ⟨r :: outcomes, List.forall_mem_cons.2 ⟨hr, houtcomes⟩, max depth depth',
      fun d hd => ?_⟩
    rw [List.map_cons, hdepth' d (by omega)]
    exact congrArg (· :: outcomes) (hdepth d (by omega))

theorem terminates_runTogether {arrival : Arrival}
    (harrival : ∀ outcomes, (arrival outcomes).Perm outcomes) {jobs : List Job}
    (hjobs : ∀ job ∈ jobs, ∃ r, job.Elaborates table settings r) (trace : Trace) :
    Terminates (fun d => runTogether arrival table settings d jobs) trace := by
  obtain ⟨outcomes, houtcomes, depth, hdepth⟩ := exists_outcomes hjobs
  -- at the depth of the outcomes the result is settled, and deeper runs repeat it
  refine ⟨runTogether arrival table settings depth jobs trace, ?_, depth, fun d hd => ?_⟩
  · simp only [runTogether, hdepth depth (Nat.le_refl depth)]
    cases hfind : (arrival outcomes).findSome? haltOf? with
    | none => exact isAnswer_ok _ _
    | some halt =>
      -- the reported failure is one of the outcomes, in whichever order they arrive
      obtain ⟨o, ho, hhalt⟩ := List.exists_of_findSome?_eq_some hfind
      have hanswer := houtcomes o ((harrival outcomes).mem_iff.1 ho)
      cases o with
      | ok code t => cases hhalt
      | error halt' t =>
        cases hhalt
        cases halt with
        | failed err => exact isAnswer_failed _ _
        | unfinished => exact absurd rfl (hanswer t)
  · simp only [runTogether, hdepth d hd, hdepth depth (Nat.le_refl depth)]

/-- A build terminates, in turn or side by side, if the elaboration of each of its definitions
does. -/
theorem terminates_compileArriving_of_jobs {arrival : Arrival}
    (harrival : ∀ outcomes, (arrival outcomes).Perm outcomes) {entry : DefName}
    (hjobs : ∀ job ∈ Job.forNames {} (table.order entry ++ [entry]),
      ∃ r, job.Elaborates table settings r) (trace : Trace) :
    Terminates (fun d => compileArriving arrival table settings d entry) trace := by
  cases hentry : table.contains entry with
  | false =>
    -- an entry that is not in the table is reported at every depth
    exact ⟨_, isAnswer_failed _ _, 0, fun d _ =>
      compileArriving_of_not_contains hentry arrival settings d trace⟩
  | true =>
    rw [terminates_congr fun d => compileArriving_of_contains hentry arrival settings d trace]
    have hrun : ∀ t, Terminates (fun d => runJobs arrival table settings d
        (Job.forNames {} (table.order entry ++ [entry]))) t := by
      intro t
      unfold runJobs
      -- both ways of running the jobs come to an end
      cases settings.parallel with
      | false => exact terminates_runInTurn hjobs t
      | true => exact terminates_runTogether harrival hjobs t
    exact (hrun _).bind fun codes t _ => terminates_of_ok rfl

/-! ## Under a limit -/

/-- Under a limit, the definition of every job can be elaborated. -/
theorem Job.exists_elaborates (htable : table.IsLocallyClosed)
    (hfuel : settings.fuel = some limit) (job : Job) : ∃ r, job.Elaborates table settings r := by
  have henv : (environment table settings).table.IsLocallyClosed := htable
  exact (Elaborator.ends_definition henv job.name).terminates (.start job.supply settings.fuel)
    hfuel

theorem terminates_compileArriving {arrival : Arrival}
    (harrival : ∀ outcomes, (arrival outcomes).Perm outcomes) (htable : table.IsLocallyClosed)
    (hfuel : settings.fuel = some limit) (entry : DefName) (trace : Trace) :
    Terminates (fun d => compileArriving arrival table settings d entry) trace :=
  terminates_compileArriving_of_jobs harrival
    (fun job _ => job.exists_elaborates htable hfuel) trace

end Jobs

end Build

/-- A limit on the number of reduction steps makes every run terminate: those of the kernel on all
terms, those of the elaborator on locally closed terms, whatever the types are, and those of
definitions and builds if the table is locally closed. Tables may be cyclic. -/
theorem terminates_of_limit (env : Environment) (limit : Nat) :
    (∀ k : Kernel, k.fuel.limit = some limit →
      (∀ t, Terminates (fun d => Kernel.reduce env.table d t) k) ∧
      (∀ a b, Terminates (fun d => Kernel.equal env.table d a b) k) ∧
      ∀ ty, Terminates (fun d => Kernel.classify env.table d ty) k) ∧
    (∀ e : Elaborator, e.kernel.fuel.limit = some limit →
      (∀ ctx t, t.IsLocallyClosed → Terminates (fun d => Elaborator.infer env d ctx t) e) ∧
      (∀ ctx t ty, t.IsLocallyClosed →
        Terminates (fun d => Elaborator.check env d ctx t ty) e) ∧
      (env.table.IsLocallyClosed →
        ∀ name, Terminates (fun d => Elaborator.definition env d name) e)) ∧
    ∀ settings : Settings, settings.fuel = some limit → env.table.IsLocallyClosed →
      ∀ entry trace,
        Terminates (fun d => Build.compile env.table settings d entry) trace ∧
        ∀ arrival : Build.Arrival, (∀ outcomes, (arrival outcomes).Perm outcomes) →
          Terminates (fun d => Build.compileArriving arrival env.table settings d entry) trace := by
  -- kernel calls need no assumption, the elaborator closed terms, and a build a closed table
  refine ⟨fun k hk => ⟨fun t => ?_, fun a b => ?_, fun ty => ?_⟩,
    fun e he => ⟨fun ctx t ht => ?_, fun ctx t ty ht => ?_, fun htable name => ?_⟩,
    fun settings hfuel htable entry trace => ⟨?_, fun arrival harrival => ?_⟩⟩
  · exact Kernel.terminates_reduce env.table (.of_limit hk) t
  · exact Kernel.terminates_equal env.table hk a b
  · exact Kernel.terminates_classify env.table hk ty
  · exact (Elaborator.ends_infer env ctx ht.content).terminates e he
  · exact (Elaborator.ends_check env ctx ht.content ty).terminates e he
  · exact (Elaborator.ends_definition htable name).terminates e he
  · exact Build.terminates_compileArriving .refl htable hfuel entry trace
  · exact Build.terminates_compileArriving harrival htable hfuel entry trace

/-- A table whose only definition unfolds to itself. -/
def endless : Table :=
  .ofList [⟨"loop", .typ, .ref "loop"⟩]

/-- Reducing, checking and building the endless definition all end under a limit of three steps. -/
theorem endless_terminates :
    endless.IsLocallyClosed ∧
      Terminates (fun d => Kernel.reduce endless d (.ref "loop")) (.start ⟨0, 0⟩ (some 3)) ∧
      Terminates (fun d => Elaborator.check ⟨endless, true⟩ d .empty .typ (.ref "loop"))
        (.start ⟨0, 0⟩ (some 3)) ∧
      Terminates (fun d => Build.compile endless { fuel := some 3 } d "loop") [] := by
  have hclosed : endless.IsLocallyClosed := by decide
  obtain ⟨kernel, elaborator, build⟩ := terminates_of_limit ⟨endless, true⟩ 3
  refine ⟨hclosed, (kernel _ rfl).1 _, ?_, (build _ rfl hclosed "loop" []).1⟩
  exact (elaborator _ rfl).2.1 .empty .typ _ trivial

end SelfTypes
