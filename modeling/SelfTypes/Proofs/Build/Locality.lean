import SelfTypes.Proofs.Build.Sequential
import SelfTypes.Proofs.Dependency.Agreement
import SelfTypes.Proofs.Elaboration.Locality

/-!
# Builds look up what they are led to

A build of a definition has no use for definitions that nothing leads to, starting from the entry,
the types that are native at run time and the types of literals. Whatever else is in the table, and
in which order, the build is the same. Main statement: `compile_eq_of_agree_on_needed`.
-/

namespace SelfTypes

/-! ## Names that are needed -/

/-- The names that a build of the entry may come to: the entry, the types that elaboration brings in
itself, and all that the types and bodies of needed definitions refer to, anywhere. -/
inductive Table.Needed (table : Table) (entry : DefName) : DefName → Prop where
  | entry : Needed table entry entry
  | primitive (p : Primitive) : Needed table entry p.name
  | char : Needed table entry "Char"
  | string : Needed table entry "String"
  | ty {n m : DefName} {d : Definition} :
      Needed table entry n → table.find? n = some d → m ∈ d.ty.globals → Needed table entry m
  | body {n m : DefName} {d : Definition} :
      Needed table entry n → table.find? n = some d → m ∈ d.body.globals → Needed table entry m

theorem Table.knowsBuiltins_needed (table : Table) (entry : DefName) :
    Likeness.KnowsBuiltins { known := table.Needed entry } where
  primitive := .primitive
  char := .char
  string := .string

/-! ## The dependency order -/

theorem Term.mem_globals_of_dependencies {t : Term} {n : DefName} (h : n ∈ t.dependencies) :
    n ∈ t.globals := by
  induction t with
  | bound | var | typ | all => cases h
  | ref => exact h
  | lam _ _ _ ih | loc _ _ ih => exact ih h
  | ann _ _ _ ih => exact List.mem_append_left _ (ih h)
  | app _ _ _ ih₁ ih₂ | letIn _ _ _ _ ih₁ ih₂ =>
    rcases List.mem_append.1 h with h | h
    · exact List.mem_append_left _ (ih₁ h)
    · exact List.mem_append_right _ (ih₂ h)

theorem Table.AgreesOn.sameDependencies {known : DefName → Prop} {t t' : Table}
    (h : t.AgreesOn known t') : t.SameDependencies known t' where
  find? n hn := by rw [h.find? n hn]
  closed n d m hn hd hm := h.body n d m hn hd (Term.mem_globals_of_dependencies hm)

/-! ## Jobs -/

namespace Build

section Jobs

variable {known : DefName → Prop} {table table' : Table}

theorem Job.run_eq (h : table.AgreesOn known table') (hknown : Likeness.KnowsBuiltins { known })
    (settings : Settings) (depth : Nat) {job : Job} (hjob : known job.name) :
    job.run table settings depth = job.run table' settings depth := by
  funext trace
  rw [run_apply, run_apply]
  simp only [environment, Elaborator.definition_eq_of_agreesOn h hknown _ _ hjob]

theorem runInTurn_eq (h : table.AgreesOn known table') (hknown : Likeness.KnowsBuiltins { known })
    (settings : Settings) (depth : Nat) {jobs : List Job} (hjobs : ∀ job ∈ jobs, known job.name) :
    runInTurn table settings depth jobs = runInTurn table' settings depth jobs := by
  induction jobs with
  | nil => rfl
  | cons job jobs ih =>
    obtain ⟨hjob, hrest⟩ := List.forall_mem_cons.1 hjobs
    rw [runInTurn_cons, runInTurn_cons, Job.run_eq h hknown settings depth hjob, ih hrest]

theorem runJobs_eq (h : table.AgreesOn known table') (hknown : Likeness.KnowsBuiltins { known })
    (arrival : Arrival) (settings : Settings) (depth : Nat) {jobs : List Job}
    (hjobs : ∀ job ∈ jobs, known job.name) :
    runJobs arrival table settings depth jobs = runJobs arrival table' settings depth jobs := by
  -- each job is the same in both tables, so the outcomes are the same before they are put in order
  have houtcomes : jobs.map (fun job => job.run table settings depth []) =
      jobs.map fun job => job.run table' settings depth [] :=
    List.map_congr_left fun job hjob =>
      congrFun (Job.run_eq h hknown settings depth (hjobs job hjob)) []
  have htogether : runTogether arrival table settings depth jobs =
      runTogether arrival table' settings depth jobs := by
    funext trace
    simp only [runTogether, houtcomes]
  rw [runJobs, runJobs, runInTurn_eq h hknown settings depth hjobs, htogether]

end Jobs

/-- A build depends only on what it needs: in two tables that agree on the needed names, whatever
else they define and in which order, a build of the entry comes to the same ending, with the same
trace. -/
theorem compile_eq_of_agree_on_needed {table table' : Table} {entry : DefName}
    (hagree : ∀ n, table.Needed entry n → table.find? n = table'.find? n) (arrival : Arrival)
    (settings : Settings) (depth : Nat) (trace : Trace) :
    compileArriving arrival table settings depth entry trace =
      compileArriving arrival table' settings depth entry trace := by
  have h : table.AgreesOn (table.Needed entry) table' :=
    ⟨hagree, fun _ _ _ => .ty, fun _ _ _ => .body⟩
  have hdeps := h.sameDependencies
  have hcontains := hdeps.contains_eq .entry
  cases hentry : table.contains entry with
  -- the two tables contain the entry or not alike, as it is needed itself
  | false =>
    rw [compileArriving_of_not_contains hentry,
      compileArriving_of_not_contains (hcontains ▸ hentry)]
  | true =>
    rw [compileArriving_of_contains hentry, compileArriving_of_contains (hcontains ▸ hentry),
      ← hdeps.order_eq .entry]
    rw [runJobs_eq h (table.knowsBuiltins_needed entry) arrival settings depth]
    -- every job is for the entry or a dependency of it, and so its name is needed
    intro job hjob
    obtain ⟨i, hi⟩ := List.mem_iff_getElem?.1 hjob
    obtain ⟨name, hname, rfl⟩ := getElem?_forNames_eq_some_iff.1 hi
    exact hdeps.known_of_mem_order_append .entry (List.mem_of_getElem? hname)

/-- The two types of the chain the other way round, after a definition that nothing leads to. -/
def crowdedChain : Table :=
  .ofList [⟨"stray", .typ, .ref "nowhere"⟩, ⟨"first", .typ, .typ⟩, ⟨"second", .typ, .ref "first"⟩]

theorem chain_needs {n : DefName} (h : chain.Needed "second" n) : n ≠ "stray" := by
  have hglobals : ∀ d ∈ chain.entries, "stray" ∉ d.ty.globals ∧ "stray" ∉ d.body.globals := by
    decide
  cases h with
  | entry | char | string => decide
  | primitive p => cases p <;> decide
  | ty _ hd hm =>
    rintro rfl
    exact (hglobals _ (List.mem_of_find?_eq_some hd)).1 hm
  | body _ hd hm =>
    rintro rfl
    exact (hglobals _ (List.mem_of_find?_eq_some hd)).2 hm

/-- The stray definition and the order of the others do not show in a build of the chain. -/
theorem compile_crowdedChain :
    (∀ n, chain.Needed "second" n → chain.find? n = crowdedChain.find? n) ∧
      compileArriving id chain {} 6 "second" [] =
        compileArriving id crowdedChain {} 6 "second" [] := by
  have hagree : ∀ n, chain.Needed "second" n → chain.find? n = crowdedChain.find? n := by
    intro n hn
    have hstray := Ne.symm (chain_needs hn)
    by_cases hfirst : "first" = n
    -- only the stray definition tells the tables apart, and it is not needed
    · cases hfirst
      decide
    · by_cases hsecond : "second" = n
      · cases hsecond
        decide
      · simp [Table.find?, chain, crowdedChain, Table.ofList, Table.insert, Table.empty,
          Table.insertEntry, hstray, hfirst, hsecond]
  exact ⟨hagree, compile_eq_of_agree_on_needed hagree id {} 6 []⟩

end Build

end SelfTypes
