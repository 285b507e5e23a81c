import Mathlib.Data.List.Forall2
import SelfTypes.Proofs.Build.Job
import SelfTypes.Proofs.Dependency

/-!
# Builds that do their jobs in turn

A build whose jobs are done in turn is all or nothing, and it agrees with the elaboration of each
definition on its own. Main statement: `compile_in_turn`.
-/

namespace SelfTypes.Build

/-! ## Jobs in turn -/

section InTurn

variable {table : Table} {settings : Settings}

theorem deepens_runInTurn (table : Table) (settings : Settings) (jobs : List Job) :
    Deepens fun d => runInTurn table settings d jobs := by
  induction jobs with
  | nil => exact fun _ _ _ => .refl _
  | cons job jobs ih =>
    simp only [runInTurn_cons]
    exact (Job.deepens_run table settings job).bind fun _ => ih.bind fun _ _ _ _ => .refl _

/-- Jobs in turn give the code of each definition, if all are accepted. -/
theorem returns_runInTurn_ok_iff {jobs : List Job} {codes : List Code} {trace : Trace} :
    (∃ t, Returns (fun d => runInTurn table settings d jobs) trace (.ok codes t)) ↔
      List.Forall₂ (Job.Accepts table settings) jobs codes := by
  induction jobs generalizing codes trace with
  | nil =>
    -- without jobs there is one result at every depth
    refine ⟨?_, ?_⟩
    · intro h
      obtain ⟨t, h⟩ := h
      cases h.unique (returns_const rfl (isAnswer_ok [] trace))
      exact .nil
    · intro h
      cases h
      exact ⟨trace, returns_const rfl (isAnswer_ok [] trace)⟩
  | cons job jobs ih =>
    have hrest := deepens_runInTurn table settings jobs
    simp only [runInTurn_cons, (Job.deepens_run table settings job).returns_bind_ok_iff,
      hrest.returns_bind_ok_iff]
    refine ⟨?_, ?_⟩
    · -- the traces in between do not matter
      intro h
      obtain ⟨t, code, t₁, hcode, codes', t₂, hcodes, hpure⟩ := h
      cases hpure.unique (returns_const rfl (isAnswer_ok (code :: codes') t₂))
      exact .cons (Job.returns_run_ok_iff.1 ⟨t₁, hcode⟩) (ih.1 ⟨_, hcodes⟩)
    · intro h
      rcases h with _ | ⟨hcode, hcodes⟩
      obtain ⟨t₁, hcode⟩ := Job.returns_run_ok_iff.2 hcode
      obtain ⟨t₂, hcodes⟩ := ih.2 hcodes
      exact ⟨t₂, _, t₁, hcode, _, t₂, hcodes, returns_const rfl (isAnswer_ok _ t₂)⟩

/-- The first of the jobs whose definition is not accepted is refused with the error. -/
def FirstRefusal (table : Table) (settings : Settings) (jobs : List Job) (err : BuildError) :
    Prop :=
  ∃ (i : Nat) (job : Job) (f : Failure), jobs[i]? = some job ∧
    (∀ (j : Nat) (job' : Job), j < i → jobs[j]? = some job' →
      ∃ code, job'.Accepts table settings code) ∧
    job.Refuses table settings f ∧ err = .ofFailure f

theorem firstRefusal_cons_iff {job : Job} {jobs : List Job} {err : BuildError} :
    FirstRefusal table settings (job :: jobs) err ↔
      (∃ f, job.Refuses table settings f ∧ err = .ofFailure f) ∨
        (∃ code, job.Accepts table settings code) ∧ FirstRefusal table settings jobs err := by
  refine ⟨?_, ?_⟩
  · intro h
    obtain ⟨i, job', f, hi, hbefore, hrefuses⟩ := h
    -- the refused job is the first one or a later one
    cases i with
    | zero =>
      cases hi
      exact .inl ⟨f, hrefuses⟩
    | succ i =>
      -- the first job comes before the refused one, so it was accepted
      refine .inr ⟨hbefore 0 job (Nat.succ_pos i) rfl, i, job', f, hi, ?_, hrefuses⟩
      intro j job'' hj hjob
      exact hbefore (j + 1) job'' (Nat.succ_lt_succ hj) hjob
  · intro h
    rcases h with ⟨f, hrefuses⟩ | ⟨haccepts, i, job', f, hi, hbefore, hrefuses⟩
    · exact ⟨0, job, f, rfl, fun j _ hj => absurd hj (Nat.not_lt_zero j), hrefuses⟩
    · refine ⟨i + 1, job', f, hi, ?_, hrefuses⟩
      intro j job'' hj hjob
      cases j with
      | zero =>
        cases hjob
        exact haccepts
      | succ j => exact hbefore j job'' (Nat.lt_of_succ_lt_succ hj) hjob

/-- Jobs in turn fail with the error of the first definition that is refused. -/
theorem returns_runInTurn_failed_iff {jobs : List Job} {err : BuildError} {trace : Trace} :
    (∃ t, Returns (fun d => runInTurn table settings d jobs) trace (.error (.failed err) t)) ↔
      FirstRefusal table settings jobs err := by
  induction jobs generalizing trace with
  | nil =>
    refine ⟨?_, ?_⟩
    · intro h
      obtain ⟨t, h⟩ := h
      cases h.unique (returns_const rfl (isAnswer_ok [] trace))
    · intro h
      obtain ⟨i, job, f, hi, -⟩ := h
      cases hi
  | cons job jobs ih =>
    have hrest := deepens_runInTurn table settings jobs
    simp only [runInTurn_cons, (Job.deepens_run table settings job).returns_bind_failed_iff,
      hrest.returns_bind_failed_iff, firstRefusal_cons_iff]
    refine ⟨?_, ?_⟩
    · intro h
      -- the failure is that of the first job or of a later one: collecting the codes does not fail
      rcases h with ⟨t, hjob | ⟨code, t₁, hcode, hjobs | ⟨codes, t₂, -, hpure⟩⟩⟩
      · exact .inl (Job.returns_run_failed_iff.1 ⟨t, hjob⟩)
      · exact .inr ⟨⟨code, Job.returns_run_ok_iff.1 ⟨t₁, hcode⟩⟩, ih.1 ⟨t, hjobs⟩⟩
      · cases hpure.unique (returns_const rfl (isAnswer_ok (code :: codes) t₂))
    · intro h
      rcases h with hjob | ⟨⟨code, hcode⟩, hjobs⟩
      · obtain ⟨t, hjob⟩ := Job.returns_run_failed_iff.2 hjob
        exact ⟨t, .inl hjob⟩
      · obtain ⟨t₁, hcode⟩ := Job.returns_run_ok_iff.2 hcode
        obtain ⟨t, hjobs⟩ := ih.2 hjobs
        exact ⟨t, .inr ⟨code, t₁, hcode, .inl hjobs⟩⟩

/-- All definitions are accepted if there is code for each. -/
theorem exists_forall₂_accepts_iff {jobs : List Job} :
    (∃ codes, List.Forall₂ (Job.Accepts table settings) jobs codes) ↔
      ∀ job ∈ jobs, ∃ code, job.Accepts table settings code := by
  induction jobs with
  | nil => exact iff_of_true ⟨[], .nil⟩ fun job hjob => by cases hjob
  | cons job jobs ih =>
    -- a job is accepted or not whatever the others do
    rw [List.forall_mem_cons, ← ih]
    refine ⟨?_, ?_⟩
    · intro h
      rcases h with ⟨_, _ | ⟨hcode, hcodes⟩⟩
      exact ⟨⟨_, hcode⟩, _, hcodes⟩
    · intro h
      obtain ⟨⟨code, hcode⟩, codes, hcodes⟩ := h
      exact ⟨code :: codes, .cons hcode hcodes⟩

end InTurn

/-! ## The jobs of a build -/

/-- The job at a position has the definition at that position, and the group of that number. -/
theorem getElem?_forNames (groups : GroupSupply) (names : List DefName) (i : Nat) :
    (Job.forNames groups names)[i]? =
      names[i]?.map fun name => ⟨name, ⟨groups.next + i, 0⟩⟩ := by
  induction names generalizing groups i with
  | nil => rfl
  | cons name names ih =>
    cases i with
    | zero => rfl
    | succ i =>
      simp only [Job.forNames, List.getElem?_cons_succ, ih, GroupSupply.issue_snd]
      rw [Nat.add_assoc, Nat.add_comm 1 i]

theorem length_forNames (groups : GroupSupply) (names : List DefName) :
    (Job.forNames groups names).length = names.length := by
  induction names generalizing groups with
  | nil => rfl
  | cons name names ih => exact congrArg (· + 1) (ih _)

theorem getElem?_forNames_eq_some_iff {names : List DefName} {i : Nat} {job : Job} :
    (Job.forNames {} names)[i]? = some job ↔
      ∃ name, names[i]? = some name ∧ job = ⟨name, ⟨i, 0⟩⟩ := by
  rw [getElem?_forNames, Option.map_eq_some_iff, Nat.zero_add]
  simp only [eq_comm]

theorem forall_mem_forNames_iff {P : Job → Prop} {names : List DefName} :
    (∀ job ∈ Job.forNames {} names, P job) ↔
      ∀ i name, names[i]? = some name → P ⟨name, ⟨i, 0⟩⟩ := by
  refine ⟨?_, ?_⟩
  · intro h i name hi
    exact h _ (List.mem_of_getElem? (getElem?_forNames_eq_some_iff.2 ⟨name, hi, rfl⟩))
  · intro h job hjob
    obtain ⟨i, hi⟩ := List.mem_iff_getElem?.1 hjob
    obtain ⟨name, hname, rfl⟩ := getElem?_forNames_eq_some_iff.1 hi
    exact h i name hname

section Positions

variable {table : Table} {settings : Settings} {names : List DefName}

theorem exists_forall₂_accepts_forNames_iff :
    (∃ codes, List.Forall₂ (Job.Accepts table settings) (Job.forNames {} names) codes) ↔
      ∀ i name, names[i]? = some name →
        ∃ code, Job.Accepts table settings ⟨name, ⟨i, 0⟩⟩ code :=
  exists_forall₂_accepts_iff.trans forall_mem_forNames_iff

theorem firstRefusal_forNames_iff {err : BuildError} :
    FirstRefusal table settings (Job.forNames {} names) err ↔
      ∃ i name f, names[i]? = some name ∧
        (∀ j name', j < i → names[j]? = some name' →
          ∃ code, Job.Accepts table settings ⟨name', ⟨j, 0⟩⟩ code) ∧
        Job.Refuses table settings ⟨name, ⟨i, 0⟩⟩ f ∧ err = .ofFailure f := by
  simp only [FirstRefusal, getElem?_forNames_eq_some_iff]
  refine ⟨?_, ?_⟩
  -- a job of the list is the name at its position, with a supply of that position
  · intro h
    obtain ⟨i, _, f, ⟨name, hname, rfl⟩, hbefore, hrefuses⟩ := h
    refine ⟨i, name, f, hname, fun j name' hj hname' => ?_, hrefuses⟩
    exact hbefore j _ hj ⟨name', hname', rfl⟩
  · intro h
    obtain ⟨i, name, f, hname, hbefore, hrefuses⟩ := h
    refine ⟨i, _, f, ⟨name, hname, rfl⟩, ?_, hrefuses⟩
    rintro j _ hj ⟨name', hname', rfl⟩
    exact hbefore j name' hj hname'

end Positions

/-! ## Collecting code -/

theorem insertCode_of_notMem {name : DefName} {code : Code} {defs : List (DefName × Code)}
    (h : name ∉ defs.map Prod.fst) :
    Compiled.insertCode name code defs = defs ++ [(name, code)] := by
  induction defs with
  | nil => rfl
  | cons p defs ih =>
    simp only [List.map_cons, List.mem_cons, not_or] at h
    simp only [Compiled.insertCode, if_neg (Ne.symm h.1), ih h.2, List.cons_append]

theorem foldl_insertCode (pairs defs : List (DefName × Code))
    (h : ((defs ++ pairs).map Prod.fst).Nodup) :
    pairs.foldl (fun defs p => Compiled.insertCode p.1 p.2 defs) defs = defs ++ pairs := by
  induction pairs generalizing defs with
  | nil => exact (List.append_nil defs).symm
  | cons p pairs ih =>
    -- the next name is new, so its code goes to the end
    have hp : p.1 ∉ defs.map Prod.fst := by
      rw [List.map_append, List.map_cons] at h
      exact fun hmem => (List.nodup_append.1 h).2.2 _ hmem _ List.mem_cons_self rfl
    rw [List.foldl_cons, insertCode_of_notMem hp, ih, List.append_assoc]
    · rfl
    · rwa [List.append_assoc]

/-- Names that are all different keep their code, in order. -/
theorem definitions_collect {names : List DefName} {codes : List Code} (hnames : names.Nodup)
    (hlength : names.length = codes.length) :
    (Compiled.collect names codes).definitions = names.zip codes := by
  have hkeys : (names.zip codes).map Prod.fst = names :=
    List.map_fst_zip (Nat.le_of_eq hlength)
  refine (foldl_insertCode _ [] ?_).trans (List.nil_append _)
  rw [List.nil_append, hkeys]
  exact hnames

/-! ## Builds -/

section Compile

variable {table : Table} {settings : Settings} {entry : DefName} {trace : Trace}

theorem compile_of_contains (hseq : settings.parallel = false) (h : table.contains entry = true)
    (depth : Nat) :
    compile table settings depth entry trace =
      (runInTurn table settings depth (Job.forNames {} (table.order entry ++ [entry])) >>=
        fun codes => note (.compiled entry (table.order entry ++ [entry]).length) >>=
        fun _ => pure (.collect (table.order entry ++ [entry]) codes))
      (.ordering entry (table.order entry) :: trace) := by
  rw [compile, compileArriving_of_contains h]
  simp only [runJobs, hseq, Bool.false_eq_true, if_false]

/-- A build of a defined entry gives what is collected from the code of its definitions. -/
theorem returns_compile_ok_iff (hseq : settings.parallel = false) {c : Compiled} :
    (∃ t, Returns (fun d => compile table settings d entry) trace (.ok c t)) ↔
      table.contains entry = true ∧ ∃ codes,
        List.Forall₂ (Job.Accepts table settings)
          (Job.forNames {} (table.order entry ++ [entry])) codes ∧
        c = .collect (table.order entry ++ [entry]) codes := by
  cases h : table.contains entry with
  | false =>
    refine iff_of_false ?_ fun hfalse => Bool.false_ne_true hfalse.1
    intro h
    obtain ⟨t, hok⟩ := h
    obtain ⟨d, hd⟩ := hok.exists_depth
    cases (compileArriving_of_not_contains h id settings d trace).symm.trans hd
  | true =>
    -- once the jobs have run, what is left is to collect their codes
    simp only [returns_congr (compile_of_contains hseq h),
      (deepens_runInTurn table settings _).returns_bind_ok_iff, true_and]
    refine ⟨?_, ?_⟩
    · intro h
      obtain ⟨t, codes, t₁, hcodes, hrest⟩ := h
      cases hrest.unique (returns_const rfl (isAnswer_ok _ _))
      exact ⟨codes, returns_runInTurn_ok_iff.1 ⟨t₁, hcodes⟩, rfl⟩
    · intro h
      obtain ⟨codes, hcodes, rfl⟩ := h
      obtain ⟨t₁, hcodes⟩ := returns_runInTurn_ok_iff.2 hcodes
      exact ⟨_, codes, t₁, hcodes, returns_const rfl (isAnswer_ok _ _)⟩

/-- A build fails if its entry is not defined, or else with the first of its definitions that is
refused. -/
theorem returns_compile_failed_iff (hseq : settings.parallel = false) {err : BuildError} :
    (∃ t, Returns (fun d => compile table settings d entry) trace (.error (.failed err) t)) ↔
      table.contains entry = false ∧ err = .undefinedReference entry ∨
      table.contains entry = true ∧
        FirstRefusal table settings (Job.forNames {} (table.order entry ++ [entry])) err := by
  cases h : table.contains entry with
  | false =>
    simp only [true_and, Bool.false_eq_true, false_and, or_false]
    refine ⟨?_, ?_⟩
    · intro h
      obtain ⟨t, hfailed⟩ := h
      -- the entry is looked up before anything else, at every depth
      obtain ⟨d, hd⟩ := hfailed.exists_depth
      cases (compileArriving_of_not_contains h id settings d trace).symm.trans hd
      rfl
    · rintro rfl
      exact ⟨trace, isAnswer_failed _ _, 0, fun d _ =>
        compileArriving_of_not_contains h id settings d trace⟩
  | true =>
    simp only [returns_congr (compile_of_contains hseq h),
      (deepens_runInTurn table settings _).returns_bind_failed_iff, Bool.true_eq_false,
      false_and, true_and, false_or]
    refine ⟨?_, ?_⟩
    · intro h
      rcases h with ⟨t, hjobs | ⟨codes, t₁, -, hrest⟩⟩
      · exact returns_runInTurn_failed_iff.1 ⟨t, hjobs⟩
      · -- nothing fails once all jobs are done
        cases hrest.unique (returns_const rfl (isAnswer_ok _ _))
    · intro hfirst
      obtain ⟨t, hjobs⟩ := returns_runInTurn_failed_iff.2 hfirst
      exact ⟨t, .inl hjobs⟩

/-- A build whose jobs are done in turn succeeds if and only if its entry is defined and each of its
definitions is accepted on its own, by an elaborator with the group of variables of its position.
Then it has these definitions, once each and the entry at the end, and for each the code that it
has on its own. It fails if and only if its entry is not defined or one of the definitions is
refused, and the error is that of the first one. -/
theorem compile_in_turn (table : Table) (settings : Settings)
    (hseq : settings.parallel = false) (entry : DefName) (trace : Trace) :
    ((∃ c t, Returns (fun d => compile table settings d entry) trace (.ok c t)) ↔
      table.contains entry = true ∧
        ∀ i name, (table.order entry ++ [entry])[i]? = some name →
          ∃ code, Job.Accepts table settings ⟨name, ⟨i, 0⟩⟩ code) ∧
    (∀ c t, Returns (fun d => compile table settings d entry) trace (.ok c t) →
      c.names = table.order entry ++ [entry] ∧ c.names.Nodup ∧ c.entry? = some entry ∧
        c.definitions.map Prod.fst = c.names ∧
        ∀ i name code, c.definitions[i]? = some (name, code) →
          Job.Accepts table settings ⟨name, ⟨i, 0⟩⟩ code) ∧
    ∀ err, (∃ t, Returns (fun d => compile table settings d entry) trace
        (.error (.failed err) t)) ↔
      table.contains entry = false ∧ err = .undefinedReference entry ∨
      table.contains entry = true ∧
        ∃ i name f, (table.order entry ++ [entry])[i]? = some name ∧
          (∀ j name', j < i → (table.order entry ++ [entry])[j]? = some name' →
            ∃ code, Job.Accepts table settings ⟨name', ⟨j, 0⟩⟩ code) ∧
          Job.Refuses table settings ⟨name, ⟨i, 0⟩⟩ f ∧ err = .ofFailure f := by
  refine ⟨?_, ?_, fun err => ?_⟩
  -- success is a matter of the single jobs, whatever the codes are
  · rw [← exists_forall₂_accepts_forNames_iff]
    refine ⟨?_, ?_⟩
    · intro h
      obtain ⟨c, hok⟩ := h
      obtain ⟨hentry, codes, hcodes, -⟩ := (returns_compile_ok_iff hseq).1 hok
      exact ⟨hentry, codes, hcodes⟩
    · intro h
      obtain ⟨hentry, codes, hcodes⟩ := h
      exact ⟨_, (returns_compile_ok_iff hseq).2 ⟨hentry, codes, hcodes, rfl⟩⟩
  · intro c t hok
    obtain ⟨hentry, codes, hcodes, rfl⟩ := (returns_compile_ok_iff hseq).1 ⟨t, hok⟩
    have hlength : (table.order entry ++ [entry]).length = codes.length :=
      (length_forNames {} _).symm.trans hcodes.length_eq
    -- the names are all different, so no code replaces another
    have hnodup := table.nodup_order_append entry
    have hdefs := definitions_collect hnodup hlength
    refine ⟨rfl, hnodup, List.getLast?_concat, ?_, ?_⟩
    · rw [hdefs]
      exact List.map_fst_zip (Nat.le_of_eq hlength)
    · intro i name code hi
      rw [hdefs, List.getElem?_zip_eq_some] at hi
      -- the entry at a position comes from the job at that position
      have hjob := getElem?_forNames_eq_some_iff.2 ⟨name, hi.1, rfl⟩
      have hzip : ((⟨name, ⟨i, 0⟩⟩ : Job), code) ∈ (Job.forNames {} _).zip codes :=
        List.mem_of_getElem? (List.getElem?_zip_eq_some.2 ⟨hjob, hi.2⟩)
      exact (List.forall₂_iff_zip.1 hcodes).2 hzip
  · rw [returns_compile_failed_iff hseq, firstRefusal_forNames_iff]

/-- Two types, the second one by way of the first. -/
def chain : Table :=
  .ofList [⟨"second", .typ, .ref "first"⟩, ⟨"first", .typ, .typ⟩]

theorem order_chain : chain.order "second" = ["first"] := by
  cbv

/-- The chain compiles: both types are accepted on their own. -/
theorem chain_compiles :
    ({} : Settings).parallel = false ∧
      ∃ c t, Returns (fun d => compile chain {} d "second") [] (.ok c t) ∧
        c.names = ["first", "second"] ∧ c.definitions.map Prod.fst = c.names := by
  obtain ⟨hsuccess, hresult, -⟩ := compile_in_turn chain {} rfl "second" []
  have haccepts : ∀ i name, (chain.order "second" ++ ["second"])[i]? = some name →
      ∃ code, Job.Accepts chain {} ⟨name, ⟨i, 0⟩⟩ code := by
    intro i name hi
    rw [order_chain] at hi
    have hname : name = "first" ∨ name = "second" := by simpa using List.mem_of_getElem? hi
    rcases hname with rfl | rfl
    · exact ⟨.nul, (Elaborator.deepens_definition _ _).returns_of_value? _ .nul 5 rfl⟩
    · exact ⟨.nul, (Elaborator.deepens_definition _ _).returns_of_value? _ .nul 5 rfl⟩
  obtain ⟨c, t, hok⟩ := hsuccess.2 ⟨rfl, haccepts⟩
  obtain ⟨hnames, -, -, hkeys, -⟩ := hresult c t hok
  rw [order_chain] at hnames
  exact ⟨rfl, c, t, hok, hnames, hkeys⟩

end Compile

end SelfTypes.Build
