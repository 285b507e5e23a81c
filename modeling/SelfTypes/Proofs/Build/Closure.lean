import SelfTypes.Proofs.Build.Sequential
import SelfTypes.Proofs.Dependency.Order
import SelfTypes.Proofs.Elaboration.References

/-!
# What a build gives is closed under references

The sorter and the elaborator go through a table on their own. They agree: the code of a definition
refers only to globals that the sorter has followed from its body, so all of them have code as well,
and it stands before that of the definition, unless references lead back. Main statement:
`compiled_references_precede`.
-/

namespace SelfTypes.Build

/-! ## Builds that succeed -/

section Jobs

variable {table : Table} {settings : Settings} {depth : Nat}

theorem accepts_of_run {job : Job} {code : Code} {trace t : Trace}
    (h : job.run table settings depth trace = .ok code t) : job.Accepts table settings code := by
  have hreturns := (Job.deepens_run table settings job).returns depth (s := trace)
  simp only [h] at hreturns
  exact Job.returns_run_ok_iff.1 ⟨t, hreturns (isAnswer_ok code t)⟩

/-- Jobs side by side of which none has failed give the code of each definition. -/
theorem forall₂_accepts_of_haltOf? {jobs : List Job}
    (h : ∀ o ∈ jobs.map fun job => job.run table settings depth [], haltOf? o = none) :
    List.Forall₂ (Job.Accepts table settings) jobs
      ((jobs.map fun job => job.run table settings depth []).filterMap codeOf?) := by
  induction jobs with
  | nil => exact .nil
  | cons job jobs ih =>
    rw [List.map_cons, List.forall_mem_cons] at h
    obtain ⟨hjob, hjobs⟩ := h
    -- no job has halted, as a halt would be among the outcomes
    cases hrun : job.run table settings depth [] with
    | error halt t =>
      rw [hrun] at hjob
      cases hjob
    | ok code t =>
      have hcodes : ((job :: jobs).map fun job => job.run table settings depth []).filterMap
          codeOf? =
          code :: (jobs.map fun job => job.run table settings depth []).filterMap codeOf? := by
        rw [List.map_cons, hrun]
        rfl
      rw [hcodes]
      exact .cons (accepts_of_run hrun) (ih hjobs)

/-- Jobs that all succeed, in turn or side by side, give the code of each definition. -/
theorem forall₂_accepts_of_runJobs {arrival : Arrival}
    (harrival : ∀ outcomes, (arrival outcomes).Perm outcomes) {jobs : List Job}
    {codes : List Code} {trace t : Trace}
    (h : runJobs arrival table settings depth jobs trace = .ok codes t) :
    List.Forall₂ (Job.Accepts table settings) jobs codes := by
  unfold runJobs at h
  -- several jobs at once, or one after the other
  split at h
  · simp only [runTogether] at h
    split at h
    · cases h
    · rename_i hnone
      cases h
      -- no outcome has failed, in whichever order they arrive
      refine forall₂_accepts_of_haltOf? fun o ho => ?_
      exact List.findSome?_eq_none_iff.1 hnone o ((harrival _).mem_iff.2 ho)
  · have hreturns := (deepens_runInTurn table settings jobs).returns depth (s := trace)
    simp only [h] at hreturns
    exact returns_runInTurn_ok_iff.1 ⟨t, hreturns (isAnswer_ok codes t)⟩

/-- The code at a position comes from the job at that position, which has the group of variables of
that number. -/
theorem accepts_of_runJobs {arrival : Arrival}
    (harrival : ∀ outcomes, (arrival outcomes).Perm outcomes) {names : List DefName}
    {codes : List Code} {trace t : Trace}
    (h : runJobs arrival table settings depth (Job.forNames {} names) trace = .ok codes t)
    {i : Nat} {name : DefName} {code : Code} (hname : names[i]? = some name)
    (hcode : codes[i]? = some code) : Job.Accepts table settings ⟨name, ⟨i, 0⟩⟩ code := by
  have hjob := getElem?_forNames_eq_some_iff.2 ⟨name, hname, rfl⟩
  have hzip : ((⟨name, ⟨i, 0⟩⟩ : Job), code) ∈ (Job.forNames {} names).zip codes :=
    List.mem_of_getElem? (List.getElem?_zip_eq_some.2 ⟨hjob, hcode⟩)
  exact (List.forall₂_iff_zip.1 (forall₂_accepts_of_runJobs harrival h)).2 hzip

/-- There is one code for each definition. -/
theorem length_of_runJobs {arrival : Arrival}
    (harrival : ∀ outcomes, (arrival outcomes).Perm outcomes) {names : List DefName}
    {codes : List Code} {trace t : Trace}
    (h : runJobs arrival table settings depth (Job.forNames {} names) trace = .ok codes t) :
    names.length = codes.length :=
  (length_forNames {} names).symm.trans (forall₂_accepts_of_runJobs harrival h).length_eq

end Jobs

section Compile

variable {arrival : Arrival} {table : Table} {settings : Settings} {depth : Nat}
  {entry : DefName} {trace t : Trace} {c : Compiled}

/-- What a build that succeeds gives: the definitions of a defined entry in their order, each with
the code by which a job has accepted it. -/
theorem compiled_of_ok (harrival : ∀ outcomes, (arrival outcomes).Perm outcomes)
    (h : compileArriving arrival table settings depth entry trace = .ok c t) :
    entry ∈ table.names ∧ c.names = table.order entry ++ [entry] ∧
      c.definitions.map Prod.fst = c.names ∧
      ∀ name code, (name, code) ∈ c.definitions →
        ∃ supply, Job.Accepts table settings ⟨name, supply⟩ code := by
  cases hentry : table.contains entry with
  | false =>
    rw [compileArriving_of_not_contains hentry] at h
    cases h
  | true =>
    rw [compileArriving_of_contains hentry] at h
    obtain ⟨codes, t₁, hjobs, h⟩ := EStateM.ok_of_bind_ok h
    cases h
    -- names do not repeat, so what is collected is what was paired
    have hlength := length_of_runJobs harrival hjobs
    have hdefs := definitions_collect (table.nodup_order_append entry) hlength
    refine ⟨List.contains_iff_mem.1 hentry, rfl, ?_, ?_⟩
    · rw [hdefs]
      exact List.map_fst_zip (Nat.le_of_eq hlength)
    · intro name code hmem
      rw [hdefs] at hmem
      obtain ⟨i, hi⟩ := List.mem_iff_getElem?.1 hmem
      -- the definition and its job have one position
      rw [List.getElem?_zip_eq_some] at hi
      exact ⟨⟨i, 0⟩, accepts_of_runJobs harrival hjobs hi.1 hi.2⟩

/-- The code of an accepted definition refers to what the sorter finds in its body. -/
theorem refers_of_accepts {name n : DefName} {supply : Supply} {code : Code}
    (h : Job.Accepts table settings ⟨name, supply⟩ code) (hn : n ∈ code.refs) :
    table.Refers name n ∧ n ∈ table.names := by
  obtain ⟨e, hreturns⟩ := h
  obtain ⟨depth, hdepth⟩ := hreturns.exists_depth
  obtain ⟨d, hd, hdep, hnames⟩ := Elaborator.refs_of_definition hdepth hn
  exact ⟨⟨d, hd, hdep⟩, hnames⟩

/-- The code that a build gives refers to definitions with code only, and in the order of the build
these stand before the one that refers to them, unless references lead from them back to it. -/
theorem compiled_references_precede (harrival : ∀ outcomes, (arrival outcomes).Perm outcomes)
    (h : compileArriving arrival table settings depth entry trace = .ok c t)
    {name n : DefName} {code : Code} (hcode : (name, code) ∈ c.definitions)
    (hn : n ∈ code.refs) :
    n ∈ c.definitions.map Prod.fst ∧
      (¬ table.Reaches n name → c.names.idxOf n < c.names.idxOf name) := by
  obtain ⟨hentry, hnames, hkeys, haccepts⟩ := compiled_of_ok harrival h
  have hname : name ∈ table.order entry ++ [entry] := by
    rw [← hnames, ← hkeys]
    exact List.mem_map_of_mem hcode
  obtain ⟨supply, hjob⟩ := haccepts name code hcode
  obtain ⟨hrefers, hdefined⟩ := refers_of_accepts hjob hn
  rw [hkeys, hnames]
  -- what is referred to is defined and is a dependency, which the order puts first
  exact Table.order_settled hentry hname hdefined hrefers

/-- A function on types, and another name for it. -/
def synonym : Table :=
  .ofList
    [⟨"second", .pi "x" .typ .typ, .ref "first"⟩,
     ⟨"first", .pi "x" .typ .typ, .lam "x" false (.bound 0)⟩]

theorem order_synonym : synonym.order "second" = ["first"] := by
  cbv

/-- Nothing leads from the function to its other name. -/
theorem not_reaches_synonym : ¬ synonym.Reaches "first" "second" := by
  intro h
  rcases h.cases_head with heq | ⟨n, ⟨d, hd, hn⟩, -⟩
  · simp at heq
  · -- the body of the function refers to nothing
    cases hd
    cases hn

/-- The other name compiles to a reference to the function, which comes first. -/
theorem synonym_references_precede :
    (∀ outcomes : List Outcome, (id outcomes).Perm outcomes) ∧
      ∃ c t, compileArriving id synonym {} 6 "second" [] = .ok c t ∧
        ("second", .ref "first") ∈ c.definitions ∧ "first" ∈ c.definitions.map Prod.fst ∧
        c.names.idxOf "first" < c.names.idxOf "second" := by
  have hid : ∀ outcomes : List Outcome, (id outcomes).Perm outcomes := .refl
  obtain ⟨t, h⟩ : ∃ t, compileArriving id synonym {} 6 "second" [] =
      .ok (.collect ["first", "second"] [.lam "x" .nul, .ref "first"]) t := by
    rw [compileArriving_of_contains (by decide), order_synonym]
    exact EStateM.Result.exists_ok_of_value? (by decide +kernel)
  have hcode : ("second", .ref "first") ∈
      (Compiled.collect ["first", "second"] [.lam "x" .nul, .ref "first"]).definitions := by
    decide
  obtain ⟨hmem, hbefore⟩ := compiled_references_precede hid h hcode List.mem_cons_self
  exact ⟨hid, _, t, h, hcode, hmem, hbefore not_reaches_synonym⟩

end Compile

end SelfTypes.Build
