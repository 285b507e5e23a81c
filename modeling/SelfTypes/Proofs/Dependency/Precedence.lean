import SelfTypes.Proofs.Dependency.Order
import SelfTypes.Proofs.Term.Path

/-!
# Precedence in the dependency order

`order_settled` looks at one reference between listed definitions. Here it is followed along chains
of references: where these have no cycle, a listed definition comes after all that it refers to,
directly or not. References are given by paths into bodies, which the search knows nothing of. Main
statement: `precedes_up_to_cycles`.
-/

namespace SelfTypes.Table

variable {t : Table} {entry n m : DefName}

theorem Refers.mem_names (h : t.Refers n m) : n ∈ t.names := by
  obtain ⟨d, hd, -⟩ := h
  exact mem_names_of_find? hd

/-! ## References as paths -/

/-- A path through the body of the first definition, past places with content only, ends at a
reference to the second. -/
def Leads (t : Table) (n m : DefName) : Prop :=
  ∃ d p, t.find? n = some d ∧ d.body.follow p = some (.ref m)

theorem leads_iff_refers : t.Leads n m ↔ t.Refers n m := by
  constructor
  · rintro ⟨d, p, hd, hp⟩
    exact ⟨d, hd, Term.mem_dependencies_iff.2 ⟨p, hp⟩⟩
  · rintro ⟨d, hd, hm⟩
    obtain ⟨p, hp⟩ := Term.mem_dependencies_iff.1 hm
    exact ⟨d, p, hd, hp⟩

theorem leads_eq_refers (t : Table) : t.Leads = t.Refers := by
  funext n m
  exact propext leads_iff_refers

/-! ## What is listed -/

/-- What is listed is defined, and is what the steps led to. -/
theorem forall_mem_explore {P : DefName → Prop} (hP : ∀ n m, P n → t.Refers n m → P m)
    {steps : List Step} {visited listed : List DefName} (hsteps : ∀ s ∈ steps, P s.name)
    (hleave : ∀ n, .leave n ∈ steps → n ∈ t.names) (hlisted : ∀ n ∈ listed, P n ∧ n ∈ t.names) :
    ∀ n ∈ t.explore steps visited listed, P n ∧ n ∈ t.names := by
  fun_induction explore t steps visited listed with
  | case1 visited listed => simpa using hlisted
  | case2 visited listed n rest ih =>
    obtain ⟨hn, hrest⟩ := List.forall_mem_cons.1 hsteps
    have hdefined : n ∈ t.names := hleave n List.mem_cons_self
    exact ih hrest (fun m hm => hleave m (List.mem_cons_of_mem _ hm))
      (List.forall_mem_cons.2 ⟨⟨hn, hdefined⟩, hlisted⟩)
  | case3 visited listed n rest hv ih | case4 visited listed n rest hv hd ih =>
    obtain ⟨-, hrest⟩ := List.forall_mem_cons.1 hsteps
    exact ih hrest (fun m hm => hleave m (List.mem_cons_of_mem _ hm)) hlisted
  | case5 visited listed n rest hv d hd hlt ih =>
    obtain ⟨hn, hrest⟩ := List.forall_mem_cons.1 hsteps
    -- the new steps search what `n` refers to, and end with `n` itself
    refine ih ?_ ?_ hlisted
    · intro s hs
      rcases List.mem_append.1 hs with hs | hs
      · obtain ⟨m, hm, rfl⟩ := List.mem_map.1 hs
        exact hP n m hn ⟨d, hd, hm⟩
      · rcases List.mem_cons.1 hs with rfl | hs
        · exact hn
        · exact hrest s hs
    · intro m hm
      rcases List.mem_append.1 hm with hm | hm
      · simp at hm
      · rcases List.mem_cons.1 hm with heq | hm
        · cases heq
          exact mem_names_of_find? hd
        · exact hleave m (List.mem_cons_of_mem _ hm)

/-- The dependencies of a definition are defined, and references lead to them. -/
theorem reaches_of_mem_order (h : n ∈ t.order entry) : t.Reaches entry n ∧ n ∈ t.names := by
  unfold order at h
  split at h
  · cases h
  · rename_i d hd
    refine forall_mem_explore (P := t.Reaches entry) (fun _ _ => .tail) ?_ ?_ ?_ n h
    · intro s hs
      obtain ⟨m, hm, rfl⟩ := List.mem_map.1 hs
      exact .single ⟨d, hd, hm⟩
    · simp
    · simp

theorem mem_names_of_mem_order (h : n ∈ t.order entry) : entry ∈ t.names := by
  by_contra hentry
  simp [order, find?_eq_none_iff.2 hentry] at h

/-! ## One reference -/

/-- What stands before a listed name is listed, where the entry stands after all of them. -/
theorem idxOf_lt_of_append {l : List DefName} (hn : n ∈ l)
    (h : (l ++ [entry]).idxOf m < (l ++ [entry]).idxOf n) : m ∈ l ∧ l.idxOf m < l.idxOf n := by
  rw [List.idxOf_append_of_mem hn] at h
  by_cases hm : m ∈ l
  · rw [List.idxOf_append_of_mem hm] at h
    exact ⟨hm, h⟩
  · have hlt := List.idxOf_lt_length_iff.2 hn
    rw [List.idxOf_append_of_notMem hm] at h
    omega

/-- A reference that does not go backwards in the order leads back to where it started. -/
theorem transGen_of_not_idxOf_lt (hn : n ∈ t.order entry) (hm : m ∈ t.order entry)
    (href : t.Refers n m) (hafter : ¬ (t.order entry).idxOf m < (t.order entry).idxOf n) :
    Relation.TransGen t.Refers m n := by
  by_contra hback
  have hne : n ≠ m := by
    rintro rfl
    exact hback (.single href)
  have hreach : ¬ t.Reaches m n := fun h =>
    (Relation.reflTransGen_iff_eq_or_transGen.1 h).elim hne hback
  obtain ⟨-, hlt⟩ := order_settled (mem_names_of_mem_order hn)
    (List.mem_append.2 (.inl hn)) (reaches_of_mem_order hm).2 href
  exact hafter (idxOf_lt_of_append hn (hlt hreach)).2

/-! ## Chains of references -/

/-- Where no cycle is in reach, a chain of references goes backwards in the order. -/
theorem idxOf_lt_of_transGen
    (hacyclic : ∀ n, t.Reaches entry n → ¬ Relation.TransGen t.Refers n n)
    (hn : n ∈ t.order entry) (h : Relation.TransGen t.Refers n m) (hm : m ∈ t.names) :
    m ∈ t.order entry ∧ (t.order entry).idxOf m < (t.order entry).idxOf n := by
  obtain ⟨hreach, hdefined⟩ := reaches_of_mem_order hn
  induction h with
  | single href =>
    obtain ⟨-, hlt⟩ := order_settled (mem_names_of_mem_order hn)
      (List.mem_append.2 (.inl hn)) hm href
    have hback : ¬ t.Reaches _ n := fun h => hacyclic n hreach (.head' href h)
    exact idxOf_lt_of_append hn (hlt hback)
  | @tail w m hw href ih =>
    -- the chain comes to `m` by a definition, which is listed before `n`
    obtain ⟨hwmem, hwlt⟩ := ih href.mem_names
    have hwreach := (reaches_of_mem_order hwmem).1
    obtain ⟨-, hlt⟩ := order_settled (mem_names_of_mem_order hn)
      (List.mem_append.2 (.inl hwmem)) hm href
    have hback : ¬ t.Reaches m w := fun h => hacyclic w hwreach (.head' href h)
    obtain ⟨hmem, hmlt⟩ := idxOf_lt_of_append hwmem (hlt hback)
    exact ⟨hmem, Nat.lt_trans hmlt hwlt⟩

/-- Dependencies come first, up to cycles: a listed definition comes after a listed one that it
refers to, unless references lead back from there; and where no cycle is in reach of the entry, it
comes after all the definitions that it refers to in any number of steps. -/
theorem precedes_up_to_cycles (t : Table) (entry : DefName) :
    (∀ u ∈ t.order entry, ∀ v ∈ t.order entry, t.Leads u v →
      ¬ (t.order entry).idxOf v < (t.order entry).idxOf u → Relation.TransGen t.Leads v u) ∧
    ((∀ n, Relation.ReflTransGen t.Leads entry n → ¬ Relation.TransGen t.Leads n n) →
      ∀ u ∈ t.order entry, ∀ v, Relation.TransGen t.Leads u v → v ∈ t.names →
        v ∈ t.order entry ∧ (t.order entry).idxOf v < (t.order entry).idxOf u) := by
  rw [leads_eq_refers]
  exact ⟨fun _ hu _ hv href hafter => transGen_of_not_idxOf_lt hu hv href hafter,
    fun hacyclic _ hu _ h hv => idxOf_lt_of_transGen hacyclic hu h hv⟩

/-! ## Tables without cycles -/

/-- References that only lead to names of lower rank have no cycle. -/
theorem not_transGen_self_of_rank (rank : DefName → Nat)
    (h : ∀ d ∈ t.entries, ∀ m ∈ d.body.dependencies, rank m < rank d.name) (n : DefName) :
    ¬ Relation.TransGen t.Leads n n := by
  have hstep : ∀ n m, t.Leads n m → rank n > rank m := by
    intro n m hleads
    obtain ⟨d, hd, hm⟩ := leads_iff_refers.1 hleads
    have hname : d.name = n := by simpa using List.find?_some hd
    rw [← hname]
    exact h d (List.mem_of_find?_eq_some hd) m hm
  intro hcycle
  have hlt : Relation.TransGen (· > ·) (rank n) (rank n) := hcycle.lift rank hstep
  rw [Relation.transGen_eq_self] at hlt
  exact Nat.lt_irrefl _ hlt

/-- Two definitions that refer to each other, and one that refers to them. The type of an annotation
is no reference. -/
def ring : Table :=
  .ofList
    [⟨"ping", .typ, .lam "x" false (.loc ⟨4, 9⟩ (.app (.ref "pong") (.bound 0) false))⟩,
     ⟨"pong", .typ, .letIn "y" true (.ref "ping") (.app (.bound 0) .typ true)⟩,
     ⟨"main", .typ, .ann false (.ref "ping") (.ref "main")⟩]

/-- Definitions that refer to the ones before them. Self types and the types of annotations, which
refer to the last one, do not make a cycle. -/
def ladder : Table :=
  .ofList
    [⟨"a", .typ, .all "s" "x" (.ref "main") (.ref "main")⟩,
     ⟨"bb", .typ, .lam "x" true (.loc ⟨4, 5⟩ (.ref "a"))⟩,
     ⟨"ccc", .typ, .letIn "y" false (.ref "bb")
       (.app (.bound 0) (.ann false (.ref "a") (.ref "main")) false)⟩,
     ⟨"main", .typ, .app (.ref "ccc") (.all "s" "x" (.ref "main") .typ) false⟩]

/-- In the ring, one definition is listed before the other, which it refers to; on the ladder, the
top is listed after the bottom. -/
theorem ring_and_ladder_precede :
    Relation.TransGen ring.Leads "ping" "pong" ∧
      "a" ∈ ladder.order "main" ∧
        (ladder.order "main").idxOf "a" < (ladder.order "main").idxOf "ccc" := by
  have hring : ring.order "main" = ["pong", "ping"] := by cbv
  have hladder : ladder.order "main" = ["a", "bb", "ccc"] := by cbv
  have hback : ring.Leads "pong" "ping" := ⟨_, [.value], rfl, rfl⟩
  have hacyclic : ∀ n, Relation.ReflTransGen ladder.Leads "main" n →
      ¬ Relation.TransGen ladder.Leads n n :=
    fun n _ => not_transGen_self_of_rank String.length (by decide) n
  -- the value of the top leads to the middle one, and the body of that to the bottom
  have hchain : Relation.TransGen ladder.Leads "ccc" "a" :=
    .tail (.single ⟨_, [.value], rfl, rfl⟩) ⟨_, [.body], rfl, rfl⟩
  refine ⟨?_, ?_⟩
  · exact (precedes_up_to_cycles ring "main").1 "pong" (by simp [hring]) "ping" (by simp [hring])
      hback (by simp [hring])
  · exact (precedes_up_to_cycles ladder "main").2 hacyclic "ccc" (by simp [hladder]) "a" hchain
      (by decide)

end SelfTypes.Table
