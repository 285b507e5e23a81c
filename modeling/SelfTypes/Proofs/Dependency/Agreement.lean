import SelfTypes.Proofs.Dependency.Precedence

/-!
# Tables with the same dependencies

The search for dependencies looks at nothing of a definition but what its body refers to. So it
takes the same steps in two tables that agree on that, for all the names that it can come to. Main
statement: `SameDependencies.order_eq`.
-/

namespace SelfTypes.Table

/-- In both tables, the same names of a set are defined, and their bodies refer to the same names in
places with content, which are in the set too. -/
structure SameDependencies (known : DefName → Prop) (t t' : Table) : Prop where
  find? : ∀ n, known n →
    (t.find? n).map (·.body.dependencies) = (t'.find? n).map (·.body.dependencies)
  closed : ∀ n d m, known n → t.find? n = some d → m ∈ d.body.dependencies → known m

namespace SameDependencies

variable {known : DefName → Prop} {t t' : Table} {entry n : DefName}

theorem find?_eq_none (h : t.SameDependencies known t') (hn : known n) (hd : t.find? n = none) :
    t'.find? n = none := by
  have hfind := h.find? n hn
  rw [hd] at hfind
  exact Option.map_eq_none_iff.1 hfind.symm

theorem exists_find? (h : t.SameDependencies known t') (hn : known n) {d : Definition}
    (hd : t.find? n = some d) :
    ∃ d', t'.find? n = some d' ∧ d'.body.dependencies = d.body.dependencies := by
  have hfind := h.find? n hn
  rw [hd] at hfind
  exact Option.map_eq_some_iff.1 hfind.symm

theorem known_of_reaches (h : t.SameDependencies known t') (hentry : known entry)
    (hreach : t.Reaches entry n) : known n := by
  induction hreach with
  | refl => exact hentry
  | tail _ href ih =>
    obtain ⟨d, hd, hm⟩ := href
    exact h.closed _ d _ ih hd hm

theorem known_of_mem_order_append (h : t.SameDependencies known t') (hentry : known entry)
    (hn : n ∈ t.order entry ++ [entry]) : known n := by
  rcases List.mem_append.1 hn with hn | hn
  · exact h.known_of_reaches hentry (reaches_of_mem_order hn).1
  · rw [List.mem_singleton.1 hn]
    exact hentry

/-- A search for names in the set takes the same steps in both tables. -/
theorem explore_eq (h : t.SameDependencies known t') {steps : List Step}
    {visited listed : List DefName} (hsteps : ∀ s ∈ steps, known s.name) :
    t.explore steps visited listed = t'.explore steps visited listed := by
  fun_induction explore t steps visited listed with
  | case1 visited listed => rw [explore]
  | case2 visited listed n rest ih =>
    rw [explore]
    exact ih fun s hs => hsteps s (List.mem_cons_of_mem _ hs)
  -- a name that was visited is passed over on both sides
  | case3 visited listed n rest hv ih =>
    rw [explore, dif_pos hv]
    exact ih fun s hs => hsteps s (List.mem_cons_of_mem _ hs)
  | case4 visited listed n rest hv hd ih =>
    -- a name without a definition in one table has none in the other
    have hn : known n := hsteps _ List.mem_cons_self
    have hd₀ := h.find?_eq_none hn hd
    rw [explore, dif_neg hv]
    split
    · exact ih fun s hs => hsteps s (List.mem_cons_of_mem _ hs)
    · rename_i d hd'
      rw [hd₀] at hd'
      cases hd'
  | case5 visited listed n rest hv d hd hlt ih =>
    have hn : known n := hsteps _ List.mem_cons_self
    obtain ⟨d₀, hd₀, hdeps⟩ := h.exists_find? hn hd
    rw [explore, dif_neg hv]
    split
    · rename_i hd'
      rw [hd₀] at hd'
      cases hd'
    · rename_i d' hd'
      rw [hd₀] at hd'
      cases hd'
      rw [hdeps]
      refine ih fun s hs => ?_
      -- the search goes on with what the body refers to
      rcases List.mem_append.1 hs with hs | hs
      · obtain ⟨m, hm, rfl⟩ := List.mem_map.1 hs
        exact h.closed n d m hn hd hm
      · rcases List.mem_cons.1 hs with rfl | hs
        · exact hn
        · exact hsteps s (List.mem_cons_of_mem _ hs)

/-- The dependency order of a name in the set is the same in both tables. -/
theorem order_eq (h : t.SameDependencies known t') (hentry : known entry) :
    t.order entry = t'.order entry := by
  unfold order
  cases hd : t.find? entry with
  | none => rw [h.find?_eq_none hentry hd]
  | some d =>
    obtain ⟨d', hd', hdeps⟩ := h.exists_find? hentry hd
    rw [hd']
    simp only [hdeps]
    refine h.explore_eq fun s hs => ?_
    obtain ⟨m, hm, rfl⟩ := List.mem_map.1 hs
    exact h.closed entry d m hentry hd hm

theorem contains_eq (h : t.SameDependencies known t') (hentry : known entry) :
    t.contains entry = t'.contains entry := by
  have hnone : t.find? entry = none ↔ t'.find? entry = none := by
    rw [← Option.map_eq_none_iff (f := fun d : Definition => d.body.dependencies),
      h.find? entry hentry, Option.map_eq_none_iff]
  rw [find?_eq_none_iff, find?_eq_none_iff, not_iff_not] at hnone
  rw [Bool.eq_iff_iff]
  simpa only [contains, List.contains_iff_mem] using hnone

end SameDependencies

end SelfTypes.Table
