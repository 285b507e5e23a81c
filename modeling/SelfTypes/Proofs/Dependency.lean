import SelfTypes.Dependency

/-!
# The dependency order has no repetitions

A name is visited before its body is searched, and only names that were not visited before are
searched. So the names that are listed and those whose search is under way are all different, and
they differ from the definition that the search is for.
-/

namespace SelfTypes.Table

/-- The names whose bodies are being searched, given the steps that are left. -/
def underWay : List Step → List DefName
  | [] => []
  | .enter _ :: rest => underWay rest
  | .leave n :: rest => n :: underWay rest

theorem underWay_map_enter_append (names : List DefName) (steps : List Step) :
    underWay (names.map .enter ++ steps) = underWay steps := by
  induction names with
  | nil => rfl
  | cons n names ih => exact ih

/-- The names are all different, and visited. -/
structure Marked (names visited : List DefName) : Prop where
  nodup : names.Nodup
  visited : ∀ n ∈ names, n ∈ visited

namespace Marked

variable {names names' visited : List DefName}

theorem perm (h : Marked names visited) (hperm : names.Perm names') : Marked names' visited where
  nodup := hperm.nodup_iff.1 h.nodup
  visited n hn := h.visited n (hperm.mem_iff.2 hn)

/-- A name that was not visited before is different from all that were. -/
theorem cons (h : Marked names visited) {n : DefName} (hn : n ∉ visited) :
    Marked (n :: names) (n :: visited) where
  nodup := List.nodup_cons.2 ⟨fun hmem => hn (h.visited n hmem), h.nodup⟩
  visited m hm := by
    rcases List.mem_cons.1 hm with rfl | hm
    · exact List.mem_cons_self
    · exact List.mem_cons_of_mem n (h.visited m hm)

end Marked

theorem nodup_explore (t : Table) (entry : DefName) (steps : List Step)
    (visited listed : List DefName) (h : Marked (entry :: (underWay steps ++ listed)) visited) :
    (entry :: t.explore steps visited listed).Nodup := by
  fun_induction explore t steps visited listed with
  | case1 visited listed =>
    exact (h.perm ((List.reverse_perm listed).symm.cons entry)).nodup
  | case2 visited listed n rest ih =>
    -- the search of `n` is over, and `n` is listed instead
    exact ih (h.perm (List.perm_middle.symm.cons entry))
  | case3 visited listed n rest hv ih => exact ih h
  | case4 visited listed n rest hv hd ih => exact ih h
  | case5 visited listed n rest hv d hd hlt ih =>
    -- `n` is visited for the first time, so it is none of the names so far
    refine ih ((h.cons hv).perm ?_)
    rw [underWay_map_enter_append]
    exact List.Perm.swap entry n _

/-- The dependencies of a definition are listed once each, and the definition is not one of its
own. -/
theorem nodup_order_append (t : Table) (entry : DefName) : (t.order entry ++ [entry]).Nodup := by
  have h : (entry :: t.order entry).Nodup := by
    unfold order
    cases t.find? entry with
    | none => simp
    | some d =>
      have hnone : underWay (d.body.dependencies.map .enter) = [] := by
        simpa [underWay] using underWay_map_enter_append d.body.dependencies []
      refine nodup_explore t entry _ [entry] [] ?_
      rw [hnone]
      exact ⟨by simp, fun n hn => hn⟩
  exact (List.perm_append_singleton entry _).nodup_iff.2 h

end SelfTypes.Table
