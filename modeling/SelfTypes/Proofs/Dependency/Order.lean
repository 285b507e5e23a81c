import Mathlib.Data.List.Basic
import Mathlib.Logic.Relation
import SelfTypes.Proofs.Dependency

/-!
# Dependencies come first, up to cycles

A definition is listed when the search of its body is over. By then all that its body refers to has
been visited: it is listed already, or its search is still under way, and then it is one of the
definitions by which the search came to the body. So a definition comes after what it refers to,
unless that leads back to it. Main statement: `order_settled`.
-/

namespace SelfTypes.Table

/-! ## References -/

/-- The body of the first definition refers to the second name in a place with content. -/
def Refers (t : Table) (n m : DefName) : Prop :=
  ∃ d, t.find? n = some d ∧ m ∈ d.body.dependencies

/-- References lead from the first name to the second, in any number of steps. -/
def Reaches (t : Table) : DefName → DefName → Prop :=
  Relation.ReflTransGen t.Refers

theorem find?_eq_none_iff {t : Table} {n : DefName} : t.find? n = none ↔ n ∉ t.names := by
  simp only [find?, names, List.find?_eq_none, List.mem_map, beq_iff_eq, not_exists, not_and]

/-! ## What the search keeps -/

/-- The definition that a step is about. -/
def Step.name : Step → DefName
  | enter n => n
  | leave n => n

/-- In a list with the latest name first, what a definition refers to was listed before it, or leads
back to it. -/
def Settled (t : Table) : List DefName → Prop
  | [] => True
  | n :: earlier =>
    (∀ m ∈ t.names, t.Refers n m → m ∈ earlier ∨ t.Reaches m n) ∧ t.Settled earlier

/-- A state of the search in which all that was visited has been listed or is under way, a search
that is under way has led to all the steps before its end, and these take care of all that is still
to be visited for it. -/
structure Orderly (t : Table) (steps : List Step) (visited listed : List DefName) : Prop where
  accounted : ∀ n ∈ visited, n ∈ underWay steps ∨ n ∈ listed
  leads : ∀ pre n post, steps = pre ++ .leave n :: post → ∀ s ∈ pre, t.Reaches n s.name
  covered : ∀ pre n post, steps = pre ++ .leave n :: post →
    ∀ m ∈ t.names, t.Refers n m → m ∈ visited ∨ .enter m ∈ pre
  complete : ∀ n ∈ listed, ∀ m ∈ t.names, t.Refers n m → m ∈ visited
  settled : t.Settled listed

theorem exists_leave_of_mem_underWay {n : DefName} {steps : List Step} (h : n ∈ underWay steps) :
    ∃ pre post, steps = pre ++ .leave n :: post := by
  induction steps with
  | nil => cases h
  | cons s steps ih =>
    cases s with
    | enter m =>
      obtain ⟨pre, post, rfl⟩ := ih h
      exact ⟨.enter m :: pre, post, rfl⟩
    | leave m =>
      rcases List.mem_cons.1 h with rfl | h
      -- the search that is under way is the latest one or one of those below it
      · exact ⟨[], steps, rfl⟩
      · obtain ⟨pre, post, rfl⟩ := ih h
        exact ⟨.leave m :: pre, post, rfl⟩

/-- The end of a search does not stand among names to enter. -/
theorem split_map_enter_append {names : List DefName} {steps pre post : List Step} {m : DefName}
    (h : names.map .enter ++ steps = pre ++ .leave m :: post) :
    ∃ pre', pre = names.map .enter ++ pre' ∧ steps = pre' ++ .leave m :: post := by
  induction names generalizing pre with
  | nil => exact ⟨pre, rfl, h⟩
  | cons n names ih =>
    -- the names are only entered, so the end of a search is not among them
    cases pre with
    | nil => cases h
    | cons s pre =>
      obtain ⟨hs, h⟩ := List.cons.inj h
      obtain ⟨pre', rfl, hsteps⟩ := ih h
      exact ⟨pre', by rw [← hs]; rfl, hsteps⟩

/-- A search for one definition starts in an orderly state. -/
theorem orderly_start (t : Table) (entry : DefName) : t.Orderly [.enter entry] [] [] where
  accounted n hn := by cases hn
  leads pre n post heq := by simp [List.cons_eq_append_iff] at heq
  covered pre n post heq := by simp [List.cons_eq_append_iff] at heq
  complete n hn := by cases hn
  settled := trivial

namespace Orderly

variable {t : Table} {n : DefName} {rest : List Step} {visited listed : List DefName}

/-- The end of a search. -/
theorem leave (h : t.Orderly (.leave n :: rest) visited listed) :
    t.Orderly rest visited (n :: listed) where
  accounted m hm := by
    rcases h.accounted m hm with hunder | hlisted
    · rcases List.mem_cons.1 hunder with rfl | hunder
      · exact .inr List.mem_cons_self
      · exact .inl hunder
    · exact .inr (List.mem_cons_of_mem n hlisted)
  leads pre m post heq s hs :=
    -- the step that was taken is put back in front of the split, to use what held before
    h.leads (.leave n :: pre) m post (by rw [heq]; rfl) s (List.mem_cons_of_mem _ hs)
  covered pre m post heq u hu href := by
    rcases h.covered (.leave n :: pre) m post (by rw [heq]; rfl) u hu href with hv | hpre
    · exact .inl hv
    · rcases List.mem_cons.1 hpre with hstep | hpre
      · cases hstep
      · exact .inr hpre
  complete m hm u hu href := by
    rcases List.mem_cons.1 hm with rfl | hm
    · -- nothing stands before the end of the search, so all has been visited
      exact (h.covered [] m rest rfl u hu href).resolve_right (List.not_mem_nil)
    · exact h.complete m hm u hu href
  settled := by
    -- of the name that is listed now: everything it refers to is listed, or led to it
    refine ⟨fun m hm href => ?_, h.settled⟩
    have hvisited := (h.covered [] n rest rfl m hm href).resolve_right List.not_mem_nil
    rcases h.accounted m hvisited with hunder | hlisted
    · right
      rcases List.mem_cons.1 hunder with rfl | hunder
      · exact .refl
      · -- the search of `m` is under way, so it is what led to `n`
        obtain ⟨pre, post, heq⟩ := exists_leave_of_mem_underWay hunder
        exact h.leads (.leave n :: pre) m post (by rw [heq]; rfl) (.leave n) List.mem_cons_self
    · exact .inl hlisted

/-- A name with nothing to be done for. -/
theorem skip (h : t.Orderly (.enter n :: rest) visited listed)
    (hn : n ∈ t.names → n ∈ visited) : t.Orderly rest visited listed where
  accounted := h.accounted
  leads pre m post heq s hs :=
    h.leads (.enter n :: pre) m post (by rw [heq]; rfl) s (List.mem_cons_of_mem _ hs)
  covered pre m post heq u hu href := by
    rcases h.covered (.enter n :: pre) m post (by rw [heq]; rfl) u hu href with hv | hpre
    -- the skipped name was visited already or is not in the table
    · exact .inl hv
    · rcases List.mem_cons.1 hpre with hstep | hpre
      · cases hstep
        exact .inl (hn hu)
      · exact .inr hpre
  complete := h.complete
  settled := h.settled

/-- The start of a search: the references of the body are searched first. -/
theorem enter {d : Definition} (h : t.Orderly (.enter n :: rest) visited listed)
    (hd : t.find? n = some d) :
    t.Orderly (d.body.dependencies.map .enter ++ .leave n :: rest) (n :: visited) listed := by
  -- the ends of searches in the new steps: that of `n`, and those that were there before
  have hsplit : ∀ pre m post,
      d.body.dependencies.map .enter ++ .leave n :: rest = pre ++ .leave m :: post →
      (m = n ∧ pre = d.body.dependencies.map .enter) ∨
        ∃ pre', rest = pre' ++ .leave m :: post ∧
          pre = d.body.dependencies.map .enter ++ .leave n :: pre' := by
    intro pre m post heq
    obtain ⟨pre', rfl, hrest⟩ := split_map_enter_append heq
    cases pre' with
    | nil =>
      cases hrest
      exact .inl ⟨rfl, List.append_nil _⟩
    | cons s pre' =>
      cases hrest
      exact .inr ⟨pre', rfl, rfl⟩
  have href : ∀ s ∈ d.body.dependencies.map Step.enter, t.Refers n s.name := by
    intro s hs
    obtain ⟨m, hm, rfl⟩ := List.mem_map.1 hs
    exact ⟨d, hd, hm⟩
  -- each of the invariants is moved past the new steps
  refine ⟨?_, ?_, ?_, ?_, h.settled⟩
  · intro m hm
    rw [underWay_map_enter_append]
    rcases List.mem_cons.1 hm with rfl | hm
    · exact .inl List.mem_cons_self
    · exact (h.accounted m hm).imp_left (List.mem_cons_of_mem n)
  · intro pre m post heq s hs
    -- a search that ends in the new steps is that of `n`, and otherwise one that was there before
    rcases hsplit pre m post heq with ⟨rfl, rfl⟩ | ⟨pre', hrest, rfl⟩
    · exact .single (href s hs)
    · have hold := h.leads (.enter n :: pre') m post (by rw [hrest]; rfl)
      have hn : t.Reaches m n := hold (.enter n) List.mem_cons_self
      rcases List.mem_append.1 hs with hs | hs
      · exact hn.tail (href s hs)
      · rcases List.mem_cons.1 hs with rfl | hs
        · exact hn
        · exact hold s (List.mem_cons_of_mem _ hs)
  · intro pre m post heq u hu hmu
    rcases hsplit pre m post heq with ⟨rfl, rfl⟩ | ⟨pre', hrest, rfl⟩
    · obtain ⟨d', hd', hmem⟩ := hmu
      rw [hd] at hd'
      cases hd'
      -- the dependencies of `n` are all entered before its search ends
      exact .inr (List.mem_map_of_mem hmem)
    · rcases h.covered (.enter n :: pre') m post (by rw [hrest]; rfl) u hu hmu with hv | hpre
      · exact .inl (List.mem_cons_of_mem n hv)
      · rcases List.mem_cons.1 hpre with hstep | hpre
        · cases hstep
          exact .inl List.mem_cons_self
        · exact .inr (List.mem_append.2 (.inr (List.mem_cons_of_mem _ hpre)))
  · intro m hm u hu hmu
    exact List.mem_cons_of_mem n (h.complete m hm u hu hmu)

/-- At the end of the search, what was visited is listed. -/
theorem mem_of_nil (h : t.Orderly [] visited listed) (hn : n ∈ visited) : n ∈ listed :=
  (h.accounted n hn).resolve_left List.not_mem_nil

end Orderly

/-! ## Results -/

/-- The result of a search from an orderly state lists all that the listed definitions refer to,
and in an orderly way. -/
theorem settled_explore {t : Table} {steps : List Step} {visited listed : List DefName}
    (h : t.Orderly steps visited listed) :
    t.Settled (t.explore steps visited listed).reverse ∧
      ∀ n ∈ t.explore steps visited listed, ∀ m ∈ t.names, t.Refers n m →
        m ∈ t.explore steps visited listed := by
  fun_induction explore t steps visited listed with
  | case1 visited listed =>
    rw [List.reverse_reverse]
    simp only [List.mem_reverse]
    exact ⟨h.settled, fun n hn m hm href => h.mem_of_nil (h.complete n hn m hm href)⟩
  | case2 visited listed n rest ih => exact ih h.leave
  | case3 visited listed n rest hv ih => exact ih (h.skip fun _ => hv)
  | case4 visited listed n rest hv hd ih =>
    -- a name that is not defined is none of the table
    exact ih (h.skip fun hn => absurd hn (find?_eq_none_iff.1 hd))
  | case5 visited listed n rest hv d hd hlt ih => exact ih (h.enter hd)

/-- In the order of listing, a definition comes after what it refers to, unless that leads back to
it. -/
theorem Settled.idxOf_lt {t : Table} {listed : List DefName} (h : t.Settled listed)
    (hnodup : listed.Nodup) {n m : DefName} (hn : n ∈ listed) (hm : m ∈ t.names)
    (href : t.Refers n m) (hreach : ¬ t.Reaches m n) :
    listed.reverse.idxOf m < listed.reverse.idxOf n := by
  induction listed with
  | nil => cases hn
  | cons latest listed ih =>
    obtain ⟨hlatest, hrest⟩ := h
    obtain ⟨hnotMem, hnodup⟩ := List.nodup_cons.1 hnodup
    rw [List.reverse_cons]
    rcases List.mem_cons.1 hn with rfl | hn
    · -- the latest name comes after all others
      have hmem : m ∈ listed.reverse :=
        List.mem_reverse.2 ((hlatest m hm href).resolve_right hreach)
      rw [List.idxOf_append_of_mem hmem,
        List.idxOf_append_of_notMem fun h => hnotMem (List.mem_reverse.1 h)]
      exact Nat.lt_of_lt_of_le (List.idxOf_lt_length_iff.2 hmem) (Nat.le_add_right _ _)
    -- the position of an earlier name does not depend on those that come later
    · have hlt := ih hrest hnodup hn
      have hn' : n ∈ listed.reverse := List.mem_reverse.2 hn
      have hmem : m ∈ listed.reverse :=
        List.idxOf_lt_length_iff.1 (Nat.lt_trans hlt (List.idxOf_lt_length_iff.2 hn'))
      rwa [List.idxOf_append_of_mem hn', List.idxOf_append_of_mem hmem]

/-- Listing one more definition after all other steps puts it at the end. -/
theorem explore_append_leave (t : Table) (entry : DefName) (steps : List Step)
    (visited listed : List DefName) :
    t.explore (steps ++ [.leave entry]) visited listed =
      t.explore steps visited listed ++ [entry] := by
  fun_induction explore t steps visited listed with
  | case1 visited listed => simp only [List.nil_append, explore, List.reverse_cons]
  | case2 visited listed n rest ih => simpa only [List.cons_append, explore] using ih
  | case3 visited listed n rest hv ih =>
    rw [List.cons_append, explore, dif_pos hv]
    exact ih
  | case4 visited listed n rest hv hd ih =>
    rw [List.cons_append, explore, dif_neg hv]
    split
    · exact ih
    · rename_i d hd'
      rw [hd] at hd'
      cases hd'
  | case5 visited listed n rest hv d hd hlt ih =>
    rw [List.cons_append, explore, dif_neg hv]
    split
    · rename_i hd'
      rw [hd] at hd'
      cases hd'
    · rename_i d' hd'
      rw [hd] at hd'
      cases hd'
      rwa [List.append_assoc] at ih

/-- The dependencies of a definition, together with the definition itself, are closed under
references, and each comes after what it refers to, unless that leads back to it. -/
theorem order_settled {t : Table} {entry n m : DefName}
    (hentry : entry ∈ t.names) (hn : n ∈ t.order entry ++ [entry]) (hm : m ∈ t.names)
    (href : t.Refers n m) :
    m ∈ t.order entry ++ [entry] ∧
      (¬ t.Reaches m n →
        (t.order entry ++ [entry]).idxOf m < (t.order entry ++ [entry]).idxOf n) := by
  have hnodup := t.nodup_order_append entry
  obtain ⟨d, hd⟩ := Option.ne_none_iff_exists'.1 fun h => find?_eq_none_iff.1 h hentry
  -- the entry is searched like any other definition, but its own end is left out
  have horder : t.order entry ++ [entry] =
      t.explore (d.body.dependencies.map .enter ++ [.leave entry]) [entry] [] := by
    rw [explore_append_leave, order, hd]
  obtain ⟨hsettled, hcomplete⟩ := settled_explore ((orderly_start t entry).enter hd)
  rw [← horder] at hsettled hcomplete
  refine ⟨hcomplete n hn m hm href, fun hreach => ?_⟩
  have hlt := hsettled.idxOf_lt ((List.reverse_perm _).nodup_iff.2 hnodup) (List.mem_reverse.2 hn)
    hm href hreach
  rwa [List.reverse_reverse] at hlt

end SelfTypes.Table
