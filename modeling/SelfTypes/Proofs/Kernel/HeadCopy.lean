import SelfTypes.Proofs.Kernel.Exhaustion
import SelfTypes.Proofs.Kernel.HeadStep
import SelfTypes.Proofs.Kernel.Location
import SelfTypes.Proofs.Term.Location

/-!
# Steps at the head of copies

Where a term takes a step at its head, a copy of the term takes the same one, at the same cost. If
the likeness is loose, the copy may have locations in the way, or none where the term has some;
dropping them is a step that costs nothing. So the sequences of steps have copies of each other as
their ends and the same cost, however many steps they are put together from.

Main statement: `reduce_ignores_locations`, by which locations show neither in what a reduction
comes to nor in what it costs.
-/

namespace SelfTypes

/-- The tables have definitions of the same names, with bodies that are copies of each other. -/
def Table.CopiedBodies (L : Likeness) (ρ : VarRelation) (table table' : Table) : Prop :=
  ∀ n, L.known n →
    Option.Rel (fun d d' => d.body.Copy L ρ d'.body) (table.find? n) (table'.find? n)

section

variable {L : Likeness} {ρ : VarRelation} {table table' : Table} {c n : Nat} {t t' u w : Term}

theorem Table.CopiedBodies.symm (h : table.CopiedBodies L ρ table') :
    table'.CopiedBodies L (fun x y => ρ y x) table := by
  intro n hn
  rcases none_or_some_of_rel (h n hn) with ⟨hd, hd'⟩ | ⟨d, d', hd, hd', hcopy⟩
  · rw [hd, hd']
    exact .none
  · rw [hd, hd']
    exact .some hcopy.symm

/-- The bodies of a table without free variables are copies of themselves. -/
theorem Table.IsVarFree.copiedBodies (h : table.IsVarFree) (hL : ∀ n, L.known n)
    (ρ : VarRelation) : table.CopiedBodies L ρ table := by
  intro n _
  cases hd : table.find? n with
  | none => exact .none
  | some d =>
    refine .some (.refl ?_ fun m _ => hL m)
    simp [h.body hd]

/-! ## Steps -/

/-- The locations at the head of a term are dropped at no cost. -/
theorem HeadPath.peel (table : Table) (t : Term) : HeadPath table t 0 t.peel := by
  induction t with
  | loc span e ih => exact .step (.loc span e) ih
  | _ => exact .refl _

/-- A step that is taken after others that cost nothing. -/
theorem HeadPath.then_step (h : HeadPath table t 0 u) (hstep : HeadStep table u c w) :
    HeadPath table t c w := by
  have hpath := h.trans (.of_step hstep)
  rwa [Nat.zero_add] at hpath

/-- Without the locations at its head, a copy starts with the same node as the term. -/
theorem Term.Copy.exists_head (table' : Table) (ht : t.Copy L ρ t') :
    ∃ p, t.peel.CopyNode L ρ p ∧ HeadPath table' t' 0 p :=
  ⟨t'.peel, ht.sameNode_peel, .peel table' t'⟩

/-- A step of a term is a step of its copy, once the locations in its way are dropped. -/
theorem HeadStep.copy (htable : table.CopiedBodies L ρ table') (h : HeadStep table t c u)
    (ht : t.Copy L ρ t') : ∃ u', HeadPath table' t' c u' ∧ u.Copy L ρ u' := by
  induction h generalizing t' with
  | loc span e =>
    -- the location may be missing in the copy
    cases ht with
    | loc he => exact ⟨_, .of_step (.loc span _), he⟩
    | locLeft _ he => exact ⟨_, .refl _, he⟩
    | locRight hL he => exact ⟨_, .refl _, .locRight hL (he.of_loc_left hL)⟩
  | ann d e ty =>
    obtain ⟨p, hnode, hpath⟩ := ht.exists_head table'
    cases hnode with
    | ann he _ => exact ⟨_, hpath.then_step (.ann ..), he⟩
  | @unfold name d hname =>
    obtain ⟨p, hnode, hpath⟩ := ht.exists_head table'
    cases hnode with
    | ref hn =>
      -- both tables define the global or neither does
      rcases none_or_some_of_rel (htable name hn) with ⟨hd, -⟩ | ⟨d, d', hd, hd', hcopy⟩
      · rw [hname] at hd
        cases hd
      · rw [hname] at hd
        cases hd
        exact ⟨_, hpath.then_step (.unfold hd'), hcopy⟩
  | letIn n dup e b =>
    obtain ⟨p, hnode, hpath⟩ := ht.exists_head table'
    cases hnode with
    | letIn he hb => exact ⟨_, hpath.then_step (.letIn ..), hb.instantiate_one he⟩
  | beta n er er' a b =>
    obtain ⟨p, hnode, hpath⟩ := ht.exists_head table'
    cases hnode with
    | app hf ha =>
      -- in the copy, the function may have locations of its own
      obtain ⟨q, hnode', hpath'⟩ := hf.exists_head table'
      cases hnode' with
      | lam hb =>
        exact ⟨_, (hpath.trans (hpath'.app _ _)).then_step (.beta ..), hb.instantiate_one ha⟩
  | head a er _ ih =>
    obtain ⟨p, hnode, hpath⟩ := ht.exists_head table'
    cases hnode with
    | app hf ha =>
      obtain ⟨g, hpath', hg⟩ := ih hf
      have hrest := hpath.trans (hpath'.app _ er)
      rw [Nat.zero_add] at hrest
      exact ⟨_, hrest, .app hg ha⟩

theorem HeadPath.copy (htable : table.CopiedBodies L ρ table') (h : HeadPath table t n u)
    (ht : t.Copy L ρ t') : ∃ u', HeadPath table' t' n u' ∧ u.Copy L ρ u' := by
  induction h generalizing t' with
  | refl => exact ⟨t', .refl t', ht⟩
  | step hstep _ ih =>
    obtain ⟨u', hpath, hu⟩ := hstep.copy htable ht
    obtain ⟨v', hrest, hv⟩ := ih hu
    exact ⟨v', hpath.trans hrest, hv⟩

/-- A copy of a head normal form is one, once the locations at its head are dropped. -/
theorem HeadNormal.copy (htable : table.CopiedBodies L ρ table') (h : HeadNormal table w)
    (hw : w.Copy L ρ t') : ∃ w', HeadPath table' t' 0 w' ∧ HeadNormal table' w' ∧
      w.CopyNode L ρ w' := by
  induction h generalizing t' with
  | bound | var | typ | all | lam =>
    -- on the way to the head, the copy only drops locations, which costs nothing
    obtain ⟨p, hnode, hpath⟩ := hw.exists_head table'
    refine ⟨p, hpath, ?_, hnode⟩
    cases hnode
    constructor
  | @unknown name hname =>
    obtain ⟨p, hnode, hpath⟩ := hw.exists_head table'
    refine ⟨p, hpath, ?_, hnode⟩
    cases hnode with
    | ref hn =>
      rcases none_or_some_of_rel (htable name hn) with ⟨-, hd'⟩ | ⟨d, -, hd, -, -⟩
      · exact .unknown hd'
      · rw [hname] at hd
        cases hd
  | @app f a er _ hlam ih =>
    obtain ⟨p, hnode, hpath⟩ := hw.exists_head table'
    cases hnode with
    | app hf ha =>
      obtain ⟨g, hpath', hg, hcopy⟩ := ih hf
      -- what is stuck stays stuck, as the head of the copy has the same form
      have hlam' : g.isLam = false := by
        cases hcopy with
        | lam => cases hlam
        | _ => rfl
      exact ⟨_, hpath.trans (hpath'.app _ er), .app hg hlam', .app hcopy.copy ha⟩

/-- A sequence of steps that has come to its end has a copy that has come to its end. -/
theorem HeadPath.copy_normal (htable : table.CopiedBodies L ρ table') (h : HeadPath table t n w)
    (hw : HeadNormal table w) (ht : t.Copy L ρ t') :
    ∃ w', HeadPath table' t' n w' ∧ HeadNormal table' w' ∧ w.CopyNode L ρ w' := by
  obtain ⟨u', hpath, hu⟩ := h.copy htable ht
  obtain ⟨w', hrest, hw', hcopy⟩ := hw.copy htable hu
  exact ⟨w', hpath.trans hrest, hw', hcopy⟩

/-! ## Reduction -/

namespace Kernel

variable {k k' : Kernel}

/-- The same ending: terms that `R` relates, or one failure, with the same budget left. -/
inductive EndsAlike (R : Term → Term → Prop) :
    EStateM.Result (Halt OutOfFuel) Kernel Term → EStateM.Result (Halt OutOfFuel) Kernel Term →
      Prop where
  | ok {w w' : Term} {s s' : Kernel} :
      R w w' → s.fuel = s'.fuel → EndsAlike R (.ok w s) (.ok w' s')
  | failed {e : OutOfFuel} {s s' : Kernel} :
      s.fuel = s'.fuel → EndsAlike R (.error (.failed e) s) (.error (.failed e) s')

/-- A reduction that comes to an end does so for copies, too, and in the same way. -/
theorem reduce_of_copy (htable : table.CopiedBodies L ρ table') (ht : t.Copy L ρ t')
    (hk : k.fuel = k'.fuel) {r : EStateM.Result (Halt OutOfFuel) Kernel Term}
    (h : Returns (fun d => reduce table d t) k r) :
    ∃ r', Returns (fun d => reduce table' d t') k' r' ∧ EndsAlike (Term.CopyNode L ρ) r r' := by
  cases endsAlong_of_returns h with
  | ok hpath hw hspends =>
    obtain ⟨w', hpath', hw', hcopy⟩ := hpath.copy_normal htable hw ht
    obtain ⟨s', hreturns, hspends'⟩ := returns_of_headPath hpath' hw' (hk ▸ hspends.affords)
    exact ⟨_, hreturns, .ok hcopy (by rw [hspends.fuel, hspends'.fuel, hk])⟩
  | failed hpath hn hlimit =>
    obtain ⟨u', hpath', -⟩ := hpath.copy htable ht
    obtain ⟨limit, s', hlimit', h'⟩ := fails_of_headPath (k := k') hpath' (hk ▸ hn)
    rw [← hk, hlimit] at hlimit'
    cases hlimit'
    -- both runs have spent the limit
    obtain ⟨d, hd, hd'⟩ := h.exists_common_depth h'
    have hfuel := ((staysWithin_reduce table d t).fuel_of_failed hd).2
    have hfuel' := ((staysWithin_reduce table' d t').fuel_of_failed hd').2
    exact ⟨_, h', .failed (by rw [hfuel, hfuel', hk])⟩
  | unfinished => exact absurd rfl (h.1 _)

/-! ### Locations -/

/-- Tables whose bodies are the same without their locations. -/
theorem copiedBodies_of_unlocate_eq
    (h : ∀ n, (table.find? n).map (fun d => d.body.unlocate) =
      (table'.find? n).map fun d => d.body.unlocate) :
    table.CopiedBodies .upToLocations Eq table' := by
  intro n _
  have hn := h n
  generalize table.find? n = o, table'.find? n = o' at hn ⊢
  cases o <;> cases o' <;> simp only [Option.map_none, Option.map_some, reduceCtorEq] at hn
  · exact .none
  · exact .some (.of_unlocate_eq trivial (fun _ => trivial) (Option.some.inj hn))

/-- Locations do not show in a reduction: in tables whose bodies are the same without their
locations, terms that are the same without theirs are reduced in the same way under every budget.
Both reductions go on for ever, which takes an unlimited budget, or both run out of fuel, or both
come to terms that are the same without their locations. They end with the same number of steps
spent. -/
theorem reduce_ignores_locations
    (htable : ∀ n, (table.find? n).map (fun d => d.body.unlocate) =
      (table'.find? n).map fun d => d.body.unlocate)
    (ht : t.unlocate = t'.unlocate) (hk : k.fuel = k'.fuel) :
    (k.fuel.limit = none ∧ ¬ Terminates (fun d => reduce table d t) k ∧
      ¬ Terminates (fun d => reduce table' d t') k') ∨
    (∃ e s s', Returns (fun d => reduce table d t) k (.error (.failed e) s) ∧
      Returns (fun d => reduce table' d t') k' (.error (.failed e) s') ∧ s.spent = s'.spent) ∨
    ∃ w w' s s', Returns (fun d => reduce table d t) k (.ok w s) ∧
      Returns (fun d => reduce table' d t') k' (.ok w' s') ∧
      w.unlocate = w'.unlocate ∧ s.spent = s'.spent := by
  have hbodies := copiedBodies_of_unlocate_eq htable
  have hcopy : t.Copy .upToLocations Eq t' := .of_unlocate_eq trivial (fun _ => trivial) ht
  by_cases h : Terminates (fun d => reduce table d t) k
  · obtain ⟨r, hr⟩ := h
    obtain ⟨r', hr', halike⟩ := reduce_of_copy hbodies hcopy hk hr
    cases halike with
    | ok hw hfuel =>
      exact .inr (.inr ⟨_, _, _, _, hr, hr', hw.copy.unlocate_eq id, congrArg Fuel.used hfuel⟩)
    | failed hfuel => exact .inr (.inl ⟨_, _, _, hr, hr', congrArg Fuel.used hfuel⟩)
  · refine .inl ⟨?_, h, ?_⟩
    · cases hlimit : k.fuel.limit with
      | none => rfl
      | some limit => exact absurd (terminates_reduce table (.of_limit hlimit) t) h
    · -- the other reduction would end this one
      rintro ⟨r', hr'⟩
      obtain ⟨r, hr, -⟩ := reduce_of_copy hbodies.symm hcopy.symm hk.symm hr'
      exact h ⟨r, hr⟩

/-- Identity, with locations in its body. -/
def locatedIdentity : Table :=
  .ofList [⟨"id", .typ, .loc ⟨0, 9⟩ (.lam "x" false (.loc ⟨4, 5⟩ (.bound 0)))⟩]

/-- Identity, without locations. -/
def plainIdentity : Table :=
  .ofList [⟨"id", .typ, .lam "x" false (.bound 0)⟩]

/-- Two steps are enough for identity, with and without locations. -/
theorem identity_ignores_locations :
    ∃ w s, Returns (fun d => reduce plainIdentity d (.app (.ref "id") (.loc ⟨7, 8⟩ .typ) false))
      (.start ⟨0, 0⟩ (some 2)) (.ok w s) ∧ w.unlocate = .typ ∧ s.spent = 2 := by
  have htable : ∀ n, (locatedIdentity.find? n).map (fun d => d.body.unlocate) =
      (plainIdentity.find? n).map fun d => d.body.unlocate := by
    intro n
    by_cases hn : "id" = n
    · subst hn
      rfl
    · simp [Table.find?, locatedIdentity, plainIdentity, Table.ofList, Table.insert,
        Table.insertEntry, Table.empty, hn]
  let k : Kernel := .start ⟨0, 0⟩ (some 2)
  have hlocated : Returns (fun d => reduce locatedIdentity d
      (.loc ⟨0, 8⟩ (.app (.loc ⟨0, 2⟩ (.ref "id")) .typ false))) k
      (.ok .typ { k with fuel := ⟨some 2, 2⟩, trace := [.unfolding "id"] }) :=
    (deepens_reduce _ _).returns 9 (isAnswer_ok _ _)
  have ht : (Term.loc ⟨0, 8⟩ (.app (.loc ⟨0, 2⟩ (.ref "id")) .typ false)).unlocate =
      (Term.app (.ref "id") (.loc ⟨7, 8⟩ .typ) false).unlocate := rfl
  have hk : k.fuel = k.fuel := rfl
  rcases reduce_ignores_locations htable ht hk with
    ⟨-, hnot, -⟩ | ⟨e, s, s', hfailed, -⟩ | ⟨w, w', s, s', hok, hok', hw, hspent⟩
  · exact absurd ⟨_, hlocated⟩ hnot
  · cases hlocated.unique hfailed
  · cases hlocated.unique hok
    exact ⟨w', s', hok', hw.symm, hspent.symm⟩

end Kernel

end

end SelfTypes
