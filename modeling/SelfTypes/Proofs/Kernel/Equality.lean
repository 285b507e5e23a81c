import SelfTypes.Proofs.Kernel.Bisimulation

/-!
# Equality decides bisimilarity

The comparison of two terms is a search for a bisimulation. Pairs of normal forms that are being
compared count as equal; what justifies that is kept as `Justified`: each such pair has parts that
the comparison accepted with the pair itself among the assumptions. So accepted pairs, over all
justified assumptions and up to renaming of variables, form a bisimulation. Conversely, no step of
the comparison can refuse a pair that some bisimulation relates.

Main statement: `equal_decides_bisimilarity`.
-/

namespace SelfTypes.Kernel

/-! ## Opening with issued variables -/

section Issued

variable {k k₁ k₂ : Kernel} {b b' : Term} {n s : BinderName} {x y : Var}

theorem freshFor_one (hb : k.Avoids b) (hb' : k.Avoids b') (hx : fresh n k = .ok x k₁) :
    FreshFor 1 b b' [x] where
  length := rfl
  nodup := by simp
  notMem z hz := by
    cases List.mem_singleton.1 hz
    exact ⟨notMem_of_fresh hx hb, notMem_of_fresh hx hb'⟩

theorem avoids_open_one (hb : k.Avoids b) (hx : fresh n k = .ok x k₁) :
    k₁.Avoids (b.instantiate ([x].map .var)) := by
  refine (hb.of_ok (progresses_fresh n) hx).instantiate fun v hv => ?_
  cases List.mem_singleton.1 hv
  exact avoids_of_fresh hx

theorem freshFor_two (hb : k.Avoids b) (hb' : k.Avoids b') (hx : fresh s k = .ok x k₁)
    (hy : fresh n k₁ = .ok y k₂) : FreshFor 2 b b' [x, y] where
  length := rfl
  nodup := by
    -- the second variable is issued by a later kernel, which avoids the first
    have hne : y.id ∉ (Term.var x).freeIds := notMem_of_fresh hy (avoids_of_fresh hx)
    have hne' : x.id ≠ y.id := fun h => hne (List.mem_singleton.2 h.symm)
    simp [hne']
  notMem z hz := by
    have hb₁ := hb.of_ok (progresses_fresh s) hx
    have hb'₁ := hb'.of_ok (progresses_fresh s) hx
    rcases List.mem_cons.1 hz with rfl | hz
    · exact ⟨notMem_of_fresh hx hb, notMem_of_fresh hx hb'⟩
    · cases List.mem_singleton.1 hz
      exact ⟨notMem_of_fresh hy hb₁, notMem_of_fresh hy hb'₁⟩

theorem avoids_open_two (hb : k.Avoids b) (hx : fresh s k = .ok x k₁)
    (hy : fresh n k₁ = .ok y k₂) : k₂.Avoids (b.instantiate ([x, y].map .var)) := by
  have hb₁ := hb.of_ok (progresses_fresh s) hx
  refine (hb₁.of_ok (progresses_fresh n) hy).instantiate fun v hv => ?_
  rcases List.mem_cons.1 hv with rfl | hv
  · exact (avoids_of_fresh hx).of_ok (progresses_fresh n) hy
  · cases List.mem_singleton.1 hv
    exact avoids_of_fresh hy

end Issued

theorem Avoids.left {k : Kernel} {t a b : Term} (ht : k.Avoids t)
    (h : t.freeIds = a.freeIds ++ b.freeIds) : k.Avoids a :=
  ht.of_subset fun _ hid => h ▸ List.mem_append.2 (.inl hid)

theorem Avoids.right {k : Kernel} {t a b : Term} (ht : k.Avoids t)
    (h : t.freeIds = a.freeIds ++ b.freeIds) : k.Avoids b :=
  ht.of_subset fun _ hid => h ▸ List.mem_append.2 (.inr hid)

/-! ## One level of comparison -/

section Congruent

variable {compare : Term → Term → KernelM Bool} {p q : Term} {k k' : Kernel}

/-- Normal forms that are accepted have the same head and accepted parts, one choice of variables
in the bodies being the issued ones. -/
theorem sameHead_of_congruent {C : Term → Term → Prop}
    (hprogress : ∀ a b, Progresses Follows (compare a b))
    (hC : ∀ {a b k k'}, k.Avoids a → k.Avoids b → compare a b k = .ok true k' → C a b)
    (hp : k.Avoids p) (hq : k.Avoids q) (h : congruent compare p q k = .ok true k') :
    SameHead C (OpenedOnce C) p q := by
  -- terms with different heads are refused
  cases p <;> cases q <;> try (cases EStateM.eq_of_pure_ok h; done)
  case bound.bound i j =>
    cases eq_of_beq (EStateM.eq_of_pure_ok h)
    exact .bound i
  case var.var x y => exact .var (eq_of_beq (EStateM.eq_of_pure_ok h))
  case ref.ref m n =>
    cases eq_of_beq (EStateM.eq_of_pure_ok h)
    exact .ref m
  case typ.typ => exact .typ
  case all.all s n a b s' n' a' b' =>
    obtain ⟨same, k₁, hparts, h⟩ := EStateM.ok_of_bind_ok h
    cases same with
    | false => cases EStateM.eq_of_pure_ok h
    | true =>
      obtain ⟨self, k₂, hself, h⟩ := EStateM.ok_of_bind_ok h
      obtain ⟨arg, k₃, harg, h⟩ := EStateM.ok_of_bind_ok h
      -- comparing the domains has only moved the kernel on, so it still avoids the bodies
      have hb : k₁.Avoids b := (hp.right rfl).of_ok (hprogress a a') hparts
      have hb' : k₁.Avoids b' := (hq.right rfl).of_ok (hprogress a a') hparts
      have hbody := hC (avoids_open_two hb hself harg) (avoids_open_two hb' hself harg) h
      exact .all (hC (hp.left rfl) (hq.left rfl) hparts)
        ⟨[self, arg], freshFor_two hb hb' hself harg, hbody⟩
  case lam.lam n er b n' er' b' =>
    simp only [congruent] at h
    split at h
    -- functions that differ in erasure are refused
    · rename_i her
      cases her
      obtain ⟨arg, k₁, harg, h⟩ := EStateM.ok_of_bind_ok h
      have hbody := hC (avoids_open_one (b := b) hp harg) (avoids_open_one (b := b') hq harg) h
      exact .lam ⟨[arg], freshFor_one hp hq harg, hbody⟩
    · cases EStateM.eq_of_pure_ok h
  case app.app f a er f' a' er' =>
    simp only [congruent] at h
    split at h
    · rename_i her
      cases her
      obtain ⟨same, k₁, hfunc, h⟩ := EStateM.ok_of_bind_ok h
      cases same with
      | false => cases EStateM.eq_of_pure_ok h
      | true =>
        have ha : k₁.Avoids a := (hp.right rfl).of_ok (hprogress f f') hfunc
        have ha' : k₁.Avoids a' := (hq.right rfl).of_ok (hprogress f f') hfunc
        exact .app (hC (hp.left rfl) (hq.left rfl) hfunc) (hC ha ha' h)
    · cases EStateM.eq_of_pure_ok h

/-- Normal forms with the same head and parts that cannot be refused cannot be refused. -/
theorem congruent_ne_false {R : Term → Term → Prop}
    (hprogress : ∀ a b, Progresses Follows (compare a b))
    (hR : ∀ {a b k k'}, k.Avoids a → k.Avoids b → R a b → compare a b k ≠ .ok false k')
    (hp : k.Avoids p) (hq : k.Avoids q) (hpq : SameHead R (OpenedAlways R) p q) :
    congruent compare p q k ≠ .ok false k' := by
  intro h
  -- every test that comes to false contradicts the congruence of the heads
  cases hpq with
  | bound i => simpa using EStateM.eq_of_pure_ok h
  | var hid => simpa [hid] using EStateM.eq_of_pure_ok h
  | ref name => simpa using EStateM.eq_of_pure_ok h
  | typ => cases EStateM.eq_of_pure_ok h
  | @all s s' n n' a a' b b' ha hb =>
    obtain ⟨same, k₁, hparts, h⟩ := EStateM.ok_of_bind_ok h
    cases same with
    | false => exact hR (hp.left rfl) (hq.left rfl) ha hparts
    | true =>
      obtain ⟨self, k₂, hself, h⟩ := EStateM.ok_of_bind_ok h
      obtain ⟨arg, k₃, harg, h⟩ := EStateM.ok_of_bind_ok h
      have hb₁ : k₁.Avoids b := (hp.right rfl).of_ok (hprogress a a') hparts
      have hb'₁ : k₁.Avoids b' := (hq.right rfl).of_ok (hprogress a a') hparts
      exact hR (avoids_open_two hb₁ hself harg) (avoids_open_two hb'₁ hself harg)
        (hb _ (freshFor_two hb₁ hb'₁ hself harg)) h
  | @lam n n' er b b' hb =>
    simp only [congruent, if_true] at h
    obtain ⟨arg, k₁, harg, h⟩ := EStateM.ok_of_bind_ok h
    exact hR (avoids_open_one (b := b) hp harg) (avoids_open_one (b := b') hq harg)
      (hb _ (freshFor_one hp hq harg)) h
  | @app f f' a a' er hf ha =>
    simp only [congruent, if_true] at h
    obtain ⟨same, k₁, hfunc, h⟩ := EStateM.ok_of_bind_ok h
    cases same with
    | false => exact hR (hp.left rfl) (hq.left rfl) hf hfunc
    | true =>
      have ha₁ : k₁.Avoids a := (hp.right rfl).of_ok (hprogress f f') hfunc
      have ha'₁ : k₁.Avoids a' := (hq.right rfl).of_ok (hprogress f f') hfunc
      exact hR ha₁ ha'₁ ha h

end Congruent

/-! ## The comparison at a depth -/

/-- What a comparison that answers has done: it found the terms equal, or reduced them to normal
forms that are equal or assumed to be, or else compared these part by part in a later state. -/
theorem equalUnder_cases {table : Table} {depth : Nat} {assumed : List (Term × Term)}
    {a b : Term} {k k' : Kernel} {r : Bool}
    (h : equalUnder table (depth + 1) assumed a b k = .ok r k') :
    a = b ∧ r = true ∨
    ∃ a' b', WeakHead table a a' ∧ WeakHead table b b' ∧
      ((a' = b' ∨ (a', b') ∈ assumed) ∧ r = true ∨
       ∃ k₁, Follows k k₁ ∧
        congruent (equalUnder table depth ((a', b') :: assumed)) a' b' k₁ = .ok r k') := by
  simp only [equalUnder] at h
  -- equal terms are accepted before they are reduced
  split at h
  · rename_i hab
    exact .inl ⟨hab, (EStateM.eq_of_pure_ok h).symm⟩
  · obtain ⟨a', k₁, hreduceA, h⟩ := EStateM.ok_of_bind_ok h
    obtain ⟨b', k₂, hreduceB, h⟩ := EStateM.ok_of_bind_ok h
    refine .inr ⟨a', b', weakHead_of_reduce hreduceA, weakHead_of_reduce hreduceB, ?_⟩
    split at h
    · rename_i hknown
      exact .inl ⟨hknown, (EStateM.eq_of_pure_ok h).symm⟩
    · obtain ⟨_, k₃, hnote, h⟩ := EStateM.ok_of_bind_ok h
      have h₁ := Progresses.of_ok (progresses_reduce table depth a) hreduceA
      have h₂ := Progresses.of_ok (progresses_reduce table depth b) hreduceB
      have h₃ := Progresses.of_ok (progresses_note _) hnote
      exact .inr ⟨k₃, (h₁.trans h₂).trans h₃, h⟩

/-! ## Assumptions and what justifies them -/

/-- The comparison accepts the pair under the assumptions, in some state that issues none of its
variables. -/
def Accepts (table : Table) (assumed : List (Term × Term)) (a b : Term) : Prop :=
  ∃ depth k k', k.Avoids a ∧ k.Avoids b ∧ equalUnder table depth assumed a b k = .ok true k'

/-- Each assumption has the same head on both sides, and parts that are accepted under it and those
made before it. -/
inductive Justified (table : Table) : List (Term × Term) → Prop where
  | nil : Justified table []
  | cons {p q : Term} {assumed : List (Term × Term)} :
      Justified table assumed →
      SameHead (Accepts table ((p, q) :: assumed)) (OpenedOnce (Accepts table ((p, q) :: assumed)))
        p q →
      Justified table ((p, q) :: assumed)

theorem Justified.of_mem {table : Table} {assumed : List (Term × Term)} {p q : Term}
    (h : Justified table assumed) (hmem : (p, q) ∈ assumed) :
    ∃ assumed', Justified table assumed' ∧
      SameHead (Accepts table assumed') (OpenedOnce (Accepts table assumed')) p q := by
  induction h with
  | nil => cases hmem
  | cons hrest hhead ih =>
    -- the pair is the latest assumption or an older one
    rcases List.mem_cons.1 hmem with heq | hmem
    · cases heq
      exact ⟨_, .cons hrest hhead, hhead⟩
    · exact ih hmem

/-- Accepted terms are structurally equal, or have normal forms that are, or that have the same head
and parts accepted under justified assumptions. -/
theorem Accepts.step {table : Table} (htable : table.IsVarFree) {assumed : List (Term × Term)}
    {a b : Term} (hassumed : Justified table assumed) (h : Accepts table assumed a b) :
    a = b ∨ ∃ a' b', WeakHead table a a' ∧ WeakHead table b b' ∧
      (a' = b' ∨ ∃ assumed', Justified table assumed' ∧
        SameHead (Accepts table assumed') (OpenedOnce (Accepts table assumed')) a' b') := by
  obtain ⟨depth, k, k', ha, hb, h⟩ := h
  cases depth with
  | zero => cases h
  | succ depth =>
    rcases equalUnder_cases h with ⟨hab, -⟩ | ⟨a', b', hwa, hwb, hcases⟩
    · exact .inl hab
    · refine .inr ⟨a', b', hwa, hwb, ?_⟩
      rcases hcases with ⟨hknown, -⟩ | ⟨k₁, hk₁, h⟩
      · -- an assumed pair is justified by the assumptions that were made before it
        exact hknown.imp_right hassumed.of_mem
      · -- the pair itself is now among the assumptions, and its parts justify it
        have hhead := sameHead_of_congruent (C := Accepts table ((a', b') :: assumed))
          (fun a b => progresses_equalUnder table depth _ a b)
          (fun ha hb h => ⟨depth, _, _, ha, hb, h⟩)
          (hk₁.avoids (ha.weakHead htable hwa)) (hk₁.avoids (hb.weakHead htable hwb)) h
        exact .inr ⟨_, .cons hassumed hhead, hhead⟩

/-- Equal terms, and terms that were accepted under justified assumptions before some renaming. -/
inductive Related (table : Table) : Term → Term → Prop where
  | refl (t : Term) : Related table t t
  | accepted {assumed : List (Term × Term)} {a b : Term} {σ : Var → Var} :
      Justified table assumed → Accepts table assumed a b → RespectsIds σ →
      Related table (a.rename σ) (b.rename σ)

theorem isBisimulation_related {table : Table} (htable : table.IsVarFree) :
    IsBisimulation table (Related table) := by
  intro a b h
  cases h with
  | refl => exact .inl rfl
  | @accepted assumed a b σ hassumed h hσ =>
    rcases h.step htable hassumed with rfl | ⟨a', b', ha, hb, hcases⟩
    · exact .inl rfl
    · refine .inr ⟨_, _, ha.rename htable σ, hb.rename htable σ, ?_⟩
      -- the pair was renamed after it was accepted, and so are the normal forms
      rcases hcases with rfl | ⟨assumed', hassumed', hhead⟩
      · exact (ha.rename htable σ).sameHead_self .refl
      · exact hhead.rename (fun _ _ _ h hσ => .accepted hassumed' h hσ) hσ

/-- The comparison does not refuse what a bisimulation relates, whatever is assumed. -/
theorem equalUnder_ne_false {table : Table} (htable : table.IsVarFree) {R : Term → Term → Prop}
    (hR : IsBisimulation table R) {depth : Nat} {assumed : List (Term × Term)} {a b : Term}
    {k k' : Kernel} (ha : k.Avoids a) (hb : k.Avoids b) (hab : R a b) :
    equalUnder table depth assumed a b k ≠ .ok false k' := by
  induction depth generalizing assumed a b k k' with
  | zero =>
    intro h
    cases h
  | succ depth ih =>
    intro h
    rcases equalUnder_cases h with ⟨-, hr⟩ | ⟨a', b', hwa, hwb, hcases⟩
    · cases hr
    · rcases hcases with ⟨-, hr⟩ | ⟨k₁, hk₁, h'⟩
      · cases hr
      · have hne : a ≠ b := by
          rintro rfl
          simp only [equalUnder, if_true] at h
          cases EStateM.eq_of_pure_ok h
        -- normal forms are unique, so the bisimulation speaks of the ones that were compared
        obtain ⟨p, q, hp, hq, hhead⟩ := (hR a b hab).resolve_left hne
        rw [hp.unique hwa, hq.unique hwb] at hhead
        exact congruent_ne_false (fun a b => progresses_equalUnder table depth _ a b)
          (fun ha hb hab => ih ha hb hab) (hk₁.avoids (ha.weakHead htable hwa))
          (hk₁.avoids (hb.weakHead htable hwb)) hhead h'

/-- Equality decides bisimilarity, for terms whose variables will not be issued again: what it
accepts is related by some bisimulation, and what it refuses by none. -/
theorem equal_decides_bisimilarity {table : Table} (htable : table.IsVarFree) {k : Kernel}
    {a b : Term} (ha : k.Avoids a) (hb : k.Avoids b) :
    (∀ k', Returns (fun d => equal table d a b) k (.ok true k') →
      ∃ R, IsBisimulation table R ∧ R a b) ∧
    (∀ k', Returns (fun d => equal table d a b) k (.ok false k') →
      ∀ R, IsBisimulation table R → ¬ R a b) := by
  -- one direction is a bisimulation of accepted pairs, the other that no such pair is refused
  refine ⟨?_, ?_⟩
  · intro k' hreturns
    obtain ⟨depth, h⟩ := hreturns.exists_depth
    refine ⟨Related table, isBisimulation_related htable, ?_⟩
    have haccepts : Accepts table [] a b := ⟨depth, k, k', ha, hb, h⟩
    -- nothing is assumed at the start, and nothing is renamed
    have hrelated := Related.accepted (σ := id) .nil haccepts fun _ _ hid => hid
    rwa [Term.rename_id, Term.rename_id] at hrelated
  · intro k' hreturns R hR hab
    obtain ⟨depth, h⟩ := hreturns.exists_depth
    exact equalUnder_ne_false htable hR ha hb hab h

/-- Two recursive types that are copies of each other. -/
def twins : Table :=
  .ofList
    [⟨"A", .typ, .all "self" "x" (.ref "A") (.ref "A")⟩,
     ⟨"B", .typ, .all "self" "x" (.ref "B") (.ref "B")⟩]

/-- The twins are bisimilar, and neither is bisimilar to the universe. -/
theorem twins_bisimilar :
    (twins.IsVarFree ∧ ∀ n, (Kernel.start ⟨0, 0⟩ none).Avoids (.ref n)) ∧
    (∃ R, IsBisimulation twins R ∧ R (.ref "A") (.ref "B")) ∧
    (∀ R, IsBisimulation twins R → ¬ R (.ref "A") .typ) := by
  have htable : twins.IsVarFree := by decide
  have href : ∀ n, (Kernel.start ⟨0, 0⟩ none).Avoids (.ref n) := fun n id hid => by cases hid
  have htyp : (Kernel.start ⟨0, 0⟩ none).Avoids .typ := fun id hid => by cases hid
  obtain ⟨k₁, hsame⟩ := (deepens_equal twins (.ref "A") (.ref "B")).returns_of_value?
    (.start ⟨0, 0⟩ none) true 9 (by decide +kernel)
  obtain ⟨k₂, hother⟩ := (deepens_equal twins (.ref "A") .typ).returns_of_value?
    (.start ⟨0, 0⟩ none) false 9 (by decide +kernel)
  refine ⟨⟨htable, href⟩, ?_, ?_⟩
  · exact (equal_decides_bisimilarity htable (href "A") (href "B")).1 k₁ hsame
  · exact (equal_decides_bisimilarity htable (href "A") htyp).2 k₂ hother

end SelfTypes.Kernel
