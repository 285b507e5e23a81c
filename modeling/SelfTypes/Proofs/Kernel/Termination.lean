import SelfTypes.Proofs.Progress
import SelfTypes.Proofs.Term.Measure

/-!
# The kernel terminates under a limit

Reduction makes terms larger, but only in steps of the budget; without a step it goes to a subterm.
Comparison goes to the parts of normal forms, and a normal form is not larger than the term it
comes from unless a step was taken. So the steps that are left and the size of the terms together
decrease, in lexicographic order.
-/

namespace SelfTypes

namespace Kernel

/-! ## Steps that are left -/

/-- The budget has the limit, and at most `n` steps of it are left. -/
structure Allows (limit n : Nat) (k : Kernel) : Prop where
  limited : k.fuel.limit = some limit
  left : limit ≤ k.fuel.used + n

theorem terminates_note (e : Event) (k : Kernel) : Terminates (fun _ => note e) k :=
  terminates_of_ok rfl

theorem terminates_fresh (name : BinderName) (k : Kernel) : Terminates (fun _ => fresh name) k :=
  terminates_of_ok rfl

section Burn

variable {limit n : Nat} {k k' : Kernel}

theorem Allows.of_limit (h : k.fuel.limit = some limit) : k.Allows limit limit :=
  ⟨h, Nat.le_add_left _ _⟩

theorem Follows.allows (h : Follows k k') (hk : k.Allows limit n) : k'.Allows limit n where
  limited := h.limit.trans hk.limited
  left := Nat.le_trans hk.left (Nat.add_le_add_right h.used n)

/-- A step of the budget leaves fewer steps. -/
theorem Allows.of_burn (hk : k.Allows limit n) (h : burn k = .ok () k') :
    ∃ m < n, k'.Allows limit m := by
  have hleft := hk.left
  obtain ⟨hallowed, rfl⟩ := burn_eq_ok_iff.1 h
  have hlt := hallowed limit hk.limited
  refine ⟨n - 1, by omega, hk.limited, ?_⟩
  show limit ≤ k.fuel.used + 1 + (n - 1)
  omega

theorem terminates_burn (hk : k.Allows limit n) : Terminates (fun _ => burn) k := by
  rcases Nat.lt_or_ge k.fuel.used limit with hlt | hle
  · exact ⟨_, returns_const (burn_of_lt hk.limited hlt) (isAnswer_ok _ _)⟩
  · exact ⟨_, returns_const (burn_of_le hk.limited hle) (isAnswer_failed _ _)⟩

/-- After a step it is enough to terminate with fewer steps left. -/
theorem terminates_burn_bind {α : Type} {f : Nat → Unit → KernelM α} (hk : k.Allows limit n)
    (hnext : ∀ m < n, ∀ k' : Kernel, k'.Allows limit m → Terminates (fun d => f d ()) k') :
    Terminates (fun d => burn >>= f d) k := by
  refine (terminates_burn hk).bind fun _ k' hburn => ?_
  obtain ⟨-, hburn⟩ := hburn.exists_depth
  obtain ⟨m, hm, hk'⟩ := hk.of_burn hburn
  exact hnext m hm k' hk'

end Burn

/-! ## Reduction -/

/-- A normal form is not larger than the term it comes from, unless a step was taken. -/
theorem size_le_of_reduce {table : Table} {limit n d : Nat} {t w : Term} {k k' : Kernel}
    (hk : k.Allows limit n) (h : reduce table d t k = .ok w k') :
    (∃ m < n, k'.Allows limit m) ∨ w.size ≤ t.size := by
  induction d generalizing t w k k' with
  | zero => cases h
  | succ d ih =>
    -- a step was taken, whatever came after it
    have burned : ∀ {k₁ k₂ : Kernel}, k₁.Allows limit n → burn k₁ = .ok () k₂ →
        Follows k₂ k' → ∃ m < n, k'.Allows limit m := by
      intro k₁ k₂ hk₁ hburn hfollows
      obtain ⟨m, hm, hk₂⟩ := hk₁.of_burn hburn
      exact ⟨m, hm, hfollows.allows hk₂⟩
    cases t with
    | bound | var | typ | all | lam =>
      cases h
      exact .inr (Nat.le_refl _)
    | ann _ e ty =>
      have hle : e.size ≤ e.size + ty.size + 1 := by omega
      exact (ih hk h).imp_right fun hw => Nat.le_trans hw hle
    | loc _ e => exact (ih hk h).imp_right fun hw => Nat.le_succ_of_le hw
    | letIn n dup e b =>
      obtain ⟨_, _, hburn, h⟩ := EStateM.ok_of_bind_ok h
      exact .inl (burned hk hburn ((progresses_reduce table d _).of_ok h))
    | ref name =>
      simp only [reduce] at h
      cases hname : table.find? name with
      | none =>
        rw [hname] at h
        cases h
        exact .inr (Nat.le_refl _)
      | some entry =>
        rw [hname] at h
        obtain ⟨_, _, hburn, h⟩ := EStateM.ok_of_bind_ok h
        obtain ⟨_, _, hnote, h⟩ := EStateM.ok_of_bind_ok h
        have hfollows := ((progresses_note _).of_ok hnote).trans
          ((progresses_reduce table d _).of_ok h)
        exact .inl (burned hk hburn hfollows)
    | app f a er =>
      obtain ⟨head, k₁, hhead, h⟩ := EStateM.ok_of_bind_ok h
      -- finding the head may have taken steps too
      have hk₁ : k₁.Allows limit n := ((progresses_reduce table d f).of_ok hhead).allows hk
      cases head with
      | lam n er' b =>
        obtain ⟨_, _, hburn, h⟩ := EStateM.ok_of_bind_ok h
        exact .inl (burned hk₁ hburn ((progresses_reduce table d _).of_ok h))
      | _ =>
        cases h
        refine (ih hk hhead).imp_right fun hle => ?_
        simp only [Term.size] at hle ⊢
        omega

theorem terminates_reduce (table : Table) {limit n : Nat} {k : Kernel} (hk : k.Allows limit n)
    (t : Term) : Terminates (fun d => reduce table d t) k := by
  -- on the steps that are left, and for each number of them on the term
  induction n using Nat.strongRecOn generalizing k t with
  | _ n ihn =>
    induction t with
    | bound | var | typ | all | lam => exact .of_succ (terminates_pure _ k)
    | ann _ _ _ ih | loc _ _ ih => exact .of_succ ih
    | letIn _ _ e b =>
      exact .of_succ (terminates_burn_bind hk fun m hm k' hk' => ihn m hm hk' _)
    | ref name =>
      refine .of_succ ?_
      simp only [reduce]
      cases table.find? name with
      | none => exact terminates_pure _ k
      | some entry =>
        refine terminates_burn_bind hk fun m hm k₁ hk₁ => ?_
        refine (terminates_note _ k₁).bind fun _ k₂ hnote => ?_
        exact ihn m hm ((hnote.progresses fun _ => progresses_note _).allows hk₁) _
    | app f a er ih _ =>
      -- the head is found in a subterm; contracting it takes a step
      refine .of_succ (ih.bind fun head k' hhead => ?_)
      have hk' : k'.Allows limit n :=
        (hhead.progresses fun d => progresses_reduce table d f).allows hk
      cases head with
      | lam _ _ b => exact terminates_burn_bind hk' fun m hm k'' hk'' => ihn m hm hk'' _
      | _ => exact terminates_pure _ k'

/-! ## Comparison -/

/-- Comparing two normal forms terminates if comparing smaller terms does. -/
theorem terminates_congruent {compare : Nat → Term → Term → KernelM Bool} {a b : Term}
    {k : Kernel} (hprog : ∀ d a' b', Progresses Follows (compare d a' b'))
    (hcompare : ∀ (a' b' : Term) k', Follows k k' → a'.size + b'.size < a.size + b.size →
      Terminates (fun d => compare d a' b') k') :
    Terminates (fun d => congruent (compare d) a b) k := by
  cases a <;> cases b <;> try exact terminates_pure _ k
  case all.all s n a b s' n' a' b' =>
    -- the bodies are opened with variables, which does not make them larger
    have hsize : ∀ x y : Var, ∀ v ∈ [Term.var x, Term.var y], v.size = 1 := by
      simp [Term.size]
    refine (hcompare a a' k (.refl k) (by simp only [Term.size]; omega)).bind fun same k₁ h₁ => ?_
    cases same with
    | false => exact terminates_pure _ k₁
    | true =>
      refine (terminates_fresh s k₁).bind fun x k₂ h₂ => ?_
      refine (terminates_fresh n k₂).bind fun y k₃ h₃ => ?_
      have hfollows := ((h₁.progresses fun d => hprog d a a').trans
        (h₂.progresses fun _ => progresses_fresh s)).trans
        (h₃.progresses fun _ => progresses_fresh n)
      refine hcompare _ _ k₃ hfollows ?_
      rw [Term.size_instantiate (hsize x y), Term.size_instantiate (hsize x y)]
      simp only [Term.size]
      omega
  case lam.lam n er c n' er' c' =>
    simp only [congruent]
    split
    · refine (terminates_fresh n k).bind fun x k₁ h₁ => ?_
      have hsize : ∀ v ∈ [Term.var x], v.size = 1 := by simp [Term.size]
      refine hcompare _ _ k₁ (h₁.progresses fun _ => progresses_fresh n) ?_
      rw [Term.size_instantiate hsize, Term.size_instantiate hsize]
      simp only [Term.size]
      omega
    · exact terminates_pure _ k
  case app.app f a er f' a' er' =>
    simp only [congruent]
    split
    · refine (hcompare f f' k (.refl k) (by simp only [Term.size]; omega)).bind
        fun same k₁ h₁ => ?_
      cases same with
      | false => exact terminates_pure _ k₁
      | true =>
        refine hcompare a a' k₁ (h₁.progresses fun d => hprog d f f') ?_
        simp only [Term.size]
        omega
    · exact terminates_pure _ k

theorem terminates_equalUnder (table : Table) {limit n : Nat} {k : Kernel}
    (hk : k.Allows limit n) (assumed : List (Term × Term)) (a b : Term) :
    Terminates (fun d => equalUnder table d assumed a b) k := by
  -- on the steps that are left, and for each number of them on the size of the terms
  induction n using Nat.strongRecOn generalizing k assumed a b with
  | _ n ihn =>
    generalize hm : a.size + b.size = m
    induction m using Nat.strongRecOn generalizing k assumed a b with
    | _ m ihm =>
      subst hm
      refine .of_succ ?_
      simp only [equalUnder]
      split
      · exact terminates_pure _ k
      refine (terminates_reduce table hk a).bind fun a' k₁ ha => ?_
      have hk₁ := (ha.progresses fun d => progresses_reduce table d a).allows hk
      refine (terminates_reduce table hk₁ b).bind fun b' k₂ hb => ?_
      have hk₂ := (hb.progresses fun d => progresses_reduce table d b).allows hk₁
      split
      · exact terminates_pure _ k₂
      refine (terminates_note _ k₂).bind fun _ k₃ hnote => ?_
      have hfollows := hnote.progresses fun _ => progresses_note _
      refine terminates_congruent (fun d => progresses_equalUnder table d _)
        fun a'' b'' k₄ hk₄ hlt => ?_
      -- the parts are compared after both reductions
      have h₂₄ := hfollows.trans hk₄
      have h₁₄ := (hb.progresses fun d => progresses_reduce table d b).trans h₂₄
      obtain ⟨da, ha⟩ := ha.exists_depth
      obtain ⟨db, hb⟩ := hb.exists_depth
      -- either reduction took a step, or the normal forms are no larger than the terms
      rcases size_le_of_reduce hk ha with ⟨n', hn', hleft⟩ | hle
      · exact ihn n' hn' (h₁₄.allows hleft) _ a'' b''
      rcases size_le_of_reduce hk₁ hb with ⟨n', hn', hleft⟩ | hle'
      · exact ihn n' hn' (h₂₄.allows hleft) _ a'' b''
      exact ihm _ (by omega) (h₂₄.allows hk₂) _ a'' b'' rfl

theorem terminates_equal (table : Table) {limit : Nat} {k : Kernel}
    (hk : k.fuel.limit = some limit) (a b : Term) :
    Terminates (fun d => equal table d a b) k :=
  terminates_equalUnder table (.of_limit hk) [] a b

/-! ## Classification -/

theorem terminates_classify (table : Table) {limit : Nat} {k : Kernel}
    (hk : k.fuel.limit = some limit) (ty : Term) :
    Terminates (fun d => classify table d ty) k := by
  have among : ∀ (ps : List Primitive) (k : Kernel), k.fuel.limit = some limit →
      Terminates (fun d => classifyAmong table d ty ps) k := by
    intro ps
    induction ps with
    | nil => exact fun k _ => terminates_pure _ k
    | cons p ps ih =>
      intro k hk
      refine (terminates_equal table hk _ ty).bind fun same k' h => ?_
      cases same with
      | true => exact terminates_pure _ k'
      | false => exact ih k' ((h.progresses fun d => progresses_equal table d _ ty).limit.trans hk)
  exact among Primitive.registry k hk

end Kernel

end SelfTypes
