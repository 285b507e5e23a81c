import Mathlib.Data.Nat.Find
import SelfTypes.Proofs.Elaboration.Subsumption
import SelfTypes.Proofs.Kernel.HeadStep
import SelfTypes.Proofs.Kernel.Location

/-!
# Equality without shortcuts

Definitional equality accepts terms that are equal as they stand, normal forms that are, and pairs
that are being compared further out. `equalPlainly` is the comparison without these shortcuts: it
reduces both sides and compares the parts, and never comes to an end on an infinite unfolding.

A shortcut spares a run the reductions and the fresh variables of what it skips, so it issues other
variables from then on, and has more of its budget left. What the shortcuts accept the plain
comparison accepts, if it answers at all. For terms that are equal this is reflexivity. A pair that
is assumed does not come up: the plain comparison answers on each pair within some least depth, and
on the parts of the pair within less, so the pair is not one of them.

Main statement: `equal_of_equalPlainly`.
-/

namespace SelfTypes.Kernel

/-- Decides equality of two terms by their normal forms and the parts of these alone. -/
def equalPlainly (table : Table) : (depth : Nat) → Term → Term → KernelM Bool
  | 0, _, _ => giveUp
  | depth + 1, a, b => do
    let a ← reduce table depth a
    let b ← reduce table depth b
    note (.comparison a b)
    congruent (equalPlainly table depth) a b

variable {table : Table}

/-! ## The plain comparison as a computation of the kernel -/

theorem IsCongruence.equalPlainly {rel : Relation KernelM} {d d' : Nat} (C : IsCongruence rel)
    (table : Table) : Compatible (@Kernel.giveUp) rel d d' → ∀ a b,
      rel Bool (Kernel.equalPlainly table d a b) (Kernel.equalPlainly table d' a b) := by
  induction d generalizing d' with
  | zero =>
    intro h a b
    exact C.atZero h (f := fun d => Kernel.equalPlainly table d a b) rfl
  | succ d ih =>
    intro h a b
    obtain ⟨d', rfl, hd⟩ := h.succ
    exact C.bind (C.reduce table hd a) fun a' => C.bind (C.reduce table hd b) fun b' =>
      C.bind (C.note _) fun _ => C.congruent (ih hd) a' b'

theorem deepens_equalPlainly (table : Table) (a b : Term) :
    Deepens fun d => equalPlainly table d a b :=
  fun _ _ h => isCongruence_refines.equalPlainly table (compatible_of_le h) a b

theorem progresses_equalPlainly (table : Table) (d : Nat) (a b : Term) :
    Progresses Follows (equalPlainly table d a b) :=
  isCongruence_progresses.equalPlainly table (.refl d) a b

theorem progresses_congruent {compare : Term → Term → KernelM Bool}
    (h : ∀ a b, Progresses Follows (compare a b)) (v w : Term) :
    Progresses Follows (congruent compare v w) :=
  @IsCongruence.congruent _ isCongruence_progresses compare compare h v w

theorem IsLockstep.equalPlainly {L : Likeness} {table table' : Table} {rel : RunRelation KernelM}
    (C : IsLockstep L table table' rel) (hL : ¬ L.loose) (depth : Nat) {ρ : VarRelation}
    {a a' b b' : Term} (ha : a.Copy L ρ a') (hb : b.Copy L ρ b') :
    rel Bool ρ (fun _ r r' => r = r') (Kernel.equalPlainly table depth a b)
      (Kernel.equalPlainly table' depth a' b') := by
  induction depth generalizing ρ a a' b b' with
  | zero => exact C.giveUp
  | succ depth ih =>
    refine C.bind (C.reduce hL depth ha) fun ρ₁ v v' hsub hv => ?_
    refine C.bind (C.reduce hL depth (hb.mono hsub)) fun ρ₂ w w' hsub₂ hw => ?_
    have hv₂ := hv.copy.mono hsub₂
    refine C.bind (C.note (.comparison hv₂ hw.copy)) fun ρ₃ _ _ hsub₃ _ => ?_
    exact C.congruent (fun _ ha hb => ih ha hb) ((hv₂.mono hsub₃).sameNode_of_strict hL)
      ((hw.copy.mono hsub₃).sameNode_of_strict hL)

/-! ## Equal terms -/

/-- A normal form is not refused in a comparison with itself if its parts are not. -/
theorem congruent_self_ne_false {compare : Term → Term → KernelM Bool}
    (hprogress : ∀ a b, Progresses Follows (compare a b))
    (hself : ∀ {a k k'}, k.Avoids a → compare a a k ≠ .ok false k') {t v : Term} {k k' : Kernel}
    (hv : WeakHead table t v) (hk : k.Avoids v) : congruent compare v v k ≠ .ok false k' := by
  refine congruent_ne_false (R := Eq) hprogress ?_ hk hk (hv.sameHead_self fun _ => rfl)
  rintro a _ k k' ha - rfl
  exact hself ha

/-- The plain comparison does not refuse a term in the comparison with itself. -/
theorem equalPlainly_self_ne_false (hfree : table.IsVarFree) {depth : Nat} {a : Term}
    {k k' : Kernel} (ha : k.Avoids a) : equalPlainly table depth a a k ≠ .ok false k' := by
  induction depth generalizing a k k' with
  | zero => nofun
  | succ depth ih =>
    intro h
    obtain ⟨v, k₁, hv, h⟩ := EStateM.ok_of_bind_ok h
    obtain ⟨w, k₂, hw, h⟩ := EStateM.ok_of_bind_ok h
    obtain ⟨_, k₃, hnote, h⟩ := EStateM.ok_of_bind_ok h
    have hnormal := weakHead_of_reduce hv
    -- both reductions are of the same term, so they come to one weak head
    cases (weakHead_of_reduce hw).unique hnormal
    have hfollows := (((progresses_reduce table depth a).of_ok hv).trans
      ((progresses_reduce table depth a).of_ok hw)).trans ((progresses_note _).of_ok hnote)
    exact congruent_self_ne_false (progresses_equalPlainly table depth) ih hnormal
      (hfollows.avoids (ha.weakHead hfree hnormal)) h

/-! ## Depth -/

/-- Wherever the first run comes to a value, the second comes to a related one, unless it runs out
of fuel. -/
def Concludes (α : Type) (ρ : VarRelation) (Q : VarRelation → α → α → Prop) (x x' : KernelM α) :
    Prop :=
  ∀ P k k' a t, ρ = Named P → Joined P k k' → x k = .ok a t →
    (∃ e t', x' k' = .error (.failed e) t') ∨
      ∃ P' a' t', P ⊆ P' ∧ Joined P' t t' ∧ x' k' = .ok a' t' ∧ Q (Named P') a a'

theorem Concludes.bind {α β : Type} {ρ : VarRelation} {Q : VarRelation → α → α → Prop}
    {R : VarRelation → β → β → Prop} {x x' : KernelM α} {f f' : α → KernelM β}
    (hx : Concludes α ρ Q x x')
    (hf : ∀ ρ' a a', Subrelation ρ ρ' → Q ρ' a a' → Concludes β ρ' R (f a) (f' a')) :
    Concludes β ρ R (x >>= f) (x' >>= f') := by
  intro P k k' b t hρ hP h
  subst hρ
  obtain ⟨a, k₁, ha, hb⟩ := EStateM.ok_of_bind_ok h
  -- the second run fails, or it answers as the first one does and ends with more pairs
  rcases hx P k k' a k₁ rfl hP ha with ⟨e, t', hfailed⟩ | ⟨P₁, a', k₁', hsub₁, hP₁, ha', hQ⟩
  · exact .inl ⟨e, t', EStateM.bind_of_error hfailed⟩
  · rw [EStateM.bind_of_ok ha']
    rcases hf (Named P₁) a a' (Named.mono hsub₁) hQ P₁ k₁ k₁' b t rfl hP₁ hb with
      hfailed | ⟨P₂, b', t', hsub₂, hP₂, hb', hR⟩
    · exact .inl hfailed
    · exact .inr ⟨P₂, b', t', fun _ hp => hsub₂ (hsub₁ hp), hP₂, hb', hR⟩

theorem concludes_burn {ρ : VarRelation} :
    Concludes Unit ρ (fun _ _ _ => True) Kernel.burn Kernel.burn := by
  intro P k k' a t hρ hP h
  cases hburn : Kernel.burn k' with
  | ok _ t' =>
    have hjoined := hP.follows (progresses_burn.of_ok h) (progresses_burn.of_ok hburn)
    exact .inr ⟨P, (), t', List.Subset.refl P, hjoined, rfl, trivial⟩
  | error halt t' =>
    obtain ⟨limit, rfl, -⟩ := not_affords_of_burn hburn
    exact .inl ⟨_, t', rfl⟩

theorem isLockstep_concludes (hfree : table.IsVarFree) : IsLockstep {} table table Concludes where
  comparable h := by
    intro P k k' a t hρ hP hx
    subst hρ
    exact h (hfree.comparable (fun _ => trivial) hP.toOneToOne.faithful) P k k' a t rfl hP hx
  pure h := by
    intro P k k' b t hρ hP hb
    subst hρ
    cases hb
    exact .inr ⟨P, _, k', List.Subset.refl P, hP, rfl, h⟩
  bind := .bind
  giveUp := nofun
  note {ρ e e'} _ := by
    intro P k k' a t hρ hP h
    -- an event issues no variable, so the pairs stay as they are
    have hjoined := hP.follows ((progresses_note e).of_ok h) ((progresses_note e').of_ok rfl)
    exact .inr ⟨P, (), _, List.Subset.refl P, hjoined, rfl, trivial⟩
  burn := concludes_burn
  fresh name := by
    intro P k k' x t hρ hP h
    have h' : Kernel.fresh name k' =
        .ok ⟨k'.supply.issue.1, name⟩ { k' with supply := k'.supply.issue.2 } := rfl
    refine .inr ⟨_, _, _, List.subset_cons_self _ _, hP.fresh h h', h', List.mem_cons_self, ?_⟩
    cases h
    rfl

/-- The plain comparison of the parts of two normal forms answers within the depth, in some state
that issues none of their variables. -/
def DecidedWithin (table : Table) (depth : Nat) (v w : Term) : Prop :=
  ∃ r k k', k.Avoids v ∧ k.Avoids w ∧ congruent (equalPlainly table depth) v w k = .ok r k'

theorem refines_congruent_equalPlainly (table : Table) {m depth : Nat} (hle : m ≤ depth)
    (v w : Term) :
    Refines (congruent (equalPlainly table m) v w) (congruent (equalPlainly table depth) v w) :=
  isCongruence_refines.congruent (fun a b => deepens_equalPlainly table a b m depth hle) v w

/-- Terms are joined with themselves by their own variables, in states that do not issue them. -/
theorem exists_joined_self {v w : Term} {k k' : Kernel} (hv : k.Avoids v) (hw : k.Avoids w)
    (hv' : k'.Avoids v) (hw' : k'.Avoids w) :
    ∃ P, Joined P k k' ∧ v.Copy {} (Named P) v ∧ w.Copy {} (Named P) w := by
  -- neither term has an identifier that is still to be issued, so each can stand for itself
  have hids : ∀ {k : Kernel}, k.Avoids v → k.Avoids w →
      ∀ id ∈ (v.freeIds ++ w.freeIds).dedup, ¬ k.supply.CanIssue id := by
    intro k hv hw id hid
    rcases List.mem_append.1 (List.mem_dedup.1 hid) with h | h
    · exact hv id h
    · exact hw id h
  refine ⟨(v.freeIds ++ w.freeIds).dedup.map fun id => (id, id),
    ⟨.diagonal _, ?_, ?_⟩, .refl ?_ fun _ _ => trivial, .refl ?_ fun _ _ => trivial⟩
  · simpa [Function.comp_def] using hids hv hw
  · simpa [Function.comp_def] using hids hv' hw'
  · intro x hx
    exact ⟨by simp [Paired, hx], rfl⟩
  · intro x hx
    exact ⟨by simp [Paired, hx], rfl⟩

/-- An answer is found within some least depth, whatever state the comparison is made in. -/
theorem exists_least_depth (hfree : table.IsVarFree) {depth : Nat} {v w : Term} {k k' : Kernel}
    {r : Bool} (hv : k.Avoids v) (hw : k.Avoids w)
    (h : congruent (equalPlainly table depth) v w k = .ok r k') :
    ∃ m ≤ depth, congruent (equalPlainly table m) v w k = .ok r k' ∧
      ∀ j < m, ¬ DecidedWithin table j v w := by
  classical
  have hexists : ∃ m, DecidedWithin table m v w := ⟨depth, r, k, k', hv, hw, h⟩
  have hle : Nat.find hexists ≤ depth := Nat.find_min' hexists ⟨r, k, k', hv, hw, h⟩
  refine ⟨Nat.find hexists, hle, ?_, fun j hj => Nat.find_min hexists hj⟩
  obtain ⟨r₀, k₀, t₀, hv₀, hw₀, h₀⟩ := Nat.find_spec hexists
  generalize Nat.find hexists = m at hle h₀
  -- the answer in the one state is carried over to the other, where it can not be a failure
  obtain ⟨P, hP, hvv, hww⟩ := exists_joined_self hv₀ hw₀ hv hw
  have C := isLockstep_concludes hfree
  have hconcludes := C.congruent (fun _ ha hb => C.equalPlainly id m ha hb)
    (hvv.sameNode_of_strict id) (hww.sameNode_of_strict id)
  have hrefines := refines_congruent_equalPlainly table hle v w k
  rcases hconcludes P k₀ k r₀ t₀ rfl hP h₀ with ⟨e, t, hfailed⟩ | ⟨-, r', t, -, -, hok, -⟩
  · rw [hfailed, h] at hrefines
    cases hrefines (isAnswer_failed e t)
  · rw [hok, h] at hrefines
    rw [hok, hrefines (isAnswer_ok r' t)]

/-! ## The shortcuts -/

/-- A comparison that does not refuse may be spared. -/
theorem spares_of_ne_false {ρ : VarRelation} {x : KernelM Bool} (hx : Progresses Follows x)
    (htrue : ∀ P k k' t, ρ = Named P → Ahead P k k' → x k ≠ .ok false t) :
    Spares id Bool ρ (fun _ r r' => r = r') x (Pure.pure true) := by
  intro P k k' r t hρ hP h
  refine ⟨P, true, k', List.Subset.refl P, hP.follows_left (hx.of_ok h), rfl, ?_⟩
  cases r with
  | true => rfl
  | false => exact absurd h (htrue P k k' t hρ hP)

/-- Pairs of which the plain comparison answers on none within less than the depth. -/
def UndecidedBelow (table : Table) (depth : Nat) (assumed : List (Term × Term)) : Prop :=
  ∀ p ∈ assumed, ∀ m < depth, ¬ DecidedWithin table m p.1 p.2

theorem UndecidedBelow.mono {m depth : Nat} {assumed : List (Term × Term)}
    (h : UndecidedBelow table depth assumed) (hle : m ≤ depth) : UndecidedBelow table m assumed :=
  fun p hp j hj => h p hp j (Nat.lt_of_lt_of_le hj hle)

section

variable {ρ : VarRelation} {assumed assumed' : List (Term × Term)} {a a' b b' t t' v v' w w' : Term}
  {depth : Nat}

/-- Reduction spares steps, and comes to a normal form. -/
theorem spares_reduce (hfree : table.IsVarFree) (depth : Nat) (ht : t.Copy {} ρ t') :
    Spares id Term ρ (fun ρ' v v' => WeakHead table t v ∧ v.CopyNode {} ρ' v')
      (reduce table depth t) (reduce table depth t') := by
  intro P k k' v k₁ hρ hP h
  obtain ⟨P', v', k₁', hsub, hP', h', hnode⟩ :=
    (isLockstep_spares hfree).reduce id depth ht P k k' v k₁ hρ hP h
  exact ⟨P', v', k₁', hsub, hP', h', weakHead_of_reduce h, hnode⟩

/-- The parts of normal forms, compared with and without shortcuts, given that the comparisons
within each depth that is not larger agree. -/
theorem spares_congruent (hfree : table.IsVarFree)
    (hcompare : ∀ m ≤ depth, ∀ {ρ assumed assumed' a a' b b'}, UndecidedBelow table m assumed →
      CopiedPairs {} ρ assumed assumed' → a.Copy {} ρ a' → b.Copy {} ρ b' →
      Spares id Bool ρ (fun _ r r' => r = r') (equalPlainly table m a b)
        (equalUnder table m assumed' a' b'))
    (hundecided : UndecidedBelow table depth assumed) (hassumed : CopiedPairs {} ρ assumed assumed')
    (hv : v.CopyNode {} ρ v') (hw : w.CopyNode {} ρ w') :
    Spares id Bool ρ (fun _ r r' => r = r') (congruent (equalPlainly table depth) v w)
      (congruent (equalUnder table depth ((v', w') :: assumed')) v' w') := by
  rintro P k k' r t rfl hP h
  have havoids := (hP.toJoined.avoids_of_copy hv.copy).1
  have havoids' := (hP.toJoined.avoids_of_copy hw.copy).1
  -- within the least depth, the pair may be assumed
  obtain ⟨m, hle, hm, hleast⟩ := exists_least_depth hfree havoids havoids' h
  have hundecided' : UndecidedBelow table m ((v, w) :: assumed) :=
    List.forall_mem_cons.2 ⟨hleast, hundecided.mono hle⟩
  have hassumed' : CopiedPairs {} (Named P) ((v, w) :: assumed) ((v', w') :: assumed') :=
    .cons ⟨hv.copy, hw.copy⟩ hassumed
  have hparts := (isLockstep_spares hfree).congruent
    (fun hsub ha hb => hcompare m hle hundecided' (hassumed'.mono hsub) ha hb) hv hw
  obtain ⟨P', r', t', hsub, hP', hok, hr⟩ := hparts P k k' r t rfl hP hm
  -- what is answered within it is answered within the given one
  have hdeeper := isCongruence_refines.congruent
    (fun a b => deepens_equalUnder table ((v', w') :: assumed') a b m depth hle) v' w' k'
  rw [hok] at hdeeper
  exact ⟨P', r', t', hsub, hP', hdeeper (isAnswer_ok r' t'), hr⟩

/-- Normal forms that are equal or assumed to be are not refused by the plain comparison. -/
theorem congruent_ne_false_of_known (hfree : table.IsVarFree)
    (hundecided : UndecidedBelow table (depth + 1) assumed) (ht : WeakHead table t v)
    (hknown : v = w ∨ (v, w) ∈ assumed) {k k' : Kernel} (hv : k.Avoids v) (hw : k.Avoids w) :
    congruent (equalPlainly table depth) v w k ≠ .ok false k' := by
  intro h
  rcases hknown with rfl | hmem
  · exact congruent_self_ne_false (progresses_equalPlainly table depth)
      (equalPlainly_self_ne_false hfree) ht hv h
  · exact hundecided _ hmem depth (Nat.lt_succ_self depth) ⟨false, k, k', hv, hw, h⟩

/-- The comparison of normal forms that are equal or assumed to be may be spared. -/
theorem spares_of_known (hfree : table.IsVarFree)
    (hundecided : UndecidedBelow table (depth + 1) assumed) (ht : WeakHead table t v)
    (hknown : v = w ∨ (v, w) ∈ assumed) (hv : v.Copy {} ρ v') (hw : w.Copy {} ρ w') :
    Spares id Bool ρ (fun _ r r' => r = r')
      (note (.comparison v w) >>= fun _ => congruent (equalPlainly table depth) v w)
      (Pure.pure true) := by
  refine spares_of_ne_false (Progresses.bind @Follows.trans (progresses_note _) fun _ =>
    progresses_congruent (progresses_equalPlainly table depth) v w) ?_
  rintro P k k' t rfl hP h
  obtain ⟨_, k₁, hnote, h⟩ := EStateM.ok_of_bind_ok h
  have hfollows := (progresses_note _).of_ok hnote
  exact congruent_ne_false_of_known hfree hundecided ht hknown
    (hfollows.avoids (hP.toJoined.avoids_of_copy hv).1)
    (hfollows.avoids (hP.toJoined.avoids_of_copy hw).1) h

/-- With shortcuts, a comparison spares steps of the plain one, under assumptions on which the
latter does not answer within less than its depth. -/
theorem spares_equalPlainly (hfree : table.IsVarFree) (depth : Nat)
    (hundecided : UndecidedBelow table depth assumed) (hassumed : CopiedPairs {} ρ assumed assumed')
    (ha : a.Copy {} ρ a') (hb : b.Copy {} ρ b') :
    Spares id Bool ρ (fun _ r r' => r = r') (equalPlainly table depth a b)
      (equalUnder table depth assumed' a' b') := by
  have C := isLockstep_spares hfree
  induction depth using Nat.strongRecOn generalizing ρ assumed assumed' a a' b b' with
  | ind depth ih =>
  cases depth with
  | zero => exact C.giveUp
  | succ depth =>
    refine C.comparable fun hρ => ?_
    simp only [equalUnder]
    split
    -- the same term twice: the plain comparison can not come to false either
    · rename_i hab
      cases (ha.eq_iff hρ.faithful id hb).2 hab
      refine spares_of_ne_false (progresses_equalPlainly table _ a a) ?_
      rintro P k k' t rfl hP
      exact equalPlainly_self_ne_false hfree (hP.toJoined.avoids_of_copy ha).1
    · refine C.bind (spares_reduce hfree depth ha) fun ρ₁ v v' hsub hv => ?_
      refine C.bind (spares_reduce hfree depth (hb.mono hsub)) fun ρ₂ w w' hsub₂ hw => ?_
      obtain ⟨hnormal, hv⟩ := hv
      have hv₂ := hv.copy.mono hsub₂
      have hw₂ := hw.2.copy
      have hassumed₂ := (hassumed.mono hsub).mono hsub₂
      refine C.comparable fun hρ₂ => ?_
      split
      -- the pair is known, so here too the plain comparison can not come to false
      · rename_i hknown
        rw [← hv₂.eq_iff hρ₂.faithful id hw₂,
          ← hassumed₂.mem_iff hρ₂.faithful.biUnique id hv₂ hw₂] at hknown
        exact spares_of_known hfree hundecided hnormal hknown hv₂ hw₂
      -- otherwise both compare the parts, and only one of them assumes the pair
      · refine C.bind (C.note (.comparison hv₂ hw₂)) fun ρ₃ _ _ hsub₃ _ => ?_
        exact spares_congruent hfree (fun m hm => ih m (Nat.lt_succ_of_le hm))
          (hundecided.mono (Nat.le_succ depth)) (hassumed₂.mono hsub₃)
          ((hv₂.mono hsub₃).sameNode_of_strict id) ((hw₂.mono hsub₃).sameNode_of_strict id)

end

/-- The shortcuts of equality change nothing but the cost: where the plain comparison answers, so
does equality from the same state, with the same verdict and no more steps. -/
theorem equal_of_equalPlainly (hfree : table.IsVarFree) {a b : Term} {k k' : Kernel} {r : Bool}
    (ha : k.Avoids a) (hb : k.Avoids b)
    (h : Returns (fun d => equalPlainly table d a b) k (.ok r k')) :
    ∃ k'', Returns (fun d => equal table d a b) k (.ok r k'') ∧ k''.spent ≤ k'.spent := by
  obtain ⟨depth, h⟩ := h.exists_depth
  obtain ⟨P, hP, haa, hbb⟩ := exists_joined_self ha hb ha hb
  have hstart : Ahead P k k := ⟨hP, rfl, Nat.le_refl _⟩
  -- at the start nothing is assumed
  obtain ⟨P', r', k'', -, hP', h', rfl⟩ :=
    spares_equalPlainly hfree depth (List.forall_mem_nil _) .nil haa hbb P k k r k' rfl hstart h
  have hreturns := (deepens_equal table a b).returns depth (s := k)
  rw [equal, h'] at hreturns
  exact ⟨k'', hreturns (isAnswer_ok r k''), hP'.used⟩

/-- The universe under two names, one of them by way of the other. -/
def aliases : Table :=
  .ofList [⟨"A", .typ, .typ⟩, ⟨"B", .typ, .ref "A"⟩]

/-- Types that are built from the aliases are equal without shortcuts, and with them. -/
theorem aliases_equal :
    ∃ k' k'', Returns (fun d => equalPlainly aliases d (.all "s" "x" (.ref "A") (.ref "A"))
        (.all "s" "x" (.ref "A") (.ref "B"))) (.start ⟨0, 0⟩ (some 9)) (.ok true k') ∧
      Returns (fun d => equal aliases d (.all "s" "x" (.ref "A") (.ref "A"))
        (.all "s" "x" (.ref "A") (.ref "B"))) (.start ⟨0, 0⟩ (some 9)) (.ok true k'') ∧
      k''.spent ≤ k'.spent := by
  have hfree : aliases.IsVarFree := by decide
  have havoids : ∀ n, (Kernel.start ⟨0, 0⟩ (some 9)).Avoids
      (.all "s" "x" (.ref "A") (.ref n)) := fun n id hid => by cases hid
  obtain ⟨k', h⟩ := (deepens_equalPlainly aliases (.all "s" "x" (.ref "A") (.ref "A"))
    (.all "s" "x" (.ref "A") (.ref "B"))).returns_of_value? (.start ⟨0, 0⟩ (some 9)) true 5
    (by decide +kernel)
  obtain ⟨k'', h', hspent⟩ := equal_of_equalPlainly hfree (havoids "A") (havoids "B") h
  exact ⟨k', k'', h, h', hspent⟩

end SelfTypes.Kernel
