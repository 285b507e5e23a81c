import SelfTypes.Proofs.Kernel.Termination
import SelfTypes.Proofs.Kernel.WeakHead

/-!
# Reduction step by step

`HeadStep table t c u` is one step at the head of a term: `t` becomes `u` at the cost `c`. Dropping
an annotation or a location is free; unfolding a global, contracting a local definition and
contracting an applied function cost one step of the budget each. `HeadPath table t n w` is a
sequence of steps with the total cost `n`.

Main statements: `reduce_along_headPath`, by which reduction returns where the sequence of steps
ends and has spent its cost, and fails if the sequence costs more than is left; and
`reduce_fixes_headNormal`, by which what reduction returns are the terms in head normal form, which
it returns as they are.
-/

namespace SelfTypes

/-! ## Head normal forms -/

/-- Terms whose head is in the open and can not be contracted. -/
inductive HeadNormal (table : Table) : Term → Prop where
  | bound (i : Nat) : HeadNormal table (.bound i)
  | var (x : Var) : HeadNormal table (.var x)
  | typ : HeadNormal table .typ
  | all (s n : BinderName) (a b : Term) : HeadNormal table (.all s n a b)
  | lam (n : BinderName) (er : Bool) (b : Term) : HeadNormal table (.lam n er b)
  /-- A global without definition. -/
  | unknown {name : DefName} : table.find? name = none → HeadNormal table (.ref name)
  /-- A head that is no function, applied to anything. -/
  | app {f a : Term} {er : Bool} :
      HeadNormal table f → f.isLam = false → HeadNormal table (.app f a er)

/-- What a term reduces to is in head normal form. -/
theorem WeakHead.headNormal {table : Table} {t w : Term} (h : WeakHead table t w) :
    HeadNormal table w := by
  induction h with
  | bound | var | typ | all | lam => constructor
  | unknown hname => exact .unknown hname
  | unfold _ _ ih | letIn _ ih | ann _ ih | loc _ ih | beta _ _ _ ih => exact ih
  | stuck _ hlam ih => exact .app ih hlam

theorem HeadNormal.weakHead {table : Table} {w : Term} (h : HeadNormal table w) :
    WeakHead table w w := by
  induction h with
  | bound | var | typ | all | lam => constructor
  | unknown hname => exact .unknown hname
  | app _ hlam ih => exact .stuck ih hlam

/-! ## Steps -/

/-- One step at the head of a term, and what it costs. -/
inductive HeadStep (table : Table) : Term → Nat → Term → Prop where
  | ann (d : Bool) (e ty : Term) : HeadStep table (.ann d e ty) 0 e
  | loc (s : Span) (e : Term) : HeadStep table (.loc s e) 0 e
  /-- A defined global gives way to its body. -/
  | unfold {name : DefName} {d : Definition} :
      table.find? name = some d → HeadStep table (.ref name) 1 d.body
  /-- A local definition is contracted. -/
  | letIn (n : BinderName) (dup : Bool) (e b : Term) :
      HeadStep table (.letIn n dup e b) 1 (b.instantiate [e])
  /-- An applied function is contracted. -/
  | beta (n : BinderName) (er er' : Bool) (a b : Term) :
      HeadStep table (.app (.lam n er b) a er') 1 (b.instantiate [a])
  /-- The head of an application is that of its function. -/
  | head {c : Nat} {f f' : Term} (a : Term) (er : Bool) :
      HeadStep table f c f' → HeadStep table (.app f a er) c (.app f' a er)

section

variable {table : Table} {c c' m n : Nat} {t u u' v w w' : Term}

/-- A function takes no step. -/
theorem HeadStep.isLam (h : HeadStep table t c u) : t.isLam = false := by
  cases h <;> rfl

/-- At most one step can be taken. -/
theorem HeadStep.unique (h : HeadStep table t c u) (h' : HeadStep table t c' u') :
    c = c' ∧ u = u' := by
  induction h generalizing c' u' with
  | ann | loc | letIn => cases h'; exact ⟨rfl, rfl⟩
  | unfold hname =>
    cases h' with
    | unfold hname' =>
      rw [hname] at hname'
      cases hname'
      exact ⟨rfl, rfl⟩
  -- a function takes no step at its head, so the two rules for applications exclude each other
  | beta =>
    cases h' with
    | beta => exact ⟨rfl, rfl⟩
    | head _ _ hf => cases hf
  | head a er hf ih =>
    cases h' with
    | beta => cases hf
    | head _ _ hf' =>
      obtain ⟨rfl, rfl⟩ := ih hf'
      exact ⟨rfl, rfl⟩

/-- The terms in head normal form are those that take no step. -/
theorem headNormal_iff : HeadNormal table t ↔ ∀ c u, ¬ HeadStep table t c u := by
  constructor
  · intro ht
    induction ht with
    | bound | var | typ | all | lam => nofun
    | unknown hname =>
      rintro _ _ ⟨⟩
      rename_i hname'
      rw [hname] at hname'
      cases hname'
    | app _ hlam ih =>
      -- a step would be a contraction, or a step of the head
      intro c u h
      cases h with
      | beta => cases hlam
      | head _ _ hf => exact ih _ _ hf
  · intro ht
    induction t with
    | bound | var | typ | all | lam => constructor
    | ann d e ty => exact absurd (.ann d e ty) (ht _ _)
    | loc s e => exact absurd (.loc s e) (ht _ _)
    | letIn n dup e b => exact absurd (.letIn n dup e b) (ht _ _)
    | ref name =>
      cases hname : table.find? name with
      | none => exact .unknown hname
      | some d => exact absurd (.unfold hname) (ht _ _)
    | app f a er ihf _ =>
      refine .app (ihf fun c u hf => ht _ _ (.head a er hf)) ?_
      cases f with
      | lam n er' b => exact absurd (.beta n er' er a b) (ht _ _)
      | _ => rfl

/-- A step leads to a term with the same normal form. -/
theorem WeakHead.of_headStep (h : HeadStep table t c u) (hu : WeakHead table u w) :
    WeakHead table t w := by
  induction h generalizing w with
  | ann => exact .ann hu
  | loc => exact .loc hu
  | unfold hname => exact .unfold hname hu
  | letIn => exact .letIn hu
  | beta => exact .beta (.lam _ _ _) hu
  | head _ _ _ ih =>
    cases hu with
    | beta hf hb => exact .beta (ih hf) hb
    | stuck hf hlam => exact .stuck (ih hf) hlam

/-! ## Sequences of steps -/

/-- A sequence of steps at the head of a term, and what they cost together. -/
inductive HeadPath (table : Table) : Term → Nat → Term → Prop where
  | refl (t : Term) : HeadPath table t 0 t
  | step {c n : Nat} {t u v : Term} :
      HeadStep table t c u → HeadPath table u n v → HeadPath table t (c + n) v

namespace HeadPath

theorem of_step (h : HeadStep table t c u) : HeadPath table t c u :=
  .step h (.refl u)

theorem trans (h : HeadPath table t m u) (h' : HeadPath table u n v) :
    HeadPath table t (m + n) v := by
  induction h with
  | refl => rwa [Nat.zero_add]
  | step hstep _ ih =>
    rw [Nat.add_assoc]
    exact .step hstep (ih h')

/-- The steps of a function are steps of its application. -/
theorem app (h : HeadPath table t n u) (a : Term) (er : Bool) :
    HeadPath table (.app t a er) n (.app u a er) := by
  induction h with
  | refl => exact .refl _
  | step hstep _ ih => exact .step (.head a er hstep) ih

/-- A sequence that has come to its end continues every other sequence from the same term. -/
theorem exists_rest (h : HeadPath table t m u) (h' : HeadPath table t n w)
    (hw : HeadNormal table w) : ∃ r, HeadPath table u r w ∧ m + r = n := by
  induction h generalizing n with
  | refl => exact ⟨n, h', Nat.zero_add n⟩
  | step hstep _ ih =>
    cases h' with
    -- the shorter sequence can not go past the normal form that ends the longer one
    | refl => exact absurd hstep (headNormal_iff.1 hw _ _)
    | step hstep' h' =>
      obtain ⟨rfl, rfl⟩ := hstep.unique hstep'
      obtain ⟨r, hr, rfl⟩ := ih h'
      exact ⟨r, hr, Nat.add_assoc _ _ _⟩

/-- A sequence has one end, and one cost up to there. -/
theorem unique (h : HeadPath table t m w) (hw : HeadNormal table w) (h' : HeadPath table t n w')
    (hw' : HeadNormal table w') : w = w' ∧ m = n := by
  obtain ⟨r, hr, rfl⟩ := h.exists_rest h' hw'
  cases hr with
  | refl => exact ⟨rfl, rfl⟩
  | step hstep => exact absurd hstep (headNormal_iff.1 hw _ _)

/-- The end of a sequence is the normal form of the term. -/
theorem weakHead (h : HeadPath table t n w) (hw : WeakHead table w w) : WeakHead table t w := by
  induction h with
  | refl => exact hw
  | step hstep _ ih => exact .of_headStep hstep (ih hw)

end HeadPath

/-! ## Head normal forms are returned as they are -/

namespace Kernel

theorem returns_self_of_headNormal (ht : HeadNormal table t) (k : Kernel) :
    Returns (fun d => reduce table d t) k (.ok t k) := by
  induction ht with
  | bound | var | typ | all | lam => exact .of_succ (returns_const rfl (isAnswer_ok _ k))
  | unknown hname =>
    refine .of_succ ?_
    simp only [reduce, hname]
    exact returns_const rfl (isAnswer_ok _ k)
  | @app f a er _ hlam ih =>
    refine .of_succ ?_
    simp only [reduce]
    -- the head is returned as it is, and it is no function
    refine ih.bind ?_
    cases f with
    | lam => cases hlam
    | _ => exact returns_const rfl (isAnswer_ok _ k)

/-- What reduction returns is in head normal form, and the terms in head normal form are exactly
those that reduction returns as they are, in an unchanged state and under every budget. -/
theorem reduce_fixes_headNormal (table : Table) (t : Term) :
    (∀ k k' w, Returns (fun d => reduce table d t) k (.ok w k') → HeadNormal table w) ∧
    (HeadNormal table t ↔ ∀ k, Returns (fun d => reduce table d t) k (.ok t k)) := by
  have hnormal : ∀ k k' w, Returns (fun d => reduce table d t) k (.ok w k') →
      HeadNormal table w := by
    intro k k' w h
    obtain ⟨d, hd⟩ := h.exists_depth
    exact (weakHead_of_reduce hd).headNormal
  exact ⟨hnormal, returns_self_of_headNormal, fun h => hnormal default _ _ (h default)⟩

end Kernel

/-! ## Reduction goes along the sequence of steps -/

/-- The budget has so many steps left, or no limit. -/
def Fuel.Affords (f : Fuel) (n : Nat) : Prop :=
  ∀ limit, f.limit = some limit → n ≤ limit - f.used

theorem Fuel.affords_of_unlimited {f : Fuel} (h : f.limit = none) (n : Nat) : f.Affords n := by
  intro limit hlimit
  rw [h] at hlimit
  cases hlimit

theorem Fuel.Affords.mono {f : Fuel} (h : f.Affords n) (hle : m ≤ n) : f.Affords m :=
  fun limit hlimit => Nat.le_trans hle (h limit hlimit)

namespace Kernel

variable {k k' : Kernel} {d : Nat} {e : OutOfFuel}

/-- `k'` is a state in which `n` more steps of the budget of `k` have been taken. -/
structure Spends (k : Kernel) (n : Nat) (k' : Kernel) : Prop where
  limit : k'.fuel.limit = k.fuel.limit
  used : k'.fuel.used = k.fuel.used + n
  affords : k.fuel.Affords n

theorem Spends.refl (k : Kernel) : Spends k 0 k :=
  ⟨rfl, rfl, fun _ _ => Nat.zero_le _⟩

theorem Spends.fuel (h : Spends k n k') : k'.fuel = ⟨k.fuel.limit, k.fuel.used + n⟩ := by
  rw [← h.limit, ← h.used]

/-- What is left after some steps is what was left before them, less those steps. -/
theorem Spends.affords_iff (h : Spends k m k') : k'.fuel.Affords n ↔ k.fuel.Affords (m + n) := by
  have hm := h.affords
  simp only [Fuel.Affords, h.limit, h.used] at hm ⊢
  refine forall₂_congr fun limit hlimit => ?_
  have := hm limit hlimit
  omega

theorem Spends.trans {k'' : Kernel} (h : Spends k m k') (h' : Spends k' n k'') :
    Spends k (m + n) k'' where
  limit := h'.limit.trans h.limit
  used := by rw [h'.used, h.used, Nat.add_assoc]
  affords := h.affords_iff.1 h'.affords

theorem spends_of_burn (h : burn k = .ok () k') : Spends k 1 k' := by
  obtain ⟨hallowed, rfl⟩ := burn_eq_ok_iff.1 h
  exact ⟨rfl, rfl, fun limit hlimit => Nat.le_sub_of_add_le' (hallowed limit hlimit)⟩

/-- A step is refused if none is left. -/
theorem not_affords_of_burn {halt : Halt OutOfFuel} (h : burn k = .error halt k') :
    ∃ limit, halt = .failed ⟨limit⟩ ∧ k.fuel.limit = some limit ∧ ¬ k.fuel.Affords 1 := by
  obtain ⟨limit, hlimit, hle, rfl, rfl⟩ := burn_eq_error_iff.1 h
  -- one more step would need a limit above what is used
  refine ⟨limit, rfl, hlimit, fun haffords => ?_⟩
  have := haffords limit hlimit
  omega

/-- What the ending of a reduction from the state `k` says about the steps of the term. -/
inductive EndsAlong (table : Table) (k : Kernel) (t : Term) :
    EStateM.Result (Halt OutOfFuel) Kernel Term → Prop where
  /-- The sequence of steps ends in what is returned, and its cost has been spent. -/
  | ok {n : Nat} {w : Term} {k' : Kernel} :
      HeadPath table t n w → HeadNormal table w → Spends k n k' → EndsAlong table k t (.ok w k')
  /-- The sequence of steps costs more than is left. -/
  | failed {n limit : Nat} {u : Term} {k' : Kernel} :
      HeadPath table t n u → ¬ k.fuel.Affords n → k.fuel.limit = some limit →
      EndsAlong table k t (.error (.failed ⟨limit⟩) k')
  | unfinished (k' : Kernel) : EndsAlong table k t (.error .unfinished k')

/-- The steps of a term may be taken before. -/
theorem EndsAlong.after {r : EStateM.Result (Halt OutOfFuel) Kernel Term}
    (h : EndsAlong table k' u r) (hpath : HeadPath table t m u) (hspends : Spends k m k') :
    EndsAlong table k t r := by
  cases h with
  | ok hrest hw hspends' => exact .ok (hpath.trans hrest) hw (hspends.trans hspends')
  | failed hrest haffords hlimit =>
    rw [hspends.affords_iff] at haffords
    exact .failed (hpath.trans hrest) haffords (hspends.limit.symm.trans hlimit)
  | unfinished k'' => exact .unfinished k''

/-- A step that costs one is taken if the budget allows it. -/
theorem EndsAlong.of_burn {f : Unit → KernelM Term} (hstep : HeadStep table t 1 u)
    (hnext : ∀ k', EndsAlong table k' u (f () k')) : EndsAlong table k t ((burn >>= f) k) := by
  have hpath := HeadPath.of_step hstep
  cases hburn : burn k with
  | ok _ k' =>
    rw [EStateM.bind_of_ok hburn]
    exact (hnext k').after hpath (spends_of_burn hburn)
  | error halt k' =>
    rw [EStateM.bind_of_error hburn]
    obtain ⟨limit, rfl, hlimit, haffords⟩ := not_affords_of_burn hburn
    exact .failed hpath haffords hlimit

/-- Whatever a reduction comes to within some depth, it has gone along the steps of the term. -/
theorem endsAlong_reduce (table : Table) (d : Nat) (t : Term) (k : Kernel) :
    EndsAlong table k t (reduce table d t k) := by
  induction d generalizing t k with
  -- without depth the reduction is cut off, and has said nothing about its sequence
  | zero => exact .unfinished k
  | succ d ih =>
    cases t with
    | bound i => exact .ok (.refl _) (.bound i) (.refl k)
    | var x => exact .ok (.refl _) (.var x) (.refl k)
    | typ => exact .ok (.refl _) .typ (.refl k)
    | all s n a b => exact .ok (.refl _) (.all s n a b) (.refl k)
    | lam n er b => exact .ok (.refl _) (.lam n er b) (.refl k)
    | ann d' e ty => exact (ih e k).after (.of_step (.ann d' e ty)) (.refl k)
    | loc s e => exact (ih e k).after (.of_step (.loc s e)) (.refl k)
    | letIn n dup e b => exact .of_burn (.letIn n dup e b) fun k' => ih _ k'
    | ref name =>
      simp only [reduce]
      cases hname : table.find? name with
      | none => exact .ok (.refl _) (.unknown hname) (.refl k)
      | some entry =>
        refine .of_burn (.unfold hname) fun k' => ?_
        -- noting the event leaves the budget alone
        have hnote : Spends k' 0 { k' with trace := .unfolding name :: k'.trace } :=
          ⟨rfl, rfl, fun _ _ => Nat.zero_le _⟩
        exact (ih entry.body _).after (.refl _) hnote
    | app f a er =>
      simp only [reduce]
      have hf := ih f k
      cases hhead : reduce table d f k with
      | error halt k' =>
        rw [EStateM.bind_of_error hhead]
        rw [hhead] at hf
        cases hf with
        | failed hpath haffords hlimit => exact .failed (hpath.app a er) haffords hlimit
        | unfinished => exact .unfinished k'
      | ok head k₁ =>
        rw [EStateM.bind_of_ok hhead]
        rw [hhead] at hf
        cases hf with
        | ok hpath hnormal hspends =>
          -- whether the application goes on depends on the head that was found
          refine EndsAlong.after ?_ (hpath.app a er) hspends
          cases head with
          | lam n er' b => exact .of_burn (.beta n er' er a b) fun k' => ih _ k'
          | _ => exact .ok (.refl _) (.app hnormal rfl) (.refl k₁)

/-- A term whose steps come to an end, or cost more than is left, is answered. -/
theorem terminates_of_headPath (hpath : HeadPath table t n w)
    (h : HeadNormal table w ∨ ¬ k.fuel.Affords n) : Terminates (fun d => reduce table d t) k := by
  cases hlimit : k.fuel.limit with
  | some limit =>
    have hk : k.Allows limit limit := .of_limit hlimit
    exact terminates_reduce table hk t
  | none =>
    rcases h with hw | hn
    · obtain ⟨k', -, hreturns⟩ := returns_of_weakHead (hpath.weakHead hw.weakHead) k hlimit
      exact ⟨_, hreturns⟩
    · exact absurd (Fuel.affords_of_unlimited hlimit n) hn

theorem endsAlong_of_returns {r : EStateM.Result (Halt OutOfFuel) Kernel Term}
    (h : Returns (fun d => reduce table d t) k r) : EndsAlong table k t r := by
  obtain ⟨d, rfl⟩ := h.exists_depth
  exact endsAlong_reduce table d t k

/-- The end of a sequence of steps whose cost is left is returned. -/
theorem returns_of_headPath (hpath : HeadPath table t n w) (hw : HeadNormal table w)
    (haffords : k.fuel.Affords n) :
    ∃ k', Returns (fun d => reduce table d t) k (.ok w k') ∧ Spends k n k' := by
  obtain ⟨r, hr⟩ := terminates_of_headPath (k := k) hpath (.inl hw)
  cases endsAlong_of_returns hr with
  | ok hpath' hw' hspends =>
    obtain ⟨rfl, rfl⟩ := hpath'.unique hw' hpath hw
    exact ⟨_, hr, hspends⟩
  -- the sequence is affordable as a whole, so no part of it has run out of fuel
  | failed hpath' hn =>
    obtain ⟨m, -, rfl⟩ := hpath'.exists_rest hpath hw
    exact absurd (haffords.mono (Nat.le_add_right _ m)) hn
  | unfinished => exact absurd rfl (hr.1 _)

/-- A term whose steps cost more than is left is not reduced to the end. -/
theorem fails_of_headPath (hpath : HeadPath table t n u) (hn : ¬ k.fuel.Affords n) :
    ∃ limit k', k.fuel.limit = some limit ∧
      Returns (fun d => reduce table d t) k (.error (.failed ⟨limit⟩) k') := by
  obtain ⟨r, hr⟩ := terminates_of_headPath (k := k) hpath (.inr hn)
  cases endsAlong_of_returns hr with
  | ok hpath' hw' hspends =>
    obtain ⟨m, -, rfl⟩ := hpath.exists_rest hpath' hw'
    exact absurd (hspends.affords.mono (Nat.le_add_right n m)) hn
  | failed _ _ hlimit => exact ⟨_, _, hlimit, hr⟩
  | unfinished => exact absurd rfl (hr.1 _)

/-- Reduction goes along the steps at the head: it returns a term iff the sequence of steps ends in
it and its cost is left, and then spends that cost; it runs out of fuel iff the sequence goes beyond
what is left. -/
theorem reduce_along_headPath (table : Table) (t : Term) (k : Kernel) :
    (∀ w n, (∃ k', Returns (fun d => reduce table d t) k (.ok w k') ∧
        k'.spent = k.spent + n) ↔
      HeadPath table t n w ∧ (∀ c u, ¬ HeadStep table w c u) ∧ k.fuel.Affords n) ∧
    ∀ e, (∃ k', Returns (fun d => reduce table d t) k (.error (.failed e) k')) ↔
      k.fuel.limit = some e.limit ∧ ∃ n u, HeadPath table t n u ∧ ¬ k.fuel.Affords n := by
  have along : ∀ {r}, Returns (fun d => reduce table d t) k r → EndsAlong table k t r := by
    intro r h
    obtain ⟨d, rfl⟩ := h.exists_depth
    exact endsAlong_reduce table d t k
  refine ⟨fun w n => ⟨?_, ?_⟩, fun e => ⟨?_, ?_⟩⟩
  · rintro ⟨k', h, hspent⟩
    cases along h with
    | ok hpath hw hspends =>
      cases Nat.add_left_cancel (hspends.used.symm.trans hspent)
      exact ⟨hpath, headNormal_iff.1 hw, hspends.affords⟩
  · rintro ⟨hpath, hw, haffords⟩
    have hw := headNormal_iff.2 hw
    -- the reduction is answered, and the sequence that its answer tells of is the given one
    obtain ⟨r, hr⟩ := terminates_of_headPath hpath (.inl hw)
    cases along hr with
    | ok hpath' hw' hspends =>
      obtain ⟨rfl, rfl⟩ := hpath'.unique hw' hpath hw
      exact ⟨_, hr, hspends.used⟩
    | failed hpath' hn =>
      -- no part of the sequence costs more than the whole
      obtain ⟨m, -, rfl⟩ := hpath'.exists_rest hpath hw
      exact absurd (haffords.mono (Nat.le_add_right _ m)) hn
    | unfinished => exact absurd rfl (hr.1 _)
  · rintro ⟨k', h⟩
    cases along h with
    | failed hpath haffords hlimit => exact ⟨hlimit, _, _, hpath, haffords⟩
  · rintro ⟨hlimit, n, u, hpath, haffords⟩
    obtain ⟨r, hr⟩ := terminates_of_headPath hpath (.inr haffords)
    cases along hr with
    | ok hpath' hw' hspends =>
      obtain ⟨m, -, rfl⟩ := hpath.exists_rest hpath' hw'
      exact absurd (hspends.affords.mono (Nat.le_add_right n m)) haffords
    | failed _ _ hlimit' =>
      cases hlimit.symm.trans hlimit'
      exact ⟨_, hr⟩
    | unfinished => exact absurd rfl (hr.1 _)

end Kernel

end

end SelfTypes
