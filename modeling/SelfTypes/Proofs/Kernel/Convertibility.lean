import SelfTypes.Proofs.Kernel.Equality
import SelfTypes.Proofs.Kernel.HeadReduction

/-!
# Convertibility

Terms that the kernel finds equal are convertible: neither reduces without the other, and what they
reduce to has the same head and convertible parts. Convertibility is the largest relation of this
kind. Main statements: `Convertible.of_equal`, by which what the kernel finds equal is convertible,
and `Convertible.of_bare_eq`, by which annotations and locations do not count.
-/

namespace SelfTypes

/-! ## Heads -/

namespace SameHead

variable {P P' Q : Term → Term → Prop} {B B' C : Nat → Term → Term → Prop} {a b c : Term}

theorem imp (h : SameHead P B a b) (hpart : ∀ a b, P a b → P' a b)
    (hbody : ∀ n b b', B n b b' → B' n b b') : SameHead P' B' a b := by
  cases h with
  | bound i => exact .bound i
  | var hid => exact .var hid
  | ref name => exact .ref name
  | typ => exact .typ
  | all ha hb => exact .all (hpart _ _ ha) (hbody _ _ _ hb)
  | lam hb => exact .lam (hbody _ _ _ hb)
  | app hf ha => exact .app (hpart _ _ hf) (hpart _ _ ha)

theorem symm (h : SameHead P B a b) (hpart : ∀ a b, P a b → P' b a)
    (hbody : ∀ n b b', B n b b' → B' n b' b) : SameHead P' B' b a := by
  cases h with
  | bound i => exact .bound i
  | var hid => exact .var hid.symm
  | ref name => exact .ref name
  | typ => exact .typ
  | all ha hb => exact .all (hpart _ _ ha) (hbody _ _ _ hb)
  | lam hb => exact .lam (hbody _ _ _ hb)
  | app hf ha => exact .app (hpart _ _ hf) (hpart _ _ ha)

theorem comp (h : SameHead P B a b) (h' : SameHead P B b c)
    (hpart : ∀ a b c, P a b → P b c → Q a c)
    (hbody : ∀ n a b c, B n a b → B n b c → C n a c) : SameHead Q C a c := by
  cases h with
  -- the term in the middle has one head, so both comparisons are of the same kind
  | bound i => cases h'; exact .bound i
  | var hid => cases h' with | var hid' => exact .var (hid.trans hid')
  | ref name => cases h'; exact .ref name
  | typ => cases h'; exact .typ
  | all ha hb =>
    cases h' with
    | all ha' hb' => exact .all (hpart _ _ _ ha ha') (hbody _ _ _ _ hb hb')
  | lam hb =>
    cases h' with
    | lam hb' => exact .lam (hbody _ _ _ _ hb hb')
  | app hf ha =>
    cases h' with
    | app hf' ha' => exact .app (hpart _ _ _ hf hf') (hpart _ _ _ ha ha')

theorem isLam_eq (h : SameHead P B a b) : a.isLam = b.isLam := by
  cases h <;> rfl

end SameHead

/-! ## Opening with all but some variables -/

/-- Two bodies that are related when they are opened with the same variables, whichever these are
but for finitely many. -/
def OpenedFresh (R : Term → Term → Prop) (arity : Nat) (b b' : Term) : Prop :=
  ∃ avoided : List VarId, ∀ xs : List Var, xs.length = arity → (xs.map Var.id).Nodup →
    (∀ x ∈ xs, x.id ∉ avoided) → R (b.instantiate (xs.map .var)) (b'.instantiate (xs.map .var))

section Opened

variable {R R' : Term → Term → Prop} {arity : Nat} {b b' b'' : Term}

theorem OpenedAlways.fresh (h : OpenedAlways R arity b b') : OpenedFresh R arity b b' := by
  refine ⟨b.freeIds ++ b'.freeIds, fun xs hlength hnodup havoided => h xs ⟨hlength, hnodup, ?_⟩⟩
  intro x hx
  exact not_or.1 fun hmem => havoided x hx (List.mem_append.2 hmem)

theorem OpenedFresh.imp (h : OpenedFresh R arity b b') (hR : ∀ a b, R a b → R' a b) :
    OpenedFresh R' arity b b' := by
  obtain ⟨avoided, h⟩ := h
  exact ⟨avoided, fun xs hlength hnodup hxs => hR _ _ (h xs hlength hnodup hxs)⟩

theorem OpenedFresh.symm (h : OpenedFresh R arity b b') (hR : ∀ a b, R a b → R' b a) :
    OpenedFresh R' arity b' b := by
  obtain ⟨avoided, h⟩ := h
  exact ⟨avoided, fun xs hlength hnodup hxs => hR _ _ (h xs hlength hnodup hxs)⟩

theorem OpenedFresh.comp (h : OpenedFresh R arity b b') (h' : OpenedFresh R arity b' b'')
    (hR : ∀ a b c, R a b → R b c → R' a c) : OpenedFresh R' arity b b'' := by
  obtain ⟨avoided, h⟩ := h
  obtain ⟨avoided', h'⟩ := h'
  -- what is new to both comparisons is new to each
  refine ⟨avoided ++ avoided', fun xs hlength hnodup hxs => ?_⟩
  have hleft : ∀ x ∈ xs, x.id ∉ avoided := fun x hx hmem =>
    hxs x hx (List.mem_append.2 (.inl hmem))
  have hright : ∀ x ∈ xs, x.id ∉ avoided' := fun x hx hmem =>
    hxs x hx (List.mem_append.2 (.inr hmem))
  exact hR _ _ _ (h xs hlength hnodup hleft) (h' xs hlength hnodup hright)

theorem exists_index_bound (ids : List VarId) : ∃ n, ∀ id ∈ ids, id.index < n := by
  induction ids with
  | nil => exact ⟨0, by simp⟩
  | cons id ids ih =>
    obtain ⟨n, hn⟩ := ih
    refine ⟨max n (id.index + 1), List.forall_mem_cons.2 ⟨by omega, fun id' hid' => ?_⟩⟩
    have hlt := hn id' hid'
    omega

/-- There are always variables to open a body with. -/
theorem exists_fresh_vars (avoided : List VarId) (arity : Nat) :
    ∃ xs : List Var, xs.length = arity ∧ (xs.map Var.id).Nodup ∧ ∀ x ∈ xs, x.id ∉ avoided := by
  induction arity with
  | zero => exact ⟨[], rfl, List.nodup_nil, by simp⟩
  | succ arity ih =>
    obtain ⟨xs, hlength, hnodup, hxs⟩ := ih
    -- an index beyond all that are in use
    obtain ⟨n, hn⟩ := exists_index_bound (avoided ++ xs.map Var.id)
    have hnew : (⟨0, n⟩ : VarId) ∉ avoided ++ xs.map Var.id := fun hmem =>
      Nat.lt_irrefl n (hn _ hmem)
    rw [List.mem_append, not_or] at hnew
    refine ⟨⟨⟨0, n⟩, ""⟩ :: xs, congrArg (· + 1) hlength, List.nodup_cons.2 ⟨hnew.2, hnodup⟩, ?_⟩
    exact List.forall_mem_cons.2 ⟨hnew.1, hxs⟩

end Opened

/-! ## Simulations -/

/-- Where the first of two related terms has a normal form, so has the second, with the same head
and related parts. -/
def IsSimulation (table : Table) (R : Term → Term → Prop) : Prop :=
  ∀ a b w, R a b → WeakHead table a w →
    ∃ w', WeakHead table b w' ∧ SameHead R (OpenedFresh R) w w'

/-- Terms that are related by a simulation in both directions. -/
def Convertible (table : Table) (a b : Term) : Prop :=
  ∃ R : Term → Term → Prop, (∀ a b, R a b → R b a) ∧ IsSimulation table R ∧ R a b

theorem WeakHead.sameHead_fresh {table : Table} {t w : Term} (h : WeakHead table t w)
    {R : Term → Term → Prop} (hR : ∀ t, R t t) : SameHead R (OpenedFresh R) w w :=
  (h.sameHead_self hR).imp (fun _ _ h => h) fun _ _ _ h => h.fresh

namespace Convertible

variable {table : Table} {a b c : Term}

theorem symm (h : Convertible table a b) : Convertible table b a := by
  obtain ⟨R, hsymm, hsim, hab⟩ := h
  exact ⟨R, hsymm, hsim, hsymm a b hab⟩

/-- Convertibility is a simulation itself. -/
theorem isSimulation (table : Table) : IsSimulation table (Convertible table) := by
  intro a b w h hw
  obtain ⟨R, hsymm, hsim, hab⟩ := h
  have hR : ∀ a b, R a b → Convertible table a b := fun a b h => ⟨R, hsymm, hsim, h⟩
  obtain ⟨w', hw', hhead⟩ := hsim a b w hab hw
  exact ⟨w', hw', hhead.imp hR fun _ _ _ h => h.imp hR⟩

/-- Terms with the same normal forms are convertible. -/
theorem of_weakHead_iff (h : ∀ w, WeakHead table a w ↔ WeakHead table b w) :
    Convertible table a b := by
  refine ⟨fun a b => ∀ w, WeakHead table a w ↔ WeakHead table b w, ?_, ?_, h⟩
  · intro a b h w
    exact (h w).symm
  · intro a b w h hw
    exact ⟨w, (h w).1 hw, hw.sameHead_fresh fun _ _ => Iff.rfl⟩

theorem refl (table : Table) (a : Term) : Convertible table a a :=
  of_weakHead_iff fun _ => Iff.rfl

/-- A term is convertible with its normal form. -/
theorem of_weakHead {w : Term} (h : WeakHead table a w) : Convertible table a w := by
  apply of_weakHead_iff
  intro w'
  refine ⟨?_, ?_⟩
  · intro h'
    -- a weak head is its own weak head, so both come to the same one
    rw [← h.unique h']
    exact h.idem
  · intro h'
    rw [← h.idem.unique h']
    exact h

theorem trans (hab : Convertible table a b) (hbc : Convertible table b c) :
    Convertible table a c := by
  -- the composition is a simulation: the normal form is passed on by the term in the middle
  refine ⟨fun a c => ∃ b, Convertible table a b ∧ Convertible table b c, ?_, ?_, b, hab, hbc⟩
  · intro a c h
    obtain ⟨b, hab, hbc⟩ := h
    exact ⟨b, hbc.symm, hab.symm⟩
  · intro a c w h hw
    obtain ⟨b, hab, hbc⟩ := h
    obtain ⟨w₁, hw₁, hhead₁⟩ := isSimulation table a b w hab hw
    obtain ⟨w₂, hw₂, hhead₂⟩ := isSimulation table b c w₁ hbc hw₁
    refine ⟨w₂, hw₂, hhead₁.comp hhead₂ (fun _ b _ h h' => ⟨b, h, h'⟩) ?_⟩
    intro n b b' b'' h h'
    exact h.comp h' fun _ b _ h h' => ⟨b, h, h'⟩

/-- Terms whose normal forms have the same head and convertible parts are convertible. -/
theorem of_sameHead {w w' : Term} (ha : WeakHead table a w) (hb : WeakHead table b w')
    (h : SameHead (Convertible table) (OpenedFresh (Convertible table)) w w') :
    Convertible table a b := by
  -- one pair more than the convertible ones, whose parts are convertible
  refine ⟨fun a b => Convertible table a b ∨ ∃ w w', WeakHead table a w ∧ WeakHead table b w' ∧
    SameHead (Convertible table) (OpenedFresh (Convertible table)) w w', ?_, ?_,
    .inr ⟨w, w', ha, hb, h⟩⟩
  · intro a b h
    rcases h with h | ⟨w, w', ha, hb, h⟩
    · exact .inl h.symm
    · refine .inr ⟨w', w, hb, ha, h.symm (fun _ _ => symm) fun _ _ _ h => ?_⟩
      exact h.symm fun _ _ => symm
  · intro a b v h hv
    have hle : ∀ w w',
        SameHead (Convertible table) (OpenedFresh (Convertible table)) w w' → SameHead
          (fun a b => Convertible table a b ∨ ∃ w w', WeakHead table a w ∧ WeakHead table b w' ∧
            SameHead (Convertible table) (OpenedFresh (Convertible table)) w w')
          (OpenedFresh fun a b => Convertible table a b ∨ ∃ w w', WeakHead table a w ∧
            WeakHead table b w' ∧
            SameHead (Convertible table) (OpenedFresh (Convertible table)) w w') w w' :=
      fun w w' h => h.imp (fun _ _ => .inl) fun _ _ _ h => h.imp fun _ _ => .inl
    rcases h with h | ⟨w, w', ha, hb, h⟩
    · obtain ⟨v', hv', hhead⟩ := isSimulation table a b v h hv
      exact ⟨v', hv', hle _ _ hhead⟩
    · rw [ha.unique hv] at h
      exact ⟨w', hb, hle _ _ h⟩

/-- Terms that differ in annotations and locations only are convertible. -/
theorem of_bare_eq (h : a.bare = b.bare) : Convertible table a b := by
  refine ⟨fun a b => a.bare = b.bare, fun _ _ h => h.symm, ?_, h⟩
  intro a b w h hw
  obtain ⟨i, hi⟩ := hw.exists_weakHeadIn
  obtain ⟨w', hw', hbare⟩ := hi.of_bare_eq h.symm
  refine ⟨w', hw'.weakHead, ?_⟩
  have hopened : ∀ n b b', b.bare = b'.bare →
      OpenedFresh (fun a b : Term => a.bare = b.bare) n b b' := by
    -- any variables will do, as bare terms stay equal under the same opening
    intro n b b' h
    exact ⟨[], fun xs _ _ _ => Term.bare_instantiate_congr h rfl⟩
  -- both normal forms start with something else than an annotation or a location
  have hunwrapped := hw'.isWrapped
  have hhead := hw.sameHead_self (R := Eq) fun _ => rfl
  cases hhead with
  | bound i =>
    cases Term.eq_of_bare hunwrapped rfl hbare
    exact .bound i
  | var =>
    cases Term.eq_of_bare hunwrapped rfl hbare
    exact .var rfl
  | ref name =>
    cases Term.eq_of_bare hunwrapped rfl hbare
    exact .ref name
  | typ =>
    cases Term.eq_of_bare hunwrapped rfl hbare
    exact .typ
  | all =>
    obtain ⟨a', b', rfl, ha, hb⟩ := Term.exists_all_of_bare hunwrapped hbare
    exact .all ha.symm (hopened _ _ _ hb.symm)
  | lam =>
    obtain ⟨b', rfl, hb⟩ := Term.exists_lam_of_bare hunwrapped hbare
    exact .lam (hopened _ _ _ hb.symm)
  | app =>
    obtain ⟨f', a', rfl, hf, ha⟩ := Term.exists_app_of_bare hunwrapped hbare
    exact .app hf.symm ha.symm

/-- What some bisimulation relates is convertible. -/
theorem of_isBisimulation {R : Term → Term → Prop} (hR : IsBisimulation table R) (hab : R a b) :
    Convertible table a b := by
  -- a bisimulation need be neither symmetric nor reflexive
  refine ⟨fun a b => a = b ∨ R a b ∨ R b a, ?_, ?_, .inr (.inl hab)⟩
  · intro a b h
    rcases h with rfl | h | h
    · exact .inl rfl
    · exact .inr (.inr h)
    · exact .inr (.inl h)
  · have hle : ∀ a b, R a b → a = b ∨ R a b ∨ R b a := fun _ _ h => .inr (.inl h)
    have hflip : ∀ b a, R b a → a = b ∨ R a b ∨ R b a := fun _ _ h => .inr (.inr h)
    intro a b w h hw
    -- the same term twice, a pair of the bisimulation, or such a pair the other way round
    rcases h with rfl | h | h
    · exact ⟨w, hw, hw.sameHead_fresh fun _ => .inl rfl⟩
    · rcases hR a b h with rfl | ⟨a', b', ha, hb, hhead⟩
      · exact ⟨w, hw, hw.sameHead_fresh fun _ => .inl rfl⟩
      · rw [← ha.unique hw]
        exact ⟨b', hb, hhead.imp hle fun _ _ _ h => h.fresh.imp hle⟩
    · rcases hR b a h with rfl | ⟨b', a', hb, ha, hhead⟩
      · exact ⟨w, hw, hw.sameHead_fresh fun _ => .inl rfl⟩
      · rw [← ha.unique hw]
        refine ⟨b', hb, ?_⟩
        exact hhead.symm hflip fun _ _ _ h => h.fresh.symm hflip

/-- What the kernel finds equal is convertible. -/
theorem of_equal (htable : table.IsVarFree) {depth : Nat} {k k' : Kernel} (ha : k.Avoids a)
    (hb : k.Avoids b) (h : Kernel.equal table depth a b k = .ok true k') :
    Convertible table a b := by
  have haccepts : Kernel.Accepts table [] a b := ⟨depth, k, k', ha, hb, h⟩
  have hrelated := Kernel.Related.accepted (σ := id) .nil haccepts fun _ _ hid => hid
  rw [Term.rename_id, Term.rename_id] at hrelated
  exact of_isBisimulation (Kernel.isBisimulation_related htable) hrelated

end Convertible

end SelfTypes
