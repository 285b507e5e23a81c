import SelfTypes.Proofs.Kernel.Alike
import SelfTypes.Proofs.Kernel.Interchange

/-!
# Wrappers and names do not count

The outline of a term is what is left of it without annotations, locations and names. Unfolding and
contraction take place in the outline: what surrounds a term is dropped on the way to its normal
form, and names are never looked at. So terms with one outline are convertible, although neither
need be the other's normal form, and no comparison ever tells them apart. Main statement:
`equal_ne_false_of_outline_eq`.
-/

namespace SelfTypes

namespace Term

/-- The term with no names of binders and variables; variables keep their identity. -/
def nameless : Term → Term
  | bound i => bound i
  -- a variable is its identifier, and its name is only for display
  | var x => var ⟨x.id, ""⟩
  | ref n => ref n
  | typ => typ
  | all _ _ a b => all "" "" a.nameless b.nameless
  | lam _ er b => lam "" er b.nameless
  | app f a er => app f.nameless a.nameless er
  | letIn _ d e b => letIn "" d e.nameless b.nameless
  | ann d e t => ann d e.nameless t.nameless
  | loc s e => loc s e.nameless

/-- The term without annotations, locations and names, at any depth. -/
def outline (t : Term) : Term :=
  t.bare.nameless

/-- A term differs from its nameless form in names only. -/
theorem alike_nameless (t : Term) : t.Alike (fun x x' => x.id = x'.id) t.nameless := by
  induction t with
  | bound i => exact .bound i
  | var x => exact .var rfl
  | ref n => exact .ref n
  | typ => exact .typ
  | all _ _ _ _ iha ihb => exact .all iha ihb
  | lam _ _ _ ih => exact .lam ih
  | app _ _ _ ihf iha => exact .app ihf iha
  | letIn _ _ _ _ ihe ihb => exact .letIn ihe ihb
  | ann _ _ _ ihe iht => exact .ann ihe iht
  | loc _ _ ih => exact .loc ih

/-- The same with the variables of the term paired with themselves. -/
theorem nameless_alike_diagonal (t : Term) :
    t.nameless.Alike (Paired (t.freeIds.dedup.map fun id => (id, id))) t := by
  have h : t.Alike (fun x x' => x.id = x'.id ∧ x.id ∈ t.freeIds) t.nameless :=
    t.alike_nameless.imp fun _ _ hx heq => ⟨heq, hx⟩
  refine h.symm.mono fun x' x hx => ?_
  simpa [Paired, hx.1] using hx.1 ▸ hx.2

theorem freeIds_nameless (t : Term) : t.nameless.freeIds = t.freeIds := by
  induction t <;> simp_all [nameless, freeIds]

end Term

/-! ## Convertibility -/

namespace Convertible

variable {table : Table} {a b : Term}

/-- Terms that differ in names only are convertible. -/
theorem of_nameless_eq (hfree : table.IsVarFree) (h : a.nameless = b.nameless) :
    Convertible table a b := by
  have hids : a.freeIds = b.freeIds := by
    rw [← a.freeIds_nameless, h, b.freeIds_nameless]
  have hb := b.nameless_alike_diagonal
  rw [← h, ← hids] at hb
  exact Convertible.alike (.refl table) hfree (OneToOne.diagonal a.freeIds)
    a.nameless_alike_diagonal hb (.refl table a.nameless)

/-- Terms that differ in annotations, locations and names only are convertible. -/
theorem of_outline_eq (hfree : table.IsVarFree) (h : a.outline = b.outline) :
    Convertible table a b := by
  have ha : Convertible table a a.bare := of_bare_eq a.bare_bare.symm
  have hb : Convertible table b.bare b := of_bare_eq b.bare_bare
  exact (ha.trans (of_nameless_eq hfree h)).trans hb

end Convertible

/-! ## Comparison -/

namespace Kernel

variable {table : Table} {a b : Term} {k : Kernel}

/-- Terms with one outline are never found unequal: whatever the budget, and however long the
comparison goes on, it does not end with a refusal. -/
theorem equal_ne_false_of_outline_eq (hfree : table.IsVarFree) (ha : k.Avoids a)
    (hb : k.Avoids b) (h : a.outline = b.outline) (depth : Nat) (k' : Kernel) :
    equal table depth a b k ≠ .ok false k' :=
  equalUnder_ne_false_of_convertible hfree ha hb (.of_outline_eq hfree h)

/-- A self type with annotations and locations around its parts. -/
def wrappedType : Term :=
  .loc ⟨0, 9⟩ (.all "s" "y" (.ann true (.ref "A") .typ)
    (.loc ⟨3, 4⟩ (.ann false (.app (.bound 0) (.var ⟨⟨1, 0⟩, "v"⟩) false) .typ)))

/-- The same self type without them, and with other names. -/
def plainType : Term :=
  .all "t" "z" (.ref "A") (.app (.bound 0) (.var ⟨⟨1, 0⟩, "w"⟩) false)

/-- The two forms of the self type are not refused, and two steps are enough to accept them. -/
theorem wrappedType_ne_false :
    (twins.IsVarFree ∧ (Kernel.start ⟨0, 0⟩ (some 2)).Avoids wrappedType ∧
      (Kernel.start ⟨0, 0⟩ (some 2)).Avoids plainType ∧
      wrappedType.outline = plainType.outline ∧ wrappedType ≠ plainType) ∧
    (∀ depth k', equal twins depth wrappedType plainType (.start ⟨0, 0⟩ (some 2)) ≠
      .ok false k') ∧
    ∃ k', Returns (fun d => equal twins d wrappedType plainType) (.start ⟨0, 0⟩ (some 2))
      (.ok true k') := by
  have hfree : twins.IsVarFree := by decide
  have hwrapped : (Kernel.start ⟨0, 0⟩ (some 2)).Avoids wrappedType := by
    -- the variable is of another group than the one that the kernel issues from
    intro id hid hissue
    cases List.mem_singleton.1 hid
    cases hissue.1
  have hplain : (Kernel.start ⟨0, 0⟩ (some 2)).Avoids plainType := by
    intro id hid hissue
    cases List.mem_singleton.1 hid
    cases hissue.1
  have houtline : wrappedType.outline = plainType.outline := by decide
  refine ⟨⟨hfree, hwrapped, hplain, houtline, by decide⟩,
    equal_ne_false_of_outline_eq hfree hwrapped hplain houtline, ?_⟩
  exact (deepens_equal twins wrappedType plainType).returns_of_value? _ true 9 (by decide +kernel)

end Kernel

end SelfTypes
