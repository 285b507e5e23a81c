import SelfTypes.Proofs.Term.Substitution

/-!
# Opening scopes one after the other

A body under several binders can be opened with all values at once, or with those of the inner
binders first and with those of the outer ones after that. The first pass lowers the indices of the
outer binders to where the second one looks for them, and the second one must find no index in the
values of the first, which therefore have to be locally closed. Main statement:
`opening_at_once_or_in_turn`.
-/

namespace SelfTypes.Term

/-- An index becomes the same whether it is opened with all values, listed innermost first, or with
the inner ones and then with the outer ones. -/
theorem openAt_openIndex {inner : List Term} (hinner : ∀ v ∈ inner, v.IsLocallyClosed)
    (outer : List Term) (depth i : Nat) :
    (openIndex inner depth i).openAt outer depth = openIndex (inner ++ outer) depth i := by
  by_cases hi : i < depth
  · -- a binder inside the body
    have hstays : ∀ values : List Term, openIndex values depth i = bound i := fun values => by
      rw [openIndex, if_pos hi]
    rw [hstays, hstays, openAt_bound, hstays]
  rcases Nat.lt_or_ge (i - depth) inner.length with hin | hout
  · -- an inner binder of the scope: nothing in its value gives way to an outer value
    have hclosed : inner[i - depth].IsLocallyClosed := hinner _ (List.getElem_mem hin)
    simp only [openIndex, hi, if_false, List.getElem?_append_left hin, List.getElem?_eq_getElem hin]
    exact (hclosed.mono (Nat.zero_le depth)).openAt_eq
  · -- an outer binder of the scope, or one beyond it
    have hlow : ¬ i - inner.length < depth := by omega
    have hplace : i - inner.length - depth = i - depth - inner.length := by omega
    have hbeyond : i - inner.length - outer.length = i - (inner ++ outer).length := by
      rw [List.length_append, Nat.sub_sub]
    simp only [openIndex, hi, if_false, List.getElem?_append_right hout,
      List.getElem?_eq_none hout, openAt_bound, hlow, hplace, hbeyond]

theorem openAt_openAt {inner : List Term} (hinner : ∀ v ∈ inner, v.IsLocallyClosed)
    (outer : List Term) (t : Term) (depth : Nat) :
    (t.openAt inner depth).openAt outer depth = t.openAt (inner ++ outer) depth := by
  induction t generalizing depth with
  | bound i => exact openAt_openIndex hinner outer depth i
  | var | ref | typ => rfl
  | lam _ _ _ ih => simp only [openAt_lam, ih]
  | loc _ _ ih => simp only [openAt_loc, ih]
  | all _ _ _ _ ih₁ ih₂ => simp only [openAt_all, ih₁, ih₂]
  | app _ _ _ ih₁ ih₂ => simp only [openAt_app, ih₁, ih₂]
  | letIn _ _ _ _ ih₁ ih₂ => simp only [openAt_letIn, ih₁, ih₂]
  | ann _ _ _ ih₁ ih₂ => simp only [openAt_ann, ih₁, ih₂]

/-- Opening a scope with outer and inner values at once is opening it with the inner values and the
result with the outer ones. -/
theorem instantiate_append {inner : List Term} (hinner : ∀ v ∈ inner, v.IsLocallyClosed)
    (outer : List Term) (t : Term) :
    t.instantiate (outer ++ inner) = (t.instantiate inner).instantiate outer := by
  simp only [instantiate_eq_openAt, List.reverse_append]
  exact (openAt_openAt (fun v hv => hinner v (List.mem_reverse.1 hv)) outer.reverse t 0).symm

/-- A locally closed term has nothing for the values of a scope to replace. -/
theorem ClosedAt.instantiate_eq {t : Term} (ht : t.IsLocallyClosed) (args : List Term) :
    t.instantiate args = t := by
  rw [instantiate_eq_openAt]
  exact ht.openAt_eq

/-- The binders of a scope can be opened all at once or in turn, the inner ones first, if the values
of the inner ones are locally closed; and a locally closed term stays the same whatever values a
scope around it is opened with. -/
theorem opening_at_once_or_in_turn (t : Term) :
    (∀ outer inner : List Term, (∀ v ∈ inner, v.IsLocallyClosed) →
      t.instantiate (outer ++ inner) = (t.instantiate inner).instantiate outer) ∧
    (t.IsLocallyClosed → ∀ args : List Term, t.instantiate args = t) :=
  ⟨fun outer _ hinner => instantiate_append hinner outer t, fun ht args => ht.instantiate_eq args⟩

/-- `(y) => ^1(^3)<^4>` below the binders of `a`, `b` and `c`: the index of an inner binder, of the
outer one and of one beyond them, all passing the binder of `y`. -/
def reachingTerm : Term :=
  .lam "y" false (.app (.app (.bound 1) (.bound 3) false) (.bound 4) true)

/-- Three binders opened at once, or the inner two and then the outer one; and what comes of it
closed terms leaves alone. -/
theorem reachingTerm_opened_in_turn :
    reachingTerm.instantiate [.ref "a", .typ, .lam "z" true (.bound 0)] =
        (reachingTerm.instantiate [.typ, .lam "z" true (.bound 0)]).instantiate [.ref "a"] ∧
    reachingTerm.instantiate [.ref "a", .typ, .lam "z" true (.bound 0)] =
        .lam "y" false (.app (.app (.lam "z" true (.bound 0)) (.ref "a") false) (.bound 1) true) ∧
    (Term.lam "z" true (.bound 0)).instantiate [.typ, .ref "a"] = .lam "z" true (.bound 0) :=
  ⟨(opening_at_once_or_in_turn reachingTerm).1 [.ref "a"] [.typ, .lam "z" true (.bound 0)]
      (by decide),
    rfl, (opening_at_once_or_in_turn (.lam "z" true (.bound 0))).2 (by decide) [.typ, .ref "a"]⟩

end SelfTypes.Term
