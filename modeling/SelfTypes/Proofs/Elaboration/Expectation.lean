import SelfTypes.Proofs.Elaboration.Derivation
import SelfTypes.Proofs.Term.Literal

/-!
# The type that checking comes to

Checking a term against a type comes to that type. There are two exceptions: what is checked against
the universe is given the universe itself, and a literal keeps the type of literals, whatever it is
checked against. A literal is found through locations and in the body of a local definition, which
is where `Term.outcome` looks. Main statement: `Elaborator.equal_of_check`, by which the type that
checking comes to is found equal to the expected one unless it is the type of a literal.
-/

namespace SelfTypes

namespace Term

/-! ## What a term comes to -/

/-- What stands in the body of all local definitions that a term begins with, without the locations
around it. -/
def outcome : Term → Term
  | letIn _ _ _ b => b.outcome
  | loc _ e => e.outcome
  | t => t

theorem literal?_outcome_openAt {values : List Term} (hvalues : ∀ v ∈ values, v.isAnn = true)
    (t : Term) (depth : Nat) :
    Elaborator.literal? (t.openAt values depth).outcome = Elaborator.literal? t.outcome := by
  induction t generalizing depth with
  | bound i =>
    obtain ⟨j, hj⟩ | ⟨done, e, ty, hann⟩ := openIndex_of_isAnn hvalues depth i
    · rw [openAt_bound, hj]
      rfl
    · rw [openAt_bound, hann]
      rfl
  -- under a local definition the values are opened one level further in
  | letIn _ _ _ _ _ ih => exact ih (depth + 1)
  | loc _ _ ih => exact ih depth
  | _ => exact literal?_openAt hvalues _ depth

/-- The outcome of a local definition is a literal if that of its body is, whatever stands for the
variable. -/
theorem literal?_outcome_instantiate (b : Term) (dup : Bool) (x : Var) (e ty : Term) :
    Elaborator.literal? (b.instantiate [letStandIn dup x e ty]).outcome =
      Elaborator.literal? b.outcome := by
  show Elaborator.literal? (b.openAt [letStandIn dup x e ty] 0).outcome = _
  exact literal?_outcome_openAt (List.forall_mem_singleton.2 rfl) b 0

/-- A literal is its own outcome, up to locations. -/
theorem literal?_outcome_of_some {t : Term} {r : Elaborated}
    (h : Elaborator.literal? t = some r) : Elaborator.literal? t.outcome = some r := by
  induction t with
  | loc _ _ ih => exact ih h
  | letIn => cases isPlain_of_literal? h
  | _ => exact h

end Term

/-! ## Checking -/

/-- The type that checking comes to is the expected one, or the universe in its place, or that of a
literal. -/
theorem Derives.ty_of_analysis {env : Environment} {ctx : Context} {t ty : Term} {k k' : Kernel}
    {r : Elaborated} (h : Derives env ctx t (.analysis ty) k r k') :
    r.ty = ty ∨ (r.ty = .typ ∧ WeakHead env.table ty .typ) ∨
      ∃ lit, Elaborator.literal? t.outcome = some lit ∧ r.ty = lit.ty := by
  generalize hmode : Mode.analysis ty = mode at h
  -- on the derivation; only the rules of checking are left, and they all have the one type
  induction h with
  | later _ _ _ ih => exact ih hmode
  | var | ref | typ | all | app | ann => cases hmode
  | letIn _ _ _ _ ih =>
    -- opening the body does not change which literal it comes to
    obtain hty | htype | ⟨lit, hlit, hty⟩ := ih hmode
    · exact .inl hty
    · exact .inr (.inl htype)
    · rw [Term.literal?_outcome_instantiate] at hlit
      exact .inr (.inr ⟨lit, hlit, hty⟩)
  | loc _ _ ih => exact ih hmode
  | literal hliteral => exact .inr (.inr ⟨_, Term.literal?_outcome_of_some hliteral, rfl⟩)
  | type hty =>
    cases hmode
    exact .inr (.inl ⟨rfl, hty⟩)
  | lam | infer =>
    cases hmode
    exact .inl rfl

namespace Kernel

/-- A term is found equal to itself, whether it has a normal form or not. -/
theorem returns_equal_self (table : Table) (t : Term) (k : Kernel) :
    Returns (fun d => equal table d t t) k (.ok true k) := by
  apply Returns.of_succ
  simp only [equal, equalUnder, if_true]
  exact returns_const rfl (isAnswer_ok true k)

/-- Terms with one and the same weak head normal form are found equal. -/
theorem returns_equal_of_weakHead {table : Table} {a b w : Term} (ha : WeakHead table a w)
    (hb : WeakHead table b w) {k : Kernel} (hk : k.fuel.limit = none) :
    ∃ k', Returns (fun d => equal table d a b) k (.ok true k') := by
  -- equal terms are found equal before they are reduced
  by_cases hab : a = b
  · subst hab
    exact ⟨k, returns_equal_self table a k⟩
  · obtain ⟨k₁, hk₁, ha⟩ := returns_of_weakHead ha k hk
    obtain ⟨k₂, -, hb⟩ := returns_of_weakHead hb k₁ hk₁
    refine ⟨k₂, .of_succ ?_⟩
    simp only [equal, equalUnder, hab, if_false]
    refine ha.bind (hb.bind ?_)
    -- both sides come to the one weak head, and the comparison ends there
    simp only [true_or, if_true]
    exact returns_const rfl (isAnswer_ok true k₂)

end Kernel

namespace Elaborator

/-- Unless the term comes to a character or a string that decodes, which has its own type whatever
is expected, the type that checking comes to is found equal to the expected one, with and without
subsumption. -/
theorem equal_of_check {env : Environment} {depth : Nat} {ctx : Context} {t ty : Term}
    {e e' : Elaborator} {r : Elaborated} (h : check env depth ctx t ty e = .ok r e') {k : Kernel}
    (hk : k.fuel.limit = none) :
    (∃ k', Returns (fun d => Kernel.equal env.table d r.ty ty) k (.ok true k')) ∨
      (∃ c, t.outcome.decodeChar? = some c ∧ r.ty = .ref "Char") ∨
        ∃ s, t.outcome.decodeString? = some s ∧ r.ty = .ref "String" := by
  obtain hty | ⟨htyp, hty⟩ | ⟨lit, hliteral, hty⟩ := (derives_of_check h).ty_of_analysis
  · rw [hty]
    exact .inl ⟨k, Kernel.returns_equal_self env.table ty k⟩
  · rw [htyp]
    exact .inl (Kernel.returns_equal_of_weakHead .typ hty hk)
  -- a literal is a character or a string, and each has a type of its own
  · obtain ⟨c, hc, rfl⟩ | ⟨s, hs, rfl⟩ := exists_of_literal? hliteral
    · exact .inr (.inl ⟨c, hc, hty⟩)
    · exact .inr (.inr ⟨s, hs, hty⟩)

/-- A name for the universe. -/
def universeName : Table :=
  .ofList [⟨"U", .typ, .typ⟩]

/-- What is checked against a name for the universe is given the universe, which is found equal to
the name. -/
theorem universeName_of_check :
    ∃ e', check ⟨universeName, true⟩ 3 .empty (.ref "U") (.ref "U") (.start ⟨0, 0⟩ none) =
        .ok ⟨.nul, .typ⟩ e' ∧
      ∃ k', Returns (fun d => Kernel.equal universeName d .typ (.ref "U")) (.start ⟨0, 0⟩ none)
        (.ok true k') := by
  obtain ⟨e', h⟩ : ∃ e', check ⟨universeName, true⟩ 3 .empty (.ref "U") (.ref "U")
      (.start ⟨0, 0⟩ none) = .ok ⟨.nul, .typ⟩ e' :=
    EStateM.Result.exists_ok_of_value? (by decide +kernel)
  refine ⟨e', h, ?_⟩
  -- a global other than the empty string is no literal
  have hnone : (Term.outcome (.ref "U")).NoLiteral := ⟨rfl, rfl⟩
  obtain hequal | ⟨c, hc, -⟩ | ⟨s, hs, -⟩ := equal_of_check h (k := .start ⟨0, 0⟩ none) rfl
  · exact hequal
  · exact absurd hc (hnone.decodeChar?_ne c)
  · exact absurd hs (hnone.decodeString?_ne s)

/-- The character `a`. -/
def letter : Term :=
  .app (.ref "U16.new") (Term.encodeWord Term.charBits 97) false

/-- A character is accepted where a truth value is expected, and its type is found different from
the expected one. -/
theorem letter_at_other_type :
    (∃ e', check ⟨.empty, true⟩ 1 .empty letter (.ref "Bool") (.start ⟨0, 0⟩ none) =
        .ok ⟨.chr 'a', .ref "Char"⟩ e') ∧
      ∃ k', Returns (fun d => Kernel.equal .empty d (.ref "Char") (.ref "Bool"))
        (.start ⟨0, 0⟩ none) (.ok false k') := by
  refine ⟨EStateM.Result.exists_ok_of_value? (by decide +kernel), ?_⟩
  apply (Kernel.deepens_equal .empty (.ref "Char") (.ref "Bool")).returns_of_value? _ false 2
  decide +kernel

end Elaborator

end SelfTypes
