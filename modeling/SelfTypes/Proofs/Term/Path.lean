import SelfTypes.Proofs.Term.Content
import SelfTypes.Proofs.Term.Literal

/-!
# Paths into terms

A path leads from a term to one of its parts, past places with content only: not into self types nor
into the types of annotations. Locations are passed over. `Term.follow` gives the part at the end of
a path. Main statements: `mem_dependencies_iff`, by which a term depends on the globals that paths
lead to, and `follow_openAt`, by which a path stays one when a scope is opened.
-/

namespace SelfTypes

/-- A part with content that a term may have. -/
inductive Branch where
  /-- The function of an application. -/
  | func
  /-- The argument of an application. -/
  | arg
  /-- The value of a local definition. -/
  | value
  /-- The body of a function or of a local definition. -/
  | body
  /-- The term of an annotation. -/
  | expr
  deriving DecidableEq

namespace Term

/-- The part of a term that a branch leads to. -/
def child? : Term → Branch → Option Term
  | app f _ _, .func => some f
  | app _ a _, .arg => some a
  | letIn _ _ e _, .value => some e
  | letIn _ _ _ b, .body => some b
  | lam _ _ b, .body => some b
  | ann _ e _, .expr => some e
  | _, _ => none

/-- The part of a term at the end of a path, without the locations around it. -/
def follow (t : Term) : List Branch → Option Term
  | [] => some t.peel
  | branch :: p => (t.peel.child? branch).bind (·.follow p)

theorem follow_loc (span : Span) (e : Term) (p : List Branch) :
    (loc span e).follow p = e.follow p := by
  cases p <;> rfl

theorem follow_cons {t u : Term} {branch : Branch} {p : List Branch} :
    t.follow (branch :: p) = some u ↔
      ∃ v, t.peel.child? branch = some v ∧ v.follow p = some u :=
  Option.bind_eq_some_iff

theorem peel_of_follow_nil {t u : Term} (h : t.follow [] = some u) : t.peel = u :=
  Option.some.inj h

/-- Where a path leads to a part, so do its beginnings. -/
theorem exists_follow_of_prefix {t u : Term} {p q : List Branch} (h : t.follow p = some u)
    (hq : q <+: p) : ∃ v, t.follow q = some v := by
  induction q generalizing t p with
  | nil => exact ⟨t.peel, rfl⟩
  | cons branch q ih =>
    obtain ⟨p, rfl⟩ := hq
    obtain ⟨v, hv, h⟩ := follow_cons.1 h
    obtain ⟨w, hw⟩ := ih h (List.prefix_append q p)
    exact ⟨w, follow_cons.2 ⟨v, hv, hw⟩⟩

/-! ## Locations -/

theorem peel_unlocate (t : Term) : t.unlocate.peel = t.peel.unlocate := by
  induction t with
  | loc _ _ ih => exact ih
  | _ => rfl

theorem child?_unlocate {t u : Term} {branch : Branch} (h : t.child? branch = some u) :
    t.unlocate.child? branch = some u.unlocate := by
  cases t <;> cases branch <;> cases h <;> rfl

/-- Paths lead to the same parts when all locations are removed. -/
theorem follow_unlocate {t u : Term} {p : List Branch} (h : t.follow p = some u) :
    t.unlocate.follow p = some u.unlocate := by
  induction p generalizing t with
  | nil =>
    cases peel_of_follow_nil h
    exact congrArg some (peel_unlocate t)
  | cons branch p ih =>
    obtain ⟨v, hv, h⟩ := follow_cons.1 h
    refine follow_cons.2 ⟨v.unlocate, ?_, ih h⟩
    -- removing locations inside a term does not change which part a branch leads to
    rw [peel_unlocate]
    exact child?_unlocate hv

/-! ## Opened scopes -/

section Opened

variable {values : List Term}

theorem peel_openAt (hvalues : ∀ v ∈ values, v.isAnn = true) (t : Term) (depth : Nat) :
    (t.openAt values depth).peel = t.peel.openAt values depth := by
  induction t with
  | bound i =>
    -- neither an index nor an annotation has locations at its head
    obtain ⟨j, hj⟩ | ⟨done, e, ty, hann⟩ := openIndex_of_isAnn hvalues depth i
    · simp [peel, hj]
    · simp [peel, hann]
  | loc _ _ ih => exact ih
  | _ => rfl

theorem child?_openAt (values : List Term) {t u : Term} {branch : Branch}
    (h : t.child? branch = some u) (depth : Nat) :
    ∃ depth', (t.openAt values depth).child? branch = some (u.openAt values depth') := by
  cases t <;> cases branch <;> cases h <;> exact ⟨_, rfl⟩

/-- A path leads to the same part when a scope around it is opened with annotated values, with the
scope opened in the part as well. -/
theorem follow_openAt (hvalues : ∀ v ∈ values, v.isAnn = true) {t u : Term} {p : List Branch}
    (h : t.follow p = some u) (depth : Nat) :
    ∃ depth', (t.openAt values depth).follow p = some (u.openAt values depth') := by
  induction p generalizing t depth with
  | nil =>
    cases peel_of_follow_nil h
    exact ⟨depth, congrArg some (peel_openAt hvalues t depth)⟩
  | cons branch p ih =>
    obtain ⟨v, hv, h⟩ := follow_cons.1 h
    obtain ⟨depth₁, hchild⟩ := child?_openAt values hv depth
    -- the depth grows with each binder on the path, so only some depth can be named
    obtain ⟨depth₂, hfollow⟩ := ih h depth₁
    refine ⟨depth₂, follow_cons.2 ⟨_, ?_, hfollow⟩⟩
    rw [peel_openAt hvalues]
    exact hchild

/-- A path to a global leads to it in the opened body of a binder as well. -/
theorem follow_instantiate {v b : Term} {n : DefName} {p : List Branch} (hv : v.isAnn = true)
    (h : b.follow p = some (ref n)) : (b.instantiate [v]).follow p = some (ref n) := by
  obtain ⟨depth, hfollow⟩ := follow_openAt (List.forall_mem_singleton.2 hv) h 0
  exact hfollow

end Opened

/-! ## Dependencies -/

theorem dependencies_peel (t : Term) : t.peel.dependencies = t.dependencies := by
  induction t with
  | loc _ _ ih => exact ih
  | _ => rfl

theorem dependencies_of_child? {t u : Term} {branch : Branch} (h : t.child? branch = some u)
    {n : DefName} (hn : n ∈ u.dependencies) : n ∈ t.dependencies := by
  cases t <;> cases branch <;> cases h <;> simp [dependencies, hn]

/-- The globals that a term depends on are those that paths lead to. -/
theorem mem_dependencies_iff {t : Term} {n : DefName} :
    n ∈ t.dependencies ↔ ∃ p, t.follow p = some (ref n) := by
  constructor
  · intro h
    -- from an occurrence to a path, along the structure of the term
    induction t with
    | bound | var | typ | all => cases h
    | ref m =>
      cases List.mem_singleton.1 h
      exact ⟨[], rfl⟩
    | loc span e ih =>
      obtain ⟨p, hp⟩ := ih h
      exact ⟨p, (follow_loc span e p).trans hp⟩
    | lam _ _ _ ih =>
      obtain ⟨p, hp⟩ := ih h
      exact ⟨.body :: p, hp⟩
    | ann _ _ _ ih =>
      obtain ⟨p, hp⟩ := ih h
      exact ⟨.expr :: p, hp⟩
    | app _ _ _ ih₁ ih₂ =>
      obtain h | h := List.mem_append.1 h
      · obtain ⟨p, hp⟩ := ih₁ h
        exact ⟨.func :: p, hp⟩
      · obtain ⟨p, hp⟩ := ih₂ h
        exact ⟨.arg :: p, hp⟩
    | letIn _ _ _ _ ih₁ ih₂ =>
      obtain h | h := List.mem_append.1 h
      · obtain ⟨p, hp⟩ := ih₁ h
        exact ⟨.value :: p, hp⟩
      · obtain ⟨p, hp⟩ := ih₂ h
        exact ⟨.body :: p, hp⟩
  · rintro ⟨p, hp⟩
    -- and from a path to an occurrence, along the path
    induction p generalizing t with
    | nil =>
      rw [← dependencies_peel, peel_of_follow_nil hp]
      exact List.mem_singleton.2 rfl
    | cons branch p ih =>
      obtain ⟨v, hv, hp⟩ := follow_cons.1 hp
      rw [← dependencies_peel]
      exact dependencies_of_child? hv (ih hp)

end Term

end SelfTypes
