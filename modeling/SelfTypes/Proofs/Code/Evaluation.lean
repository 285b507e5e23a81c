import Mathlib.Logic.Relation
import SelfTypes.Build

/-!
# Evaluation of code

Code is evaluated by name: applied functions and local definitions are contracted by substitution,
globals give way to their code, and the marks of native values are passed over. Values are put in
the place of names as they are, which is right for code without free variables. Main statement:
`replace_subst_bind`, by which substituting under a binder and contracting the binder is one
substitution.
-/

namespace SelfTypes.Code

/-! ## Free variables -/

/-- The names of the free variables of code. -/
def freeNames : Code → List BinderName
  | var n => [n]
  | ref _ | nul | chr _ | str _ => []
  | lam n b => b.freeNames.filter (· ≠ n)
  | app f a => f.freeNames ++ a.freeNames
  | letIn n e b => e.freeNames ++ b.freeNames.filter (· ≠ n)
  | elim _ v => v.freeNames
  | inst _ f => f.freeNames

theorem mem_freeNames_lam {m n : BinderName} {b : Code} :
    m ∈ (lam n b).freeNames ↔ m ∈ b.freeNames ∧ m ≠ n := by
  simp [freeNames]

theorem mem_freeNames_letIn {m n : BinderName} {e b : Code} :
    m ∈ (letIn n e b).freeNames ↔ m ∈ e.freeNames ∨ m ∈ b.freeNames ∧ m ≠ n := by
  simp [freeNames]

theorem mem_freeNames_app {m : BinderName} {f a : Code} :
    m ∈ (app f a).freeNames ↔ m ∈ f.freeNames ∨ m ∈ a.freeNames :=
  List.mem_append

/-! ## Substitution -/

/-- The assignment that gives a name this value, and others what `γ` gives them. -/
def bind (γ : BinderName → Code) (n : BinderName) (v : Code) : BinderName → Code :=
  fun m => if m = n then v else γ m

@[simp] theorem bind_self (γ : BinderName → Code) (n : BinderName) (v : Code) :
    bind γ n v n = v := if_pos rfl

theorem bind_of_ne {γ : BinderName → Code} {m n : BinderName} {v : Code} (h : m ≠ n) :
    bind γ n v m = γ m := if_neg h

/-- The code with what `γ` assigns in the place of free variables. -/
def subst : (γ : BinderName → Code) → Code → Code
  | γ, var n => γ n
  | _, ref n => ref n
  | _, nul => nul
  -- the binder takes its name away from the substitution
  | γ, lam n b => lam n (b.subst (bind γ n (var n)))
  | γ, app f a => app (f.subst γ) (a.subst γ)
  | γ, letIn n e b => letIn n (e.subst γ) (b.subst (bind γ n (var n)))
  | γ, elim p v => elim p (v.subst γ)
  | γ, inst p f => inst p (f.subst γ)
  | _, chr c => chr c
  | _, str s => str s

/-- The code with a value in the place of one variable. -/
def replace (c : Code) (n : BinderName) (v : Code) : Code :=
  c.subst (bind var n v)

theorem bind_congr {γ δ : BinderName → Code} {m n : BinderName} (v : Code)
    (h : m ≠ n → γ m = δ m) : bind γ n v m = bind δ n v m := by
  by_cases hmn : m = n
  · rw [hmn, bind_self, bind_self]
  · rw [bind_of_ne hmn, bind_of_ne hmn, h hmn]

/-- Only what is assigned to the free variables matters. -/
theorem subst_congr {c : Code} {γ δ : BinderName → Code} (h : ∀ n ∈ c.freeNames, γ n = δ n) :
    c.subst γ = c.subst δ := by
  -- the substitution changes below binders, so the induction is general in it
  induction c generalizing γ δ with
  | var n => exact h n (List.mem_singleton.2 rfl)
  | ref | nul | chr | str => rfl
  | lam n b ih =>
    have hb : b.subst (bind γ n (var n)) = b.subst (bind δ n (var n)) :=
      ih fun m hm => bind_congr _ fun hne => h m (mem_freeNames_lam.2 ⟨hm, hne⟩)
    simp only [subst, hb]
  | app f a ihf iha =>
    simp only [subst, ihf fun m hm => h m (mem_freeNames_app.2 (.inl hm)),
      iha fun m hm => h m (mem_freeNames_app.2 (.inr hm))]
  | letIn n e b ihe ihb =>
    have hb : b.subst (bind γ n (var n)) = b.subst (bind δ n (var n)) :=
      ihb fun m hm => bind_congr _ fun hne => h m (mem_freeNames_letIn.2 (.inr ⟨hm, hne⟩))
    simp only [subst, hb, ihe fun m hm => h m (mem_freeNames_letIn.2 (.inl hm))]
  | elim p v ih => simp only [subst, ih h]
  | inst p f ih => simp only [subst, ih h]

/-- Below a binder, its own name stands for itself. -/
theorem mem_freeNames_bind {γ : BinderName → Code} {k m n : BinderName}
    (h : m ∈ (bind γ n (var n) k).freeNames) (hmn : m ≠ n) :
    k ≠ n ∧ m ∈ (γ k).freeNames := by
  by_cases hkn : k = n
  · rw [hkn, bind_self] at h
    exact absurd (List.mem_singleton.1 h) hmn
  · rw [bind_of_ne hkn] at h
    exact ⟨hkn, h⟩

/-- A free variable of the result comes from what is assigned to one. -/
theorem mem_freeNames_subst {c : Code} {γ : BinderName → Code} {m : BinderName}
    (h : m ∈ (c.subst γ).freeNames) : ∃ n ∈ c.freeNames, m ∈ (γ n).freeNames := by
  induction c generalizing γ with
  | var n => exact ⟨n, List.mem_singleton.2 rfl, h⟩
  | ref | nul | chr | str => cases h
  | lam n b ih =>
    obtain ⟨hm, hmn⟩ := mem_freeNames_lam.1 h
    obtain ⟨k, hk, hmk⟩ := ih hm
    -- the binder itself is what its name is replaced by, and is not free in the function
    obtain ⟨hkn, hmk⟩ := mem_freeNames_bind hmk hmn
    exact ⟨k, mem_freeNames_lam.2 ⟨hk, hkn⟩, hmk⟩
  | app f a ihf iha =>
    rcases mem_freeNames_app.1 h with h | h
    · obtain ⟨k, hk, hmk⟩ := ihf h
      exact ⟨k, mem_freeNames_app.2 (.inl hk), hmk⟩
    · obtain ⟨k, hk, hmk⟩ := iha h
      exact ⟨k, mem_freeNames_app.2 (.inr hk), hmk⟩
  | letIn n e b ihe ihb =>
    rcases mem_freeNames_letIn.1 h with h | ⟨hm, hmn⟩
    · obtain ⟨k, hk, hmk⟩ := ihe h
      exact ⟨k, mem_freeNames_letIn.2 (.inl hk), hmk⟩
    · obtain ⟨k, hk, hmk⟩ := ihb hm
      obtain ⟨hkn, hmk⟩ := mem_freeNames_bind hmk hmn
      exact ⟨k, mem_freeNames_letIn.2 (.inr ⟨hk, hkn⟩), hmk⟩
  | elim p v ih => exact ih h
  | inst p f ih => exact ih h

/-- Code without free variables. -/
def IsClosed (c : Code) : Prop :=
  c.freeNames = []

instance (c : Code) : Decidable c.IsClosed :=
  inferInstanceAs (Decidable (c.freeNames = []))

theorem isClosed_subst {c : Code} {γ : BinderName → Code}
    (h : ∀ n ∈ c.freeNames, (γ n).IsClosed) : (c.subst γ).IsClosed := by
  refine List.eq_nil_iff_forall_not_mem.2 fun m hm => ?_
  obtain ⟨n, hn, hmn⟩ := mem_freeNames_subst hm
  rw [h n hn] at hmn
  cases hmn

theorem subst_var (c : Code) : c.subst var = c := by
  have hbind : ∀ n, bind var n (var n) = var := by
    intro n
    funext m
    by_cases hmn : m = n
    · rw [hmn, bind_self]
    · rw [bind_of_ne hmn]
  induction c <;> simp_all [subst]

theorem IsClosed.subst_eq {c : Code} (h : c.IsClosed) (γ : BinderName → Code) :
    c.subst γ = c := by
  calc
    c.subst γ = c.subst var := subst_congr fun n hn => by rw [h] at hn; cases hn
    _ = c := c.subst_var

/-- Assignments that leave no name to be captured: what they assign to a name has no other. -/
def Uncaptured (γ : BinderName → Code) : Prop :=
  ∀ n, ∀ m ∈ (γ n).freeNames, m = n

theorem Uncaptured.bind {γ : BinderName → Code} (hγ : Uncaptured γ) (n : BinderName) :
    Uncaptured (bind γ n (var n)) := by
  intro k m hm
  by_cases hkn : k = n
  -- the name of the binder is replaced by itself, and other names by what they were before
  · rw [hkn, bind_self] at hm
    rw [hkn]
    exact List.mem_singleton.1 hm
  · rw [bind_of_ne hkn] at hm
    exact hγ k m hm

theorem subst_bind_eq {γ δ : BinderName → Code} (hγ : Uncaptured γ) (n : BinderName) :
    (fun m => (bind γ n (var n) m).subst (bind δ n (var n))) =
      bind (fun m => (γ m).subst δ) n (var n) := by
  funext m
  by_cases hmn : m = n
  · simp only [hmn, bind_self, subst]
  · rw [bind_of_ne hmn, bind_of_ne hmn]
    -- the only name in the value is not that of the binder
    refine subst_congr fun k hk => bind_of_ne ?_
    rw [hγ m k hk]
    exact hmn

/-- Two substitutions in turn are one, if the first leaves no name to be captured. -/
theorem subst_subst {c : Code} {γ δ : BinderName → Code} (hγ : Uncaptured γ) :
    (c.subst γ).subst δ = c.subst fun n => (γ n).subst δ := by
  induction c generalizing γ δ with
  | var | ref | nul | chr | str => rfl
  | lam n b ih => simp only [subst, ih (hγ.bind n), subst_bind_eq hγ]
  | app f a ihf iha => simp only [subst, ihf hγ, iha hγ]
  | letIn n e b ihe ihb => simp only [subst, ihe hγ, ihb (hγ.bind n), subst_bind_eq hγ]
  | elim p v ih => simp only [subst, ih hγ]
  | inst p f ih => simp only [subst, ih hγ]

/-- Substituting below a binder and then putting a value in the place of its variable is one
substitution. -/
theorem replace_subst_bind {γ : BinderName → Code} (hγ : ∀ n, (γ n).IsClosed) (n : BinderName)
    (v b : Code) :
    (b.subst (bind γ n (var n))).replace n v = b.subst (bind γ n v) := by
  -- closed values have no name that a binder could capture
  have huncaptured : Uncaptured γ := by
    intro k m hm
    rw [hγ k] at hm
    cases hm
  rw [replace, subst_subst (huncaptured.bind n)]
  refine subst_congr fun m _ => ?_
  by_cases hmn : m = n
  · simp only [hmn, bind_self, subst]
  · rw [bind_of_ne hmn, bind_of_ne hmn]
    exact (hγ m).subst_eq _

/-! ## Steps -/

/-- One step of evaluation, given the code of globals. -/
def step? (globals : DefName → Option Code) : Code → Option Code
  | ref n => globals n
  | app (lam n b) a => some (b.replace n a)
  | app f a => (f.step? globals).map (app · a)
  | letIn n e b => some (b.replace n e)
  | elim _ v => some v
  | inst _ f => some f
  | var _ | nul | lam .. | chr _ | str _ => none

/-- Evaluation leads from the one code to the other, in any number of steps. -/
def EvaluatesTo (globals : DefName → Option Code) : Code → Code → Prop :=
  Relation.ReflTransGen fun c c' => c.step? globals = some c'

namespace EvaluatesTo

variable {globals : DefName → Option Code} {c c' c'' f f' a : Code}

theorem refl (globals : DefName → Option Code) (c : Code) : EvaluatesTo globals c c :=
  Relation.ReflTransGen.refl

theorem trans (h : EvaluatesTo globals c c') (h' : EvaluatesTo globals c' c'') :
    EvaluatesTo globals c c'' :=
  Relation.ReflTransGen.trans h h'

theorem step (h : c.step? globals = some c') : EvaluatesTo globals c c' :=
  Relation.ReflTransGen.single h

/-- The function of an application is evaluated first. -/
theorem app (h : EvaluatesTo globals f f') (a : Code) :
    EvaluatesTo globals (.app f a) (.app f' a) := by
  have hstep : ∀ g g' : Code, g.step? globals = some g' →
      (Code.app g a).step? globals = some (.app g' a) := by
    intro g g' hg
    -- only an applied function takes a step of its own
    have hmap : (Code.app g a).step? globals = (g.step? globals).map (Code.app · a) := by
      cases g with
      | lam => cases hg
      | _ => rfl
    rw [hmap, hg]
    rfl
  exact Relation.ReflTransGen.lift (Code.app · a) hstep _ _ h

/-- Code that takes no step is what its evaluation leads to. -/
theorem eq_of_stuck (h : EvaluatesTo globals c c') (hc : c.step? globals = none) : c' = c := by
  rcases Relation.ReflTransGen.cases_head h with heq | ⟨d, hd, -⟩
  · exact heq.symm
  · rw [hc] at hd
    cases hd

/-- Evaluation goes one way, so it ends with one code at most. -/
theorem unique {v w : Code} (hv : EvaluatesTo globals c v) (hw : EvaluatesTo globals c w)
    (hvstuck : v.step? globals = none) (hwstuck : w.step? globals = none) : v = w := by
  have hunique : Relator.RightUnique fun c c' : Code => c.step? globals = some c' := by
    intro c d d' hd hd'
    exact Option.some.inj (hd.symm.trans hd')
  rcases Relation.ReflTransGen.total_of_right_unique hunique hv hw with h | h
  · exact (eq_of_stuck h hvstuck).symm
  · exact eq_of_stuck h hwstuck

end EvaluatesTo

/-- Where a number of steps leads to, or as many as there are. -/
def evaluate (globals : DefName → Option Code) : (steps : Nat) → Code → Code
  | 0, c => c
  | steps + 1, c =>
    match c.step? globals with
    | some c' => c'.evaluate globals steps
    | none => c

theorem evaluatesTo_evaluate (globals : DefName → Option Code) (steps : Nat) (c : Code) :
    EvaluatesTo globals c (c.evaluate globals steps) := by
  induction steps generalizing c with
  | zero => exact .refl globals c
  -- the evaluator stops at a code without a step
  | succ steps ih =>
    simp only [evaluate]
    split
    · rename_i c' hc
      exact (EvaluatesTo.step hc).trans (ih c')
    · exact .refl globals c

end SelfTypes.Code
