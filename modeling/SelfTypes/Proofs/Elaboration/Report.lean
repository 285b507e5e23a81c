import SelfTypes.Proofs.Elaboration.Location
import SelfTypes.Proofs.Term.Location

/-!
# Reports of failures

Two failures that correspond to each other are reported with the same words, once the variables of
one are replaced by those that stand for them in the other (`Failure.Related.report?_rename`).
Reports show the number of a variable, so that much of a difference there is.
-/

namespace SelfTypes

/-! ## Renaming failures -/

section Rename

variable (σ : Var → Var)

/-- The same task, about terms with other variables. -/
def Task.rename : Task → Task
  | definition name => definition name
  | term t .synthesis => term (t.rename σ) .synthesis
  | term t (.analysis ty) => term (t.rename σ) (.analysis (ty.rename σ))

/-- The same cause, about terms with other variables. -/
def Cause.rename : Cause → Cause
  | undefinedReference name => undefinedReference name
  | unboundVariable x => unboundVariable (σ x)
  | danglingIndex i => danglingIndex i
  | notAFunction t ty => notAFunction (t.rename σ) (ty.rename σ)
  | notAFunctionType t ty => notAFunctionType (t.rename σ) (ty.rename σ)
  | uninferableFunction t => uninferableFunction (t.rename σ)
  | mismatch expected found => mismatch (expected.rename σ) (found.rename σ)
  | outOfFuel limit => outOfFuel limit

/-- The same failure, about terms with other variables. -/
def Failure.rename (f : Failure) : Failure where
  cause := f.cause.rename σ
  stack := f.stack.map (Task.rename σ)

theorem Cause.terms_rename (cause : Cause) :
    (cause.rename σ).terms = cause.terms.map (Term.rename σ) := by
  cases cause <;> rfl

theorem Task.terms_rename (task : Task) :
    (task.rename σ).terms = task.terms.map (Term.rename σ) := by
  cases task with
  | definition => rfl
  | term t mode => cases mode <;> rfl

end Rename

/-- The variable that was issued together with the given one, if one of the pairs says so. -/
def counterpart (P : List (VarId × VarId)) (x : Var) : Var :=
  match P.lookup x.id with
  | some id => { x with id }
  | none => x

theorem OneToOne.lookup_eq {P : List (VarId × VarId)} (hP : OneToOne P) {id id' : VarId}
    (h : (id, id') ∈ P) : P.lookup id = some id' := by
  -- that no right side occurs twice is not needed here
  obtain ⟨hleft, -⟩ := hP
  induction P with
  | nil => cases h
  | cons p P ih =>
    obtain ⟨hp, hleft⟩ := List.nodup_cons.1 hleft
    rcases List.mem_cons.1 h with rfl | h
    · exact List.lookup_cons_self
    · -- no other pair is about the same variable
      have hne : (id == p.1) = false := by
        rw [beq_eq_false_iff_ne]
        rintro rfl
        exact hp (List.mem_map.2 ⟨_, h, rfl⟩)
      rw [List.lookup_cons, hne]
      exact ih h hleft

theorem OneToOne.counterpart_eq {P : List (VarId × VarId)} (hP : OneToOne P) (x x' : Var)
    (h : Named P x x') : counterpart P x = x' := by
  obtain ⟨hpaired, hname⟩ := h
  rw [counterpart, hP.lookup_eq hpaired, hname]

/-! ## Wording -/

section Terms

variable {R : Term → Term → Prop}

/-- Related causes are about related terms. -/
theorem Cause.Related.terms {cause cause' : Cause} (h : cause.Related R cause') :
    List.Forall₂ R cause.terms cause'.terms := by
  cases h with
  | undefinedReference | unboundVariable | danglingIndex => exact .nil
  | notAFunction ht hty | notAFunctionType ht hty => exact .cons ht (.cons hty .nil)
  | uninferableFunction ht => exact .cons ht .nil
  | mismatch hty hfound => exact .cons hty (.cons hfound .nil)

theorem Task.Related.terms {task task' : Task} (h : task.Related R task') :
    List.Forall₂ R task.terms task'.terms := by
  cases h with
  | definition => exact .nil
  | synthesis ht => exact .cons ht .nil
  | analysis ht hty => exact .cons ht (.cons hty .nil)

end Terms

section Reports

variable {P : List (VarId × VarId)}

theorem Corresponds.text_rename (hP : OneToOne P) {t t' : Term} (h : Corresponds P t t') :
    (t.rename (counterpart P)).text = t'.text :=
  Term.Copy.text_rename hP.counterpart_eq h

theorem Corresponds.isPrintable_rename (hP : OneToOne P) {t t' : Term} (h : Corresponds P t t') :
    (t.rename (counterpart P)).isPrintable = t'.isPrintable :=
  Term.Copy.isPrintable_rename hP.counterpart_eq h

theorem Cause.Related.message_rename (hP : OneToOne P) {cause cause' : Cause}
    (h : cause.Related (Corresponds P) cause') :
    (cause.rename (counterpart P)).message = cause'.message := by
  cases h with
  -- these messages show no term
  | undefinedReference | danglingIndex => rfl
  | unboundVariable hx =>
    cases hx with
    | var hx => simp only [rename, hP.counterpart_eq _ _ hx]
  -- a message shows terms as they are printed, and the renamed term prints as its counterpart
  | notAFunction ht hty | notAFunctionType ht hty | mismatch ht hty =>
    unfold message
    simp only [rename, Corresponds.text_rename hP ht, Corresponds.text_rename hP hty]
  | uninferableFunction ht =>
    unfold message
    simp only [rename, Corresponds.text_rename hP ht]

theorem Task.Related.lines_rename (hP : OneToOne P) {task task' : Task}
    (h : task.Related (Corresponds P) task') :
    (task.rename (counterpart P)).lines = task'.lines := by
  cases h with
  | definition => rfl
  | synthesis ht =>
    unfold lines
    simp only [rename, Corresponds.text_rename hP ht]
  | analysis ht hty =>
    unfold lines
    simp only [rename, Corresponds.text_rename hP ht, Corresponds.text_rename hP hty]

/-- Terms that correspond to each other all have a text, or not all of them on either side. -/
theorem all_isPrintable_rename (hP : OneToOne P) {ts ts' : List Term}
    (h : List.Forall₂ (Corresponds P) ts ts') :
    (ts.map (Term.rename (counterpart P))).all Term.isPrintable = ts'.all Term.isPrintable := by
  induction h with
  | nil => rfl
  | cons ht _ ih =>
    rw [List.map_cons, List.all_cons, List.all_cons, ih, Corresponds.isPrintable_rename hP ht]

namespace Failure.Related

variable {f f' : Failure}

theorem isPrintable_rename (hP : OneToOne P) (h : f.Related (Corresponds P) f') :
    (f.rename (counterpart P)).isPrintable = f'.isPrintable := by
  have hterms := List.rel_append h.cause.terms
    (List.rel_flatMap h.stack fun _ _ => Task.Related.terms)
  rw [isPrintable, isPrintable, ← all_isPrintable_rename hP hterms, List.map_append,
    List.map_flatMap, rename, Cause.terms_rename, List.flatMap_map]
  simp only [Task.terms_rename]

theorem report_rename (hP : OneToOne P) (h : f.Related (Corresponds P) f') :
    (f.rename (counterpart P)).report = f'.report := by
  -- the open tasks are reported alike one by one
  have hlines : (f.stack.map (Task.rename (counterpart P))).map Task.lines =
      f'.stack.map Task.lines := by
    rw [← List.forall₂_eq_eq_eq, List.forall₂_map_left_iff, List.forall₂_map_left_iff,
      List.forall₂_map_right_iff]
    exact h.stack.imp fun _ _ h => h.lines_rename hP
  simp only [report, rename, h.cause.message_rename hP, List.flatMap_def, List.map_reverse,
    hlines]

/-- Once the variables have been replaced, failures that correspond to each other have the same
report, or none. -/
theorem report?_rename (hP : OneToOne P) (h : f.Related (Corresponds P) f') :
    (f.rename (counterpart P)).report? = f'.report? := by
  simp only [report?, h.isPrintable_rename hP, h.report_rename hP]

end Failure.Related

end Reports

end SelfTypes
