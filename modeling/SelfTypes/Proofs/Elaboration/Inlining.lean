import SelfTypes.Proofs.Elaboration.Expectation
import SelfTypes.Proofs.Kernel.Resemblance

/-!
# Values in the places of variables

The body of a local definition that is not to be kept is elaborated with its value annotated with
the type of the value in the places of the variable. This module compares that body with the one in
which the value stands without the annotation. `Inlining.Inlined` relates the two bodies, and all
the terms that elaboration makes of them. What becomes of the value depends on its place: `Use`
tells apart whether its type is found, or asked for, or given, and `Term.uses` lists the uses of a
variable. Main statements: `Inlined.of_openAt`, by which the two bodies are related, and
`Inlined.openAt`, by which related scopes stay so when they are opened.
-/

namespace SelfTypes

/-! ## Uses -/

/-- What elaboration makes of a term in its place. -/
inductive Use where
  /-- The type of the term is found. -/
  | inferred
  /-- The term is checked against a type, and the type that this comes to is asked for. -/
  | ascribed
  /-- The term is checked against a type, and only its code is asked for. -/
  | checked
  deriving DecidableEq

/-- The use of the term of an annotation. -/
def Use.annotated : Use → Use
  | inferred => ascribed
  | ascribed | checked => checked

/-- The use of a term that is elaborated by itself. -/
def Mode.use : Mode → Use
  | synthesis => .inferred
  | analysis _ => .checked

namespace Term

/-- The uses of the variable with the given index, in a term of the given use. What is in the place
of a type is not used; the value of a local definition that is not to be kept is used once more in
the places of its variable, under an annotation. -/
def uses : Term → (index : Nat) → Use → List Use
  | bound j, i, u => if j = i then [u] else []
  | var _, _, _ | ref _, _, _ | typ, _, _ | all .., _, _ => []
  | lam _ _ b, i, _ => b.uses (i + 1) .checked
  | app f a _, i, _ => f.uses i .inferred ++ a.uses i .checked
  | letIn _ dup e b, i, u =>
    -- the value of an inlined definition is met again, annotated, where its variable stands
    e.uses i .inferred ++ (if dup then [] else e.uses i .ascribed) ++ b.uses (i + 1) u
  | ann _ e _, i, u => e.uses i u.annotated
  | loc _ e, i, u => e.uses i u

/-- No application that is checked turns into a literal, or ceases to be one, when the term `v` is
put in the places of the variable with the given index. -/
def KeepsLiterals (v : Term) : Term → (index : Nat) → Use → Prop
  | bound _, _, _ | var _, _, _ | ref _, _, _ | typ, _, _ | all .., _, _ => True
  | lam _ _ b, i, _ => KeepsLiterals v b (i + 1) .checked
  | app f a er, i, u =>
    (u ≠ .inferred → Elaborator.literal? ((app f a er).openAt [v] i) =
      Elaborator.literal? (app f a er)) ∧
      KeepsLiterals v f i .inferred ∧ KeepsLiterals v a i .checked
  | letIn _ dup e b, i, u =>
    KeepsLiterals v e i .inferred ∧ (dup = false → KeepsLiterals v e i .ascribed) ∧
      KeepsLiterals v b (i + 1) u
  | ann _ e _, i, u => KeepsLiterals v e i u.annotated
  | loc _ e, i, u => KeepsLiterals v e i u

/-- Whether all literals are kept can be computed. -/
instance decidableKeepsLiterals (v : Term) :
    (t : Term) → (i : Nat) → (u : Use) → Decidable (KeepsLiterals v t i u)
  | bound _, _, _ | var _, _, _ | ref _, _, _ | typ, _, _ | all .., _, _ => isTrue trivial
  | lam _ _ b, i, _ => decidableKeepsLiterals v b (i + 1) .checked
  | app f a _, i, u =>
    have := decidableKeepsLiterals v f i .inferred
    have := decidableKeepsLiterals v a i .checked
    inferInstanceAs (Decidable ((u ≠ .inferred → _ = _) ∧ _ ∧ _))
  | letIn _ dup e b, i, u =>
    have := decidableKeepsLiterals v e i .inferred
    have := decidableKeepsLiterals v e i .ascribed
    have := decidableKeepsLiterals v b (i + 1) u
    inferInstanceAs (Decidable (_ ∧ (dup = false → _) ∧ _))
  | ann _ e _, i, u => decidableKeepsLiterals v e i u.annotated
  | loc _ e, i, u => decidableKeepsLiterals v e i u

theorem literal?_loc (span : Span) (e : Term) :
    Elaborator.literal? (loc span e) = Elaborator.literal? e := by
  rw [← literal?_peel, ← literal?_peel e]
  rfl

theorem literal?_ne_some_of_isPlain {t : Term} (h : t.isPlain = false) (r : Elaborated) :
    Elaborator.literal? t ≠ some r := by
  intro hr
  rw [isPlain_of_literal? hr] at h
  cases h

theorem literal?_eq_none_of_isPlain {t : Term} (h : t.isPlain = false) :
    Elaborator.literal? t = none :=
  Option.eq_none_iff_forall_ne_some.2 (literal?_ne_some_of_isPlain h)

end Term

/-! ## Inlining -/

/-- A value to be inlined, in the environment and the context of its definition: the type that it is
annotated with, the variables that are not to be issued again, the uses that are made of it, and
whether parts of the code may be left out where it is annotated. -/
structure Inlining where
  env : Environment
  kept : List VarId
  ctx : Context
  value : Term
  ty : Term
  allows : Use → Prop
  blanks : Prop

namespace Inlining

/-- The value and its type have no indices to be replaced, and a term that may be checked for its
type may also be checked for its code only. -/
structure IsProper (s : Inlining) : Prop where
  varFree : s.env.table.IsVarFree
  value : s.value.IsLocallyClosed
  ty : s.ty.IsLocallyClosed
  allows : s.allows .ascribed → s.allows .checked

/-- The first term has annotated values in places where the second one has the values themselves,
and besides that they differ in variables that `ρ` relates and in types that resemble each other
only. -/
inductive Inlined (s : Inlining) (ρ : Var → Var → Prop) : Use → Term → Term → Prop where
  | value {u : Use} : s.allows u → Inlined s ρ u (.ann true s.value s.ty) s.value
  | bound {u : Use} (i : Nat) : Inlined s ρ u (.bound i) (.bound i)
  | var {u : Use} {x x' : Var} : ρ x x' → Inlined s ρ u (.var x) (.var x')
  | ref {u : Use} (n : DefName) : Inlined s ρ u (.ref n) (.ref n)
  | typ {u : Use} : Inlined s ρ u .typ .typ
  | all {u : Use} {self name : BinderName} {a a' b b' : Term} :
      SameShape a a' → SameShape b b' → Inlined s ρ u (.all self name a b) (.all self name a' b')
  | lam {u : Use} {name : BinderName} {er : Bool} {b b' : Term} :
      Inlined s ρ .checked b b' → Inlined s ρ u (.lam name er b) (.lam name er b')
  | app {u : Use} {f f' a a' : Term} {er : Bool} :
      (u ≠ .inferred →
        Elaborator.literal? (.app f a er) = Elaborator.literal? (.app f' a' er)) →
      Inlined s ρ .inferred f f' → Inlined s ρ .checked a a' →
      Inlined s ρ u (.app f a er) (.app f' a' er)
  | letIn {u : Use} {name : BinderName} {dup : Bool} {e e' b b' : Term} :
      Inlined s ρ .inferred e e' → (dup = false → Inlined s ρ .ascribed e e') →
      Inlined s ρ u b b' → Inlined s ρ u (.letIn name dup e b) (.letIn name dup e' b')
  | ann {u : Use} {done : Bool} {e e' ty ty' : Term} :
      Inlined s ρ u.annotated e e' → Resembles s.env.table ty ty' →
      Inlined s ρ u (.ann done e ty) (.ann done e' ty')
  | loc {u : Use} {span : Span} {e e' : Term} :
      Inlined s ρ u e e' → Inlined s ρ u (.loc span e) (.loc span e')

namespace Inlined

variable {s : Inlining} {ρ ρ' : Var → Var → Prop} {u : Use} {t t' : Term}

/-- Only how the variables of the terms are related matters. -/
theorem imp (h : s.Inlined ρ u t t')
    (hρ : ∀ x x', x.id ∈ t.freeIds → x'.id ∈ t'.freeIds → ρ x x' → ρ' x x') :
    s.Inlined ρ' u t t' := by
  induction h with
  | value h => exact .value h
  | bound i => exact .bound i
  | var h => exact .var (hρ _ _ (List.mem_singleton.2 rfl) (List.mem_singleton.2 rfl) h)
  | ref n => exact .ref n
  | typ => exact .typ
  | all ha hb => exact .all ha hb
  | lam _ ih => exact .lam (ih hρ)
  -- each part has fewer variables than the node, so less is asked of it
  | app hliteral _ _ ihf iha =>
    exact .app hliteral
      (ihf fun x x' hx hx' => hρ x x' (List.mem_append.2 (.inl hx)) (List.mem_append.2 (.inl hx')))
      (iha fun x x' hx hx' => hρ x x' (List.mem_append.2 (.inr hx)) (List.mem_append.2 (.inr hx')))
  | letIn _ _ _ ihe ihe' ihb =>
    have hvalue := fun x x' hx hx' =>
      hρ x x' (List.mem_append.2 (.inl hx)) (List.mem_append.2 (.inl hx'))
    exact .letIn (ihe hvalue) (fun hdup => ihe' hdup hvalue)
      (ihb fun x x' hx hx' => hρ x x' (List.mem_append.2 (.inr hx)) (List.mem_append.2 (.inr hx')))
  | ann _ hty ih =>
    exact .ann
      (ih fun x x' hx hx' => hρ x x' (List.mem_append.2 (.inl hx)) (List.mem_append.2 (.inl hx')))
      hty
  | loc _ ih => exact .loc (ih hρ)

/-- Terms that may be checked for their types may be checked for their code only. -/
theorem checked (hs : s.IsProper) (h : s.Inlined ρ .ascribed t t') :
    s.Inlined ρ .checked t t' := by
  -- the use is an index of the relation, so it is generalised before the induction
  generalize hu : Use.ascribed = u at h
  induction h with
  | value h =>
    cases hu
    exact .value (hs.allows h)
  | bound i => exact .bound i
  | var h => exact .var h
  | ref n => exact .ref n
  | typ => exact .typ
  | all ha hb => exact .all ha hb
  | lam hb _ => exact .lam hb
  -- an ascribed application keeps its literal as well, as it is not inferred
  | app hliteral hf ha =>
    cases hu
    exact .app (fun _ => hliteral nofun) hf ha
  | letIn he he' _ _ _ ihb => exact .letIn he he' (ihb hu)
  | ann he hty =>
    cases hu
    exact .ann he hty
  | loc _ ih => exact .loc (ih hu)

/-- An annotation does not change the shape of a term. -/
theorem sameShape (h : s.Inlined ρ u t t') : SameShape t t' := by
  induction h with
  | value => exact .of_bare_eq rfl
  | bound i => exact .refl _
  | var => exact .var _ _
  | ref | typ => exact .refl _
  | all ha hb => exact .all ha hb
  | lam _ ih => exact .lam ih
  | app _ _ _ ihf iha => exact .app ihf iha
  | letIn _ _ _ ihe _ ihb => exact .letIn ihe ihb
  | ann _ _ ih | loc _ ih => exact ih

/-! ## Literals -/

/-- A literal on the left is the same literal on the right. -/
theorem literal?_left (h : s.Inlined ρ u t t') (hu : u ≠ .inferred) {r : Elaborated}
    (ht : Elaborator.literal? t = some r) : Elaborator.literal? t' = some r := by
  -- only globals and applications can write a literal, and locations are passed over
  induction h with
  | ref => exact ht
  | app hliteral => rwa [← hliteral hu]
  | loc _ ih =>
    rw [Term.literal?_loc] at ht ⊢
    exact ih hu ht
  | value | bound | var | typ | all | lam | letIn | ann =>
    exact absurd ht (Term.literal?_ne_some_of_isPlain rfl _)

/-- A literal on the right is the same literal on the left, or it is the value. -/
theorem literal?_right (h : s.Inlined ρ u t t') (hu : u ≠ .inferred) {r : Elaborated}
    (ht : Elaborator.literal? t' = some r) :
    Elaborator.literal? t = some r ∨ (s.allows u ∧ Elaborator.literal? s.value = some r) := by
  induction h with
  -- the other way, the inlined value may be the literal
  | value h => exact .inr ⟨h, ht⟩
  | ref => exact .inl ht
  | app hliteral =>
    rw [hliteral hu]
    exact .inl ht
  | loc _ ih =>
    rw [Term.literal?_loc] at ht ⊢
    exact ih hu ht
  | bound | var | typ | all | lam | letIn | ann =>
    exact absurd ht (Term.literal?_ne_some_of_isPlain rfl _)

/-! ## Scopes -/

/-- Related terms that stand for a variable. -/
structure StandIns (s : Inlining) (ρ : Var → Var → Prop) (v v' : Term) : Prop where
  isAnn : v.isAnn = true
  isAnn' : v'.isAnn = true
  inlined : ∀ u, s.Inlined ρ u v v'

namespace StandIns

variable {v v' : Term}

theorem sameShape (h : StandIns s ρ v v') : List.Forall₂ SameShape [v] [v'] :=
  .cons (h.inlined .checked).sameShape .nil

theorem parameter {x x' : Var} {ty ty' : Term} (hx : ρ x x') (hty : Resembles s.env.table ty ty') :
    StandIns s ρ (.ann true (.var x) ty) (.ann true (.var x') ty') :=
  ⟨rfl, rfl, fun _ => .ann (.var hx) hty⟩

/-- What stands for the variables of related local definitions. -/
theorem letStandIn (hs : s.IsProper) {dup : Bool} {x x' : Var} {e e' ty ty' : Term}
    (hx : ρ x x') (he : dup = false → s.Inlined ρ .ascribed e e')
    (hty : Resembles s.env.table ty ty') :
    StandIns s ρ (letStandIn dup x e ty) (letStandIn dup x' e' ty') := by
  cases dup with
  | true => exact parameter hx hty
  | false =>
    -- the value is inferred at its definition, and ascribed or checked where its variable stands
    refine ⟨rfl, rfl, fun u => .ann ?_ hty⟩
    cases u with
    | inferred => exact he rfl
    | ascribed | checked => exact (he rfl).checked hs

end StandIns

/-- Related scopes stay so when they are opened with what stands for the same variable. -/
theorem openAt (hs : s.IsProper) {v v' : Term} (hv : StandIns s ρ v v')
    (h : s.Inlined ρ u t t') (depth : Nat) :
    s.Inlined ρ u (t.openAt [v] depth) (t'.openAt [v'] depth) := by
  induction h generalizing depth with
  | value h =>
    -- the inlined value is closed, so nothing in it is opened
    have hann : (Term.ann true s.value s.ty).IsLocallyClosed := ⟨hs.value, hs.ty⟩
    rw [(hann.mono (Nat.zero_le depth)).openAt_eq, (hs.value.mono (Nat.zero_le depth)).openAt_eq]
    exact .value h
  | bound i =>
    simp only [Term.openAt_bound, Term.openIndex]
    split
    · exact .bound i
    · cases i - depth with
      | zero => exact hv.inlined _
      | succ j => exact .bound _
  | var h => exact .var h
  | ref n => exact .ref n
  | typ => exact .typ
  | all ha hb => exact .all (ha.openAt hv.sameShape depth) (hb.openAt hv.sameShape (depth + 2))
  | lam _ ih => exact .lam (ih (depth + 1))
  | @app _ f f' a a' er hliteral _ _ ihf iha =>
    refine .app (fun hu => ?_) (ihf depth) (iha depth)
    -- opening with annotated values neither makes a literal nor destroys one, on either side
    have hleft := Term.literal?_openAt (List.forall_mem_singleton.2 hv.isAnn) (.app f a er) depth
    have hright :=
      Term.literal?_openAt (List.forall_mem_singleton.2 hv.isAnn') (.app f' a' er) depth
    exact hleft.trans ((hliteral hu).trans hright.symm)
  | letIn _ _ _ ihe ihe' ihb =>
    exact .letIn (ihe depth) (fun hdup => ihe' hdup depth) (ihb (depth + 1))
  | ann _ hty ih => exact .ann (ih depth) (hty.openAt hs.varFree hv.sameShape depth)
  | loc _ ih => exact .loc (ih depth)

theorem instantiate (hs : s.IsProper) {v v' : Term} (hv : StandIns s ρ v v')
    (h : s.Inlined ρ u t t') : s.Inlined ρ u (t.instantiate [v]) (t'.instantiate [v']) := by
  rw [Term.instantiate_eq_openAt, Term.instantiate_eq_openAt]
  exact h.openAt hs hv 0

/-- A term is related to itself. -/
theorem refl (s : Inlining) (h : ∀ x : Var, x.id ∈ t.freeIds → ρ x x) (u : Use) :
    s.Inlined ρ u t t := by
  -- a term is its own inlined form with the same variables, and then with related ones
  have heq : ∀ u, s.Inlined Eq u t t := by
    induction t with
    | bound i => exact fun _ => .bound i
    | var x => exact fun _ => .var rfl
    | ref n => exact fun _ => .ref n
    | typ => exact fun _ => .typ
    | all => exact fun _ => .all (.refl _) (.refl _)
    | lam _ _ _ ih => exact fun _ => .lam (ih h _)
    | app _ _ _ ihf iha =>
      exact fun _ => .app (fun _ => rfl) (ihf (fun x hx => h x (List.mem_append.2 (.inl hx))) _)
        (iha (fun x hx => h x (List.mem_append.2 (.inr hx))) _)
    | letIn _ _ _ _ ihe ihb =>
      have hvalue := ihe fun x hx => h x (List.mem_append.2 (.inl hx))
      exact fun _ => .letIn (hvalue _) (fun _ => hvalue _)
        (ihb (fun x hx => h x (List.mem_append.2 (.inr hx))) _)
    | ann _ _ _ ih _ =>
      exact fun _ => .ann (ih (fun x hx => h x (List.mem_append.2 (.inl hx))) _) (.refl _ _)
    | loc _ _ ih => exact fun _ => .loc (ih h _)
  exact (heq u).imp fun x x' hx _ heq => heq ▸ h x hx

/-- A scope that is opened with the annotated value is related to the one that is opened with the
value itself, if the uses of its variable are allowed and no literal appears in the second one. -/
theorem of_openAt (hs : s.IsProper) {depth : Nat} (huses : ∀ u' ∈ t.uses depth u, s.allows u')
    (hkeeps : Term.KeepsLiterals s.value t depth u) (hρ : ∀ x : Var, x.id ∈ t.freeIds → ρ x x) :
    s.Inlined ρ u (t.openAt [.ann true s.value s.ty] depth) (t.openAt [s.value] depth) := by
  have hshape : List.Forall₂ SameShape [.ann true s.value s.ty] [s.value] :=
    .cons (.of_bare_eq rfl) .nil
  -- the induction is over the body, with the use and the depth general as both change below binders
  induction t generalizing depth u with
  | bound i =>
    simp only [Term.openAt_bound, Term.openIndex]
    split
    · exact .bound i
    -- the index is that of the inlined definition, or belongs to a scope further out
    · rename_i hle
      cases hi : i - depth with
      | zero => exact .value (huses u (by simp [Term.uses, show i = depth by omega]))
      | succ j => exact .bound _
  | var x => exact .var (hρ x (List.mem_singleton.2 rfl))
  | ref n => exact .ref n
  | typ => exact .typ
  | all => exact .all ((SameShape.refl _).openAt hshape _) ((SameShape.refl _).openAt hshape _)
  | lam _ _ _ ih => exact .lam (ih huses hkeeps hρ)
  | app f a er ihf iha =>
    obtain ⟨hliteral, hf, ha⟩ := hkeeps
    refine .app (fun hu => ?_)
      (ihf (fun u' hu' => huses u' (List.mem_append.2 (.inl hu'))) hf
        fun x hx => hρ x (List.mem_append.2 (.inl hx)))
      (iha (fun u' hu' => huses u' (List.mem_append.2 (.inr hu'))) ha
        fun x hx => hρ x (List.mem_append.2 (.inr hx)))
    -- the annotated value writes no literal, and the bare one makes none by assumption
    have hann : ∀ v ∈ [Term.ann true s.value s.ty], v.isAnn = true :=
      List.forall_mem_singleton.2 rfl
    exact (Term.literal?_openAt hann (.app f a er) depth).trans (hliteral hu).symm
  | letIn name dup e b ihe ihb =>
    obtain ⟨he, he', hb⟩ := hkeeps
    have hvalue := fun x hx => hρ x (List.mem_append.2 (.inl hx))
    -- each part is used at fewer places than the whole
    refine .letIn (ihe (fun u' hu' => huses u' ?_) he hvalue)
      (fun hdup => ihe (fun u' hu' => huses u' ?_) (he' hdup) hvalue)
      (ihb (fun u' hu' => huses u' ?_) hb fun x hx => hρ x (List.mem_append.2 (.inr hx)))
    · simp [Term.uses, hu']
    · simp [Term.uses, hu', hdup]
    · simp [Term.uses, hu']
  | ann _ _ _ ih _ =>
    exact .ann (ih huses hkeeps fun x hx => hρ x (List.mem_append.2 (.inl hx)))
      ((Resembles.refl _ _).openAt hs.varFree hshape depth)
  | loc _ _ ih => exact .loc (ih huses hkeeps hρ)

end Inlined

end Inlining

end SelfTypes
