import Mathlib.Data.List.Forall2
import SelfTypes.Elaboration.Basic
import SelfTypes.Proofs.Term.Literal
import SelfTypes.Proofs.Term.Naming

/-!
# Terms that differ in names

Two terms are alike if they have the same nodes, whatever their binders are called, and related
variables in the same places. Opening a scope keeps terms alike, and so does unlocating them;
literals have no names, so they are alike with themselves only. Tables are alike if their types and
bodies are. Main statements: `Term.Alike.instantiate`, `Term.Alike.literal?_eq` and
`Table.Alike.find?`.
-/

namespace SelfTypes

namespace Term

/-- The terms have the same nodes, with any names of binders and with variables that `ρ` relates. -/
inductive Alike (ρ : Var → Var → Prop) : Term → Term → Prop where
  | bound (i : Nat) : Alike ρ (.bound i) (.bound i)
  | var {x x' : Var} : ρ x x' → Alike ρ (.var x) (.var x')
  | ref (n : DefName) : Alike ρ (.ref n) (.ref n)
  | typ : Alike ρ .typ .typ
  | all {s s' n n' : BinderName} {a a' b b' : Term} :
      Alike ρ a a' → Alike ρ b b' → Alike ρ (.all s n a b) (.all s' n' a' b')
  | lam {n n' : BinderName} {er : Bool} {b b' : Term} :
      Alike ρ b b' → Alike ρ (.lam n er b) (.lam n' er b')
  | app {f f' a a' : Term} {er : Bool} :
      Alike ρ f f' → Alike ρ a a' → Alike ρ (.app f a er) (.app f' a' er)
  | letIn {n n' : BinderName} {dup : Bool} {e e' b b' : Term} :
      Alike ρ e e' → Alike ρ b b' → Alike ρ (.letIn n dup e b) (.letIn n' dup e' b')
  | ann {done : Bool} {e e' ty ty' : Term} :
      Alike ρ e e' → Alike ρ ty ty' → Alike ρ (.ann done e ty) (.ann done e' ty')
  | loc {span : Span} {e e' : Term} : Alike ρ e e' → Alike ρ (.loc span e) (.loc span e')

namespace Alike

variable {ρ ρ' : Var → Var → Prop} {t t' : Term}

theorem symm (h : t.Alike ρ t') : t'.Alike (fun x y => ρ y x) t := by
  induction h with
  | bound i => exact .bound i
  | var h => exact .var h
  | ref n => exact .ref n
  | typ => exact .typ
  | all _ _ iha ihb => exact .all iha ihb
  | lam _ ih => exact .lam ih
  | app _ _ ihf iha => exact .app ihf iha
  | letIn _ _ ihe ihb => exact .letIn ihe ihb
  | ann _ _ ihe iht => exact .ann ihe iht
  | loc _ ih => exact .loc ih

/-- Only how the variables of the term are related matters. -/
theorem imp (h : t.Alike ρ t') (hρ : ∀ x x', x.id ∈ t.freeIds → ρ x x' → ρ' x x') :
    t.Alike ρ' t' := by
  -- only the variables of the terms have to be related anew, so the assumption goes to the parts
  induction h with
  | bound i => exact .bound i
  | var h => exact .var (hρ _ _ (List.mem_singleton.2 rfl) h)
  | ref n => exact .ref n
  | typ => exact .typ
  | lam _ ih => exact .lam (ih hρ)
  | loc _ ih => exact .loc (ih hρ)
  | all _ _ ih₁ ih₂ =>
    exact .all (ih₁ fun x x' hx => hρ x x' (List.mem_append.2 (.inl hx)))
      (ih₂ fun x x' hx => hρ x x' (List.mem_append.2 (.inr hx)))
  | app _ _ ih₁ ih₂ =>
    exact .app (ih₁ fun x x' hx => hρ x x' (List.mem_append.2 (.inl hx)))
      (ih₂ fun x x' hx => hρ x x' (List.mem_append.2 (.inr hx)))
  | letIn _ _ ih₁ ih₂ =>
    exact .letIn (ih₁ fun x x' hx => hρ x x' (List.mem_append.2 (.inl hx)))
      (ih₂ fun x x' hx => hρ x x' (List.mem_append.2 (.inr hx)))
  | ann _ _ ih₁ ih₂ =>
    exact .ann (ih₁ fun x x' hx => hρ x x' (List.mem_append.2 (.inl hx)))
      (ih₂ fun x x' hx => hρ x x' (List.mem_append.2 (.inr hx)))

theorem of_freeIds_eq_nil (h : t.Alike ρ t') (hfree : t.freeIds = []) : t.Alike ρ' t' :=
  h.imp fun x _ hx => by simp [hfree] at hx

theorem mono (h : t.Alike ρ t') (hρ : ∀ x x', ρ x x' → ρ' x x') : t.Alike ρ' t' :=
  h.imp fun x x' _ => hρ x x'

/-- A term whose variables are related to themselves is alike with itself. -/
theorem refl (h : ∀ x : Var, x.id ∈ t.freeIds → ρ x x) : t.Alike ρ t := by
  -- first with equal variables, where nothing is asked, and then with related ones
  have heq : t.Alike Eq t := by
    induction t with
    | bound i => exact .bound i
    | var x => exact .var rfl
    | ref n => exact .ref n
    | typ => exact .typ
    | lam _ _ _ ih => exact .lam (ih fun x hx => h x hx)
    | loc _ _ ih => exact .loc (ih fun x hx => h x hx)
    | all _ _ _ _ ih₁ ih₂ =>
      exact .all (ih₁ fun x hx => h x (List.mem_append.2 (.inl hx)))
        (ih₂ fun x hx => h x (List.mem_append.2 (.inr hx)))
    | app _ _ _ ih₁ ih₂ =>
      exact .app (ih₁ fun x hx => h x (List.mem_append.2 (.inl hx)))
        (ih₂ fun x hx => h x (List.mem_append.2 (.inr hx)))
    | letIn _ _ _ _ ih₁ ih₂ =>
      exact .letIn (ih₁ fun x hx => h x (List.mem_append.2 (.inl hx)))
        (ih₂ fun x hx => h x (List.mem_append.2 (.inr hx)))
    | ann _ _ _ ih₁ ih₂ =>
      exact .ann (ih₁ fun x hx => h x (List.mem_append.2 (.inl hx)))
        (ih₂ fun x hx => h x (List.mem_append.2 (.inr hx)))
  refine heq.imp fun x x' hx heq => ?_
  rw [← heq]
  exact h x hx

/-- Every free variable is related to one of the other term. -/
theorem exists_of_mem_freeIds (h : t.Alike ρ t') {id : VarId} (hid : id ∈ t.freeIds) :
    ∃ x x', ρ x x' ∧ x.id = id ∧ x'.id ∈ t'.freeIds := by
  induction h with
  | bound | ref | typ => cases hid
  | @var x x' h => exact ⟨x, x', h, (List.mem_singleton.1 hid).symm, List.mem_singleton.2 rfl⟩
  | lam _ ih | loc _ ih => exact ih hid
  -- the variable stands in one of the two parts, and its counterpart in the same one
  | all _ _ ih₁ ih₂ | app _ _ ih₁ ih₂ | letIn _ _ ih₁ ih₂ | ann _ _ ih₁ ih₂ =>
    rcases List.mem_append.1 hid with hid | hid
    · obtain ⟨x, x', h, hx, hx'⟩ := ih₁ hid
      exact ⟨x, x', h, hx, List.mem_append.2 (.inl hx')⟩
    · obtain ⟨x, x', h, hx, hx'⟩ := ih₂ hid
      exact ⟨x, x', h, hx, List.mem_append.2 (.inr hx')⟩

theorem freeIds_eq_nil_iff (h : t.Alike ρ t') : t.freeIds = [] ↔ t'.freeIds = [] := by
  simp only [List.eq_nil_iff_forall_not_mem]
  constructor
  · intro hnone id hid
    obtain ⟨x, x', -, -, hx⟩ := h.symm.exists_of_mem_freeIds hid
    exact hnone _ hx
  · intro hnone id hid
    obtain ⟨x, x', -, -, hx⟩ := h.exists_of_mem_freeIds hid
    exact hnone _ hx

/-! ## Scopes -/

theorem rel_getElem? {α : Type} {R : α → α → Prop} {l l' : List α} (h : List.Forall₂ R l l')
    (i : Nat) : Option.Rel R l[i]? l'[i]? := by
  induction h generalizing i with
  | nil => exact .none
  | cons h _ ih =>
    cases i with
    | zero => exact .some h
    | succ i => exact ih i

theorem openIndex {values values' : List Term} (h : List.Forall₂ (Alike ρ) values values')
    (depth i : Nat) : (Term.openIndex values depth i).Alike ρ (Term.openIndex values' depth i) := by
  unfold Term.openIndex
  rw [h.length_eq]
  split
  · exact .bound i
  · have hvalue := rel_getElem? h (i - depth)
    revert hvalue
    -- the two lists are of one length, so both have the value or neither does
    cases values[i - depth]? <;> cases values'[i - depth]? <;> intro hvalue <;> cases hvalue
    · exact .bound _
    · assumption

theorem openAt {values values' : List Term} (hvalues : List.Forall₂ (Alike ρ) values values')
    (h : t.Alike ρ t') (depth : Nat) :
    (t.openAt values depth).Alike ρ (t'.openAt values' depth) := by
  induction h generalizing depth with
  -- an index is opened in the same way on both sides
  | bound i => exact openIndex hvalues depth i
  | var h => exact .var h
  | ref n => exact .ref n
  | typ => exact .typ
  | all _ _ iha ihb => exact .all (iha depth) (ihb (depth + 2))
  | lam _ ih => exact .lam (ih (depth + 1))
  | app _ _ ihf iha => exact .app (ihf depth) (iha depth)
  | letIn _ _ ihe ihb => exact .letIn (ihe depth) (ihb (depth + 1))
  | ann _ _ ihe iht => exact .ann (ihe depth) (iht depth)
  | loc _ ih => exact .loc (ih depth)

/-- Scopes that are alike, opened with values that are. -/
theorem instantiate {args args' : List Term} (h : t.Alike ρ t')
    (hargs : List.Forall₂ (Alike ρ) args args') :
    (t.instantiate args).Alike ρ (t'.instantiate args') :=
  h.openAt (List.forall₂_reverse_iff.2 hargs) 0

theorem instantiate_one {v v' : Term} (h : t.Alike ρ t') (hv : v.Alike ρ v') :
    (t.instantiate [v]).Alike ρ (t'.instantiate [v']) :=
  h.instantiate (.cons hv .nil)

theorem instantiate_two {u u' v v' : Term} (h : t.Alike ρ t') (hu : u.Alike ρ u')
    (hv : v.Alike ρ v') : (t.instantiate [u, v]).Alike ρ (t'.instantiate [u', v']) :=
  h.instantiate (.cons hu (.cons hv .nil))

theorem contentClosedAt (h : t.Alike ρ t') {depth : Nat} (ht : t.ContentClosedAt depth) :
    t'.ContentClosedAt depth := by
  induction h generalizing depth with
  | bound => exact ht
  | var | ref | typ | all => trivial
  | lam _ ih | ann _ _ ih | loc _ ih => exact ih ht
  | app _ _ ih₁ ih₂ | letIn _ _ ih₁ ih₂ => exact ⟨ih₁ ht.1, ih₂ ht.2⟩

/-! ## Literals -/

theorem unlocate (h : t.Alike ρ t') : t.unlocate.Alike ρ t'.unlocate := by
  induction h with
  | bound i => exact .bound i
  | var h => exact .var h
  | ref n => exact .ref n
  | typ => exact .typ
  | all _ _ iha ihb => exact .all iha ihb
  | lam _ ih => exact .lam ih
  | app _ _ ihf iha => exact .app ihf iha
  | letIn _ _ ihe ihb => exact .letIn ihe ihb
  | ann _ _ ihe iht => exact .ann ihe iht
  | loc _ ih => exact ih

/-- A term without binders and variables has no name that could differ. -/
theorem eq_of_binders_eq_nil (h : t.Alike ρ t') (hbinders : t.binders = [])
    (hfree : t.freeIds = []) : t' = t := by
  induction h with
  | bound | ref | typ => rfl
  -- these bring a variable or a binder, and the term has none
  | var | all | lam => simp_all [binders, freeIds]
  | letIn => simp_all [binders]
  | app _ _ ihf iha =>
    obtain ⟨hf, ha⟩ := List.append_eq_nil_iff.1 hbinders
    obtain ⟨hf', ha'⟩ := List.append_eq_nil_iff.1 hfree
    rw [ihf hf hf', iha ha ha']
  | ann _ _ ihe iht =>
    obtain ⟨he, ht⟩ := List.append_eq_nil_iff.1 hbinders
    obtain ⟨he', ht'⟩ := List.append_eq_nil_iff.1 hfree
    rw [ihe he he', iht ht ht']
  | loc _ ih => rw [ih hbinders hfree]

end Alike

theorem nameless_encodeWord (bits code : Nat) :
    (encodeWord bits code).binders = [] ∧ (encodeWord bits code).freeIds = [] := by
  induction bits generalizing code with
  | zero => exact ⟨rfl, rfl⟩
  | succ bits ih => exact ih (code / 2)

theorem nameless_of_encodeChar? {c : Char} {u : Term} (h : encodeChar? c = some u) :
    u.binders = [] ∧ u.freeIds = [] := by
  obtain ⟨-, rfl⟩ := encodeChar?_eq_some_iff.1 h
  exact nameless_encodeWord charBits c.toNat

theorem nameless_of_encodeChars? {cs : List Char} {u : Term} (h : encodeChars? cs = some u) :
    u.binders = [] ∧ u.freeIds = [] := by
  induction cs generalizing u with
  | nil =>
    cases h
    exact ⟨rfl, rfl⟩
  | cons c cs ih =>
    obtain ⟨head, hhead, tail, htail, rfl⟩ := encodeChars?_cons_eq_some_iff.1 h
    simp [binders, freeIds, nameless_of_encodeChar? hhead, ih htail]

namespace Alike

variable {ρ : Var → Var → Prop} {t t' : Term}

theorem decodeChar?_of_some (h : t.Alike ρ t') {c : Char} (hc : t.decodeChar? = some c) :
    t'.decodeChar? = some c := by
  rw [decodeChar?_iff] at hc ⊢
  obtain ⟨hbinders, hfree⟩ := nameless_of_encodeChar? hc
  rw [h.unlocate.eq_of_binders_eq_nil hbinders hfree]
  exact hc

theorem decodeString?_of_some (h : t.Alike ρ t') {s : String} (hs : t.decodeString? = some s) :
    t'.decodeString? = some s := by
  rw [decodeString?_iff] at hs ⊢
  obtain ⟨hbinders, hfree⟩ := nameless_of_encodeChars? hs
  rw [h.unlocate.eq_of_binders_eq_nil hbinders hfree]
  exact hs

theorem decodeChar?_eq (h : t.Alike ρ t') : t.decodeChar? = t'.decodeChar? :=
  Option.ext fun _ => ⟨h.decodeChar?_of_some, h.symm.decodeChar?_of_some⟩

theorem decodeString?_eq (h : t.Alike ρ t') : t.decodeString? = t'.decodeString? :=
  Option.ext fun _ => ⟨h.decodeString?_of_some, h.symm.decodeString?_of_some⟩

/-- Terms that are alike write the same literal, if any. -/
theorem literal?_eq (h : t.Alike ρ t') : Elaborator.literal? t = Elaborator.literal? t' := by
  unfold Elaborator.literal?
  rw [h.decodeChar?_eq, h.decodeString?_eq]

theorem noLiteral (h : t.Alike ρ t') (ht : t.NoLiteral) : t'.NoLiteral :=
  ⟨h.decodeChar?_eq ▸ ht.char, h.decodeString?_eq ▸ ht.string⟩

end Alike

end Term

/-! ## Tables -/

/-- The definitions have one name, and types and bodies that differ in the names of binders only. -/
structure Definition.Alike (d d' : Definition) : Prop where
  name : d.name = d'.name
  ty : d.ty.Alike Eq d'.ty
  body : d.body.Alike Eq d'.body

/-- The tables differ in the names of binders only. -/
def Table.Alike (t t' : Table) : Prop :=
  List.Forall₂ Definition.Alike t.entries t'.entries

namespace Table.Alike

variable {t t' : Table}

theorem symm (h : t.Alike t') : t'.Alike t :=
  h.flip.imp fun _ _ h => ⟨h.name.symm, h.ty.symm.mono fun _ _ => Eq.symm,
    h.body.symm.mono fun _ _ => Eq.symm⟩

theorem refl (t : Table) : t.Alike t :=
  List.forall₂_same.2 fun _ _ => ⟨rfl, .refl fun _ _ => rfl, .refl fun _ _ => rfl⟩

/-- A name is defined in both tables or in neither. -/
theorem find? (h : t.Alike t') (n : DefName) :
    Option.Rel Definition.Alike (t.find? n) (t'.find? n) := by
  unfold Table.find?
  unfold Table.Alike at h
  -- the two tables are gone through side by side, and have the same names
  generalize t.entries = entries, t'.entries = entries' at h ⊢
  induction h with
  | nil => exact .none
  | cons hd _ ih =>
    rw [List.find?_cons, List.find?_cons, hd.name]
    split
    · exact .some hd
    · exact ih

theorem exists_find? (h : t.Alike t') {n : DefName} {d : Definition} (hd : t.find? n = some d) :
    ∃ d', t'.find? n = some d' ∧ d.Alike d' := by
  have hfind := h.find? n
  rw [hd] at hfind
  cases hd' : t'.find? n with
  | none =>
    rw [hd'] at hfind
    cases hfind
  | some d' =>
    rw [hd'] at hfind
    cases hfind with
    | some halike => exact ⟨d', rfl, halike⟩

theorem find?_eq_none (h : t.Alike t') {n : DefName} (hn : t.find? n = none) :
    t'.find? n = none := by
  rw [Option.eq_none_iff_forall_ne_some]
  intro d' hd'
  obtain ⟨d, hd, -⟩ := h.symm.exists_find? hd'
  rw [hn] at hd
  cases hd

theorem isVarFree (h : t.Alike t') (hfree : t.IsVarFree) : t'.IsVarFree := by
  unfold Table.IsVarFree at hfree ⊢
  unfold Table.Alike at h
  generalize t.entries = entries, t'.entries = entries' at h hfree ⊢
  induction h with
  | nil => exact List.forall_mem_nil _
  | cons hd _ ih =>
    -- a table has no variables if neither the types nor the bodies do
    obtain ⟨⟨hty, hbody⟩, hrest⟩ := List.forall_mem_cons.1 hfree
    exact List.forall_mem_cons.2
      ⟨⟨hd.ty.freeIds_eq_nil_iff.1 hty, hd.body.freeIds_eq_nil_iff.1 hbody⟩, ih hrest⟩

end Table.Alike

end SelfTypes
