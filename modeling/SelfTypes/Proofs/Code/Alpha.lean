import SelfTypes.Proofs.Elaboration.Alike
import SelfTypes.Proofs.Erasure.Elaboration

/-!
# Alpha-equivalence of code

Code is alpha-equivalent if it has the same nodes, and if a variable on one side refers to the
binder that stands in the place of the one that its counterpart refers to; a variable refers to the
nearest binder of its name. `Code.AlphaUnder around` says this of code below binders: their names on
both sides are listed as pairs, the innermost first. Main statements:
`Code.alphaEquivalent_equivalence`, and `Code.Alike.alpha`, by which code that is alike is
alpha-equivalent if what it was before marks were set and parts were dropped is.
-/

namespace SelfTypes.Code

/-! ## Binders -/

/-- The nearest binder of the first name is the counterpart of the nearest one of the second name; a
name without a binder is its own counterpart. -/
inductive SameBinder : List (BinderName × BinderName) → BinderName → BinderName → Prop where
  | free (n : BinderName) : SameBinder [] n n
  | here (n n' : BinderName) (around : List (BinderName × BinderName)) :
      SameBinder ((n, n') :: around) n n'
  | there {m m' n n' : BinderName} {around : List (BinderName × BinderName)} :
      m ≠ n → m' ≠ n' → SameBinder around m m' → SameBinder ((n, n') :: around) m m'

/-- Code below the given binders that differs in the names of binders only. -/
inductive AlphaUnder : List (BinderName × BinderName) → Code → Code → Prop where
  | var {around : List (BinderName × BinderName)} {n n' : BinderName} :
      SameBinder around n n' → AlphaUnder around (.var n) (.var n')
  | ref {around : List (BinderName × BinderName)} (n : DefName) :
      AlphaUnder around (.ref n) (.ref n)
  | nul {around : List (BinderName × BinderName)} : AlphaUnder around .nul .nul
  | lam {around : List (BinderName × BinderName)} {n n' : BinderName} {b b' : Code} :
      AlphaUnder ((n, n') :: around) b b' → AlphaUnder around (.lam n b) (.lam n' b')
  | app {around : List (BinderName × BinderName)} {f f' a a' : Code} :
      AlphaUnder around f f' → AlphaUnder around a a' → AlphaUnder around (.app f a) (.app f' a')
  | letIn {around : List (BinderName × BinderName)} {n n' : BinderName} {e e' b b' : Code} :
      AlphaUnder around e e' → AlphaUnder ((n, n') :: around) b b' →
      AlphaUnder around (.letIn n e b) (.letIn n' e' b')
  | elim {around : List (BinderName × BinderName)} {p : Primitive} {v v' : Code} :
      AlphaUnder around v v' → AlphaUnder around (.elim p v) (.elim p v')
  | inst {around : List (BinderName × BinderName)} {p : Primitive} {f f' : Code} :
      AlphaUnder around f f' → AlphaUnder around (.inst p f) (.inst p f')
  | chr {around : List (BinderName × BinderName)} (c : Char) :
      AlphaUnder around (.chr c) (.chr c)
  | str {around : List (BinderName × BinderName)} (s : String) :
      AlphaUnder around (.str s) (.str s)

/-- The code differs in the names of binders only. -/
def AlphaEquivalent (c c' : Code) : Prop :=
  AlphaUnder [] c c'

section

variable {around : List (BinderName × BinderName)} {m m' : BinderName} {c c' : Code}

theorem sameBinder_cons_iff {n n' : BinderName} :
    SameBinder ((n, n') :: around) m m' ↔
      m = n ∧ m' = n' ∨ m ≠ n ∧ m' ≠ n' ∧ SameBinder around m m' := by
  constructor
  · intro h
    cases h with
    | here => exact .inl ⟨rfl, rfl⟩
    | there hm hm' h => exact .inr ⟨hm, hm', h⟩
  · rintro (⟨rfl, rfl⟩ | ⟨hm, hm', h⟩)
    · exact .here m m' around
    · exact .there hm hm' h

/-! ## An equivalence -/

theorem sameBinder_refl (names : List BinderName) (m : BinderName) :
    SameBinder (names.map fun n => (n, n)) m m := by
  induction names with
  | nil => exact .free m
  | cons n names ih =>
    -- the innermost binder of the name is found on both sides at the same place
    by_cases hm : m = n
    · rw [hm]
      exact .here n n _
    · exact .there hm hm ih

theorem SameBinder.symm (h : SameBinder around m m') :
    SameBinder (around.map Prod.swap) m' m := by
  induction h with
  | free n => exact .free n
  | here n n' around => exact .here n' n _
  | there hm hm' _ ih => exact .there hm' hm ih

/-- Binders with a name on a first, a second and a third side. -/
theorem SameBinder.trans {m'' : BinderName}
    (around : List (BinderName × BinderName × BinderName))
    (h : SameBinder (around.map fun n => (n.1, n.2.1)) m m')
    (h' : SameBinder (around.map fun n => (n.2.1, n.2.2)) m' m'') :
    SameBinder (around.map fun n => (n.1, n.2.2)) m m'' := by
  -- three codes are compared below triples of binders, one for each code
  induction around with
  | nil =>
    cases h
    cases h'
    exact .free m
  | cons n around ih =>
    cases h with
    | here =>
      -- the code in the middle has one nearest binder, so both sides find theirs at the same place
      cases h' with
      | here => exact .here _ _ _
      | there hm => exact absurd rfl hm
    | there hm hm' h =>
      cases h' with
      | here => exact absurd rfl hm'
      | there _ hm'' h' => exact .there hm hm'' (ih h h')

theorem alphaUnder_refl (names : List BinderName) (c : Code) :
    AlphaUnder (names.map fun n => (n, n)) c c := by
  induction c generalizing names with
  | var m => exact .var (sameBinder_refl names m)
  | ref n => exact .ref n
  | nul => exact .nul
  | lam n b ih => exact .lam (ih (n :: names))
  | app f a ihf iha => exact .app (ihf names) (iha names)
  | letIn n e b ihe ihb => exact .letIn (ihe names) (ihb (n :: names))
  | elim p v ih => exact .elim (ih names)
  | inst p f ih => exact .inst (ih names)
  | chr c => exact .chr c
  | str s => exact .str s

theorem AlphaUnder.symm (h : AlphaUnder around c c') :
    AlphaUnder (around.map Prod.swap) c' c := by
  induction h with
  | var h => exact .var h.symm
  | ref n => exact .ref n
  | nul => exact .nul
  | lam _ ih => exact .lam ih
  | app _ _ ihf iha => exact .app ihf iha
  | letIn _ _ ihe ihb => exact .letIn ihe ihb
  | elim _ ih => exact .elim ih
  | inst _ ih => exact .inst ih
  | chr c => exact .chr c
  | str s => exact .str s

theorem AlphaUnder.trans {c'' : Code} (around : List (BinderName × BinderName × BinderName))
    (h : AlphaUnder (around.map fun n => (n.1, n.2.1)) c c')
    (h' : AlphaUnder (around.map fun n => (n.2.1, n.2.2)) c' c'') :
    AlphaUnder (around.map fun n => (n.1, n.2.2)) c c'' := by
  -- the code in the middle is taken apart along with the first one
  induction c generalizing around c' c'' with
  | var => cases h with | var h => cases h' with | var h' => exact .var (.trans around h h')
  | ref n =>
    cases h
    cases h'
    exact .ref n
  | nul =>
    cases h
    cases h'
    exact .nul
  | @lam n b ih =>
    cases h with
    | @lam _ _ n' _ b' h =>
      cases h' with
      | @lam _ _ n'' _ b'' h' => exact .lam (ih ((n, n', n'') :: around) h h')
  | app f a ihf iha =>
    cases h with
    | app hf ha => cases h' with | app hf' ha' => exact .app (ihf around hf hf') (iha around ha ha')
  | letIn n e b ihe ihb =>
    cases h with
    | @letIn _ _ n' _ _ _ _ he hb =>
      cases h' with
      | @letIn _ _ n'' _ _ _ _ he' hb' =>
        exact .letIn (ihe around he he') (ihb ((n, n', n'') :: around) hb hb')
  | elim p v ih => cases h with | elim h => cases h' with | elim h' => exact .elim (ih around h h')
  | inst p f ih => cases h with | inst h => cases h' with | inst h' => exact .inst (ih around h h')
  | chr c =>
    cases h
    cases h'
    exact .chr c
  | str s =>
    cases h
    cases h'
    exact .str s

theorem alphaEquivalent_equivalence : Equivalence AlphaEquivalent where
  refl c := alphaUnder_refl [] c
  symm h := h.symm
  trans h h' := AlphaUnder.trans [] h h'

/-! ## Marks and dropped parts -/

theorem Thins.exists_lam {n : BinderName} {b e : Code} (h : (Code.lam n b).Thins e) :
    ∃ b', e = .lam n b' ∧ b.Thins b' := by
  cases h with
  | refl => exact ⟨b, rfl, .refl b⟩
  | lam hb => exact ⟨_, rfl, hb⟩

theorem Thins.exists_app {f a e : Code} (h : (Code.app f a).Thins e) :
    ∃ f' a', e = .app f' a' ∧ f.Thins f' ∧ a.Thins a' := by
  cases h with
  | refl => exact ⟨f, a, rfl, .refl f, .refl a⟩
  | app hf ha => exact ⟨_, _, rfl, hf, ha⟩

theorem Thins.exists_letIn {n : BinderName} {v b e : Code} (h : (Code.letIn n v b).Thins e) :
    ∃ v' b', e = .letIn n v' b' ∧ v.Thins v' ∧ b.Thins b' := by
  cases h with
  | refl => exact ⟨v, b, rfl, .refl v, .refl b⟩
  | letIn hv hb => exact ⟨_, _, rfl, hv, hb⟩

/-- What was dropped from code that is alike was dropped in the same places, and the marks are the
same on both sides. So the code is alpha-equivalent if it was so before. -/
theorem Alike.alpha {e e' : Code} (h : c.Alike c') (he : AlphaUnder around e e')
    (hthin : c.unmarked.Thins e) (hthin' : c'.unmarked.Thins e') : AlphaUnder around c c' := by
  induction h generalizing around e e' with
  -- a variable is not a part that can be missing, so it is the one that was compared
  | var n n' =>
    cases hthin
    cases hthin'
    exact he
  | ref n => exact .ref n
  | nul => exact .nul
  | chr c => exact .chr c
  | str s => exact .str s
  -- a node that is left is a node of the exact code, with parts missing in it only
  | lam _ ih =>
    obtain ⟨b, rfl, hb⟩ := hthin.exists_lam
    obtain ⟨b', rfl, hb'⟩ := hthin'.exists_lam
    cases he with
    | lam he => exact .lam (ih he hb hb')
  | app _ _ ihf iha =>
    obtain ⟨f, a, rfl, hf, ha⟩ := hthin.exists_app
    obtain ⟨f', a', rfl, hf', ha'⟩ := hthin'.exists_app
    cases he with
    | app hef hea => exact .app (ihf hef hf hf') (iha hea ha ha')
  | letIn _ _ ihv ihb =>
    obtain ⟨v, b, rfl, hv, hb⟩ := hthin.exists_letIn
    obtain ⟨v', b', rfl, hv', hb'⟩ := hthin'.exists_letIn
    cases he with
    | letIn hev heb => exact .letIn (ihv hev hv hv') (ihb heb hb hb')
  -- marks are not seen by erasures, and are the same on both sides
  | elim _ ih => exact .elim (ih he hthin hthin')
  | inst _ ih => exact .inst (ih he hthin hthin')

end

end SelfTypes.Code
