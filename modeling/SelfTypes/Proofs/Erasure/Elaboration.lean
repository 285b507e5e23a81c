import SelfTypes.Proofs.Elaboration.Derivation
import SelfTypes.Proofs.Erasure.Basic

/-!
# Code is an erasure

Up to the marks of native values, the code of an elaborated term is a lossy erasure of the term:
types decide where marks stand and which checked parts are dropped, and nothing else. Main
statement: `Elaborator.erases_of_elaborated`.
-/

namespace SelfTypes

/-! ## Code without marks -/

/-- The code without the marks of native values. -/
def Code.unmarked : Code → Code
  | var n => var n
  | ref n => ref n
  | nul => nul
  | lam n b => lam n b.unmarked
  | app f a => app f.unmarked a.unmarked
  | letIn n e b => letIn n e.unmarked b.unmarked
  | elim _ v => v.unmarked
  | inst _ f => f.unmarked
  | chr c => chr c
  | str s => str s

theorem unmarked_calleeCode (prim : Option Primitive) (func : Code) :
    (calleeCode prim func).unmarked = func.unmarked := by
  cases prim <;> rfl

theorem unmarked_instCode (prim : Option Primitive) (func : Code) :
    (instCode prim func).unmarked = func.unmarked := by
  cases prim <;> rfl

/-! ## Positions -/

/-- The position that a term is elaborated in. -/
def Mode.position : Mode → Position
  | .synthesis => .inferred
  | .analysis _ => .checked

/-- A term without a rule of its own has the same erasure where it is checked as where its type is
found. -/
theorem Term.Erases.checked {lossy : Bool} {t : Term} {c : Code}
    (h : Erases lossy .inferred t c) (hrule : t.hasCheckRule = false)
    (hnone : t.NoLiteral) : Erases lossy .checked t c := by
  cases h with
  | var x => exact .var x
  | ref => exact .ref fun _ => hnone
  | typ => exact .typ
  | all => exact .all
  | app _ hf ha => exact .app (fun _ => hnone) hf ha
  | erasedApp hf => exact .erasedApp hf
  | ann he => exact .ann he
  -- these have a rule of their own
  | lam | erasedLam | shared | inlined | loc => cases hrule

/-! ## Stand-ins -/

/-- An annotated variable is opened like the placeholder of its name. -/
theorem Term.Erases.of_parameter {lossy : Bool} {p : Position} {b ty : Term} {x : Var} {c : Code}
    (h : Erases lossy p (b.instantiate [.ann true (.var x) ty]) c) :
    Erases lossy p (b.instantiate [placeholder x.name]) c :=
  h.of_skeleton_eq (skeleton_instantiate_congr rfl rfl)

/-- The type in a stand-in does not matter. -/
theorem Term.Erases.of_value {lossy : Bool} {p : Position} {b e ty : Term} {c : Code}
    (h : Erases lossy p (b.instantiate [.ann true e ty]) c) :
    Erases lossy p (b.instantiate [.ann true e .typ]) c :=
  h.of_skeleton_eq (skeleton_instantiate_congr rfl rfl)

/-! ## Derivations -/

/-- Up to marks, derived code is a lossy erasure of its term. -/
theorem Derives.erases {env : Environment} {ctx : Context} {t : Term} {mode : Mode}
    {k k' : Kernel} {r : Elaborated} (h : Derives env ctx t mode k r k') :
    t.Erases true mode.position r.code.unmarked := by
  induction h with
  | later _ _ _ ih => exact ih
  | @var _ x => exact .var x
  | ref => exact .ref nofun
  | typ => exact .typ
  | all => exact .all
  | @app _ _ _ _ _ er _ _ _ _ _ _ _ _ _ _ _ ihf iha =>
    -- an erased argument is not in the code; a primitive marks the callee, and the mark is dropped
    cases er with
    | false =>
      simp only [appCode, Bool.false_eq_true, if_false, Code.unmarked, unmarked_calleeCode]
      exact .app nofun ihf iha
    | true =>
      simp only [appCode, if_true, unmarked_calleeCode]
      exact .erasedApp ihf
  | @letIn _ name dup e b mode x value r _ _ _ _ _ hx _ ihe ihb =>
    cases dup with
    | true =>
      -- the issued variable has the name of its binder, as a placeholder has
      cases hx
      exact .shared ihe ihb.of_parameter
    | false => exact .inlined ihb.of_value
  | ann _ ih => exact .ann ih
  | loc _ _ ih => exact .loc ih
  | literal hliteral =>
    -- a literal has no marks
    obtain ⟨c, hchar, rfl⟩ | ⟨s, hstring, rfl⟩ := Elaborator.exists_of_literal? hliteral
    · exact .char hchar
    · exact .string hstring
  | type => exact .dropped rfl
  | @lam _ name _ _ er _ _ _ _ x _ r _ _ _ _ hx _ ih =>
    rw [unmarked_instCode]
    cases hx
    cases er with
    | false => exact .lam ih.of_parameter
    | true => exact .erasedLam ih.of_parameter
  | infer hrule hliteral _ _ _ ih => exact ih.checked hrule (Term.literal?_eq_none_iff.1 hliteral)

/-! ## Elaboration -/

namespace Elaborator

/-- Types decide no more than marks and what is dropped in checked positions: without its marks, the
code of a term that is accepted is a lossy erasure of the term, in the position of the task. -/
theorem erases_of_elaborated (env : Environment) (depth : Nat) (ctx : Context) (t : Term)
    (e e' : Elaborator) (r : Elaborated) :
    (infer env depth ctx t e = .ok r e' → t.Erases true .inferred r.code.unmarked) ∧
      ∀ ty, check env depth ctx t ty e = .ok r e' →
        t.Erases true .checked r.code.unmarked := by
  refine ⟨?_, ?_⟩
  · intro h
    exact (derives_of_infer h).erases
  · intro ty h
    exact (derives_of_check h).erases

/-- A string takes a type to a value of it here. The other global takes an erased type, a character
and a string to a string. -/
def prepending : Table :=
  .ofList
    [⟨"String", .typ, .pi "P" .typ (.bound 0)⟩,
     ⟨"prepend", .pi "A" .typ (.pi "c" (.ref "Char") (.pi "s" (.ref "String") (.ref "String"))),
      .ref "prepend"⟩]

/-- The term of a character whose code fits in sixteen bits. -/
def written (c : Char) : Term :=
  .app (.ref "U16.new") (.encodeWord Term.charBits c.toNat) false

/-- A function with an erased parameter, a local definition that is inlined and one that is shared,
and literals in two checked places. -/
def prepended : Term :=
  .lam "A" true <| .lam "x" false <|
    .letIn "c" false (.ann false (written 'a') (.ref "Char")) <|
    .letIn "y" true (.bound 1) <|
      .apps (.ref "prepend")
        [(.bound 3, true), (.bound 1, false),
         (.apps (.ref "String.cons") [(written 'b', false), (.ref "String.nil", false)], false),
         (.bound 3, false)]

/-- The character, which is inlined, and the string are left as literals, the erased parameter and
argument are gone, and so is the type that the string is applied to. -/
theorem erases_of_elaborated_prepended :
    ∃ r e', check ⟨prepending, true⟩ 16 .empty prepended
        (.pi "A" .typ (.pi "x" (.bound 0) (.bound 2))) (.start ⟨0, 0⟩ none) = .ok r e' ∧
      r.code = .lam "x" (.letIn "y" (.var "x")
        (.app (.elim .string (.app (.app (.ref "prepend") (.chr 'a')) (.str "b"))) .nul)) ∧
      prepended.Erases true .checked r.code.unmarked := by
  obtain ⟨e', h⟩ := EStateM.Result.exists_ok_of_value?
    (r := check ⟨prepending, true⟩ 16 .empty prepended
      (.pi "A" .typ (.pi "x" (.bound 0) (.bound 2))) (.start ⟨0, 0⟩ none))
    (a := ⟨.lam "x" (.letIn "y" (.var "x")
        (.app (.elim .string (.app (.app (.ref "prepend") (.chr 'a')) (.str "b"))) .nul)),
      .pi "A" .typ (.pi "x" (.bound 0) (.bound 2))⟩)
    (by decide +kernel)
  exact ⟨_, e', h, rfl, (erases_of_elaborated _ _ _ _ _ _ _).2 _ h⟩

end Elaborator

end SelfTypes
