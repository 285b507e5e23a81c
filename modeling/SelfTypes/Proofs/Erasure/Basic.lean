import SelfTypes.Proofs.Term.Literal
import SelfTypes.Proofs.Term.Measure

/-!
# Untyped erasure

What is left of a term at run time follows from its syntax and from the positions that its parts
stand in: a position is checked if elaboration brings a type to it, and inferred if it does not.
`Term.Erases lossy p t c` says that `c` is left of `t` in the position `p`. If `lossy` is set, any
part in a checked position may have been dropped, as elaboration does with what stands in the place
of a type.

Below a binder the relation goes on with the opened body, in which a placeholder stands for the
parameter, or the value of an inlined local definition for its variable. Neither the identity of a
variable nor anything about types is looked at. Main statements: `Erases.of_skeleton_eq`, which says
so, `existsUnique_erases`, by which a closed term has exactly one exact erasure in either position,
and `Erases.thins_exact`, by which a lossy one is the exact one with parts missing.
-/

namespace SelfTypes

/-- How elaboration comes to a term. -/
inductive Position where
  /-- Its type is to be found. -/
  | inferred
  /-- It is checked against a type. -/
  | checked
  deriving DecidableEq

/-- The first code is the second one, with nothing in the place of some of its parts. -/
inductive Code.Thins : Code → Code → Prop where
  | refl (c : Code) : Thins c c
  | dropped (c : Code) : Thins .nul c
  | lam {name : BinderName} {b b' : Code} : Thins b b' → Thins (.lam name b) (.lam name b')
  | app {f f' a a' : Code} : Thins f f' → Thins a a' → Thins (.app f a) (.app f' a')
  | letIn {name : BinderName} {e e' b b' : Code} :
      Thins e e' → Thins b b' → Thins (.letIn name e b) (.letIn name e' b')

namespace Term

/-- What stands for a parameter in the body of a function or of a shared local definition. -/
def placeholder (name : BinderName) : Term :=
  .ann true (.var ⟨default, name⟩) .typ

/-- The code is left of the term in a position. In a lossy erasure, parts in checked positions may
be missing. -/
inductive Erases (lossy : Bool) : Position → Term → Code → Prop where
  /-- A part that was dropped. -/
  | dropped {t : Term} : lossy = true → Erases lossy .checked t .nul
  /-- A literal counts as one only where it is checked. -/
  | char {t : Term} {c : Char} : t.decodeChar? = some c → Erases lossy .checked t (.chr c)
  | string {t : Term} {s : String} :
      t.decodeString? = some s → Erases lossy .checked t (.str s)
  | var {p : Position} (x : Var) : Erases lossy p (.var x) (.var x.name)
  -- what is inferred is never decoded, so only a checked term has to be no literal
  | ref {p : Position} {name : DefName} :
      (p = .checked → (Term.ref name).NoLiteral) →
      Erases lossy p (.ref name) (.ref name)
  | typ {p : Position} : Erases lossy p .typ .nul
  | all {p : Position} {s n : BinderName} {a b : Term} : Erases lossy p (.all s n a b) .nul
  /-- A function stays, unless its parameter is erased. -/
  | lam {p : Position} {name : BinderName} {b : Term} {c : Code} :
      Erases lossy .checked (b.instantiate [placeholder name]) c →
      Erases lossy p (.lam name false b) (.lam name c)
  | erasedLam {p : Position} {name : BinderName} {b : Term} {c : Code} :
      Erases lossy .checked (b.instantiate [placeholder name]) c →
      Erases lossy p (.lam name true b) c
  /-- An application stays, unless its argument is erased. -/
  | app {p : Position} {f a : Term} {cf ca : Code} :
      (p = .checked → (Term.app f a false).NoLiteral) →
      Erases lossy .inferred f cf → Erases lossy .checked a ca →
      Erases lossy p (.app f a false) (.app cf ca)
  | erasedApp {p : Position} {f a : Term} {cf : Code} :
      Erases lossy .inferred f cf → Erases lossy p (.app f a true) cf
  /-- A local definition stays if its value may be duplicated; otherwise the value takes the place
  of its variable. -/
  | shared {p : Position} {name : BinderName} {e b : Term} {ce cb : Code} :
      Erases lossy .inferred e ce → Erases lossy p (b.instantiate [placeholder name]) cb →
      Erases lossy p (.letIn name true e b) (.letIn name ce cb)
  | inlined {p : Position} {name : BinderName} {e b : Term} {cb : Code} :
      Erases lossy p (b.instantiate [.ann true e .typ]) cb →
      Erases lossy p (.letIn name false e b) cb
  /-- Annotations and locations leave nothing behind; what is annotated is checked. -/
  | ann {p : Position} {done : Bool} {e ty : Term} {c : Code} :
      Erases lossy .checked e c → Erases lossy p (.ann done e ty) c
  | loc {p : Position} {span : Span} {e : Term} {c : Code} :
      Erases lossy p e c → Erases lossy p (.loc span e) c

/-! ## Skeletons -/

/-- The term without anything that its erasure does not depend on: the identities of variables, and
all that stands in types. -/
def skeleton : Term → Term
  | bound i => bound i
  | var x => var ⟨default, x.name⟩
  | ref n => ref n
  | typ | all .. => typ
  | lam n er b => lam n er b.skeleton
  | app f a er => app f.skeleton a.skeleton er
  | letIn n d e b => letIn n d e.skeleton b.skeleton
  | ann _ e _ => ann true e.skeleton typ
  | loc s e => loc s e.skeleton

@[simp] theorem skeleton_placeholder (name : BinderName) :
    (placeholder name).skeleton = placeholder name := rfl

theorem skeleton_openAt (values : List Term) (t : Term) (depth : Nat) :
    (t.openAt values depth).skeleton = t.skeleton.openAt (values.map skeleton) depth := by
  induction t generalizing depth with
  | bound i =>
    simp only [openAt_bound, skeleton, openIndex, List.getElem?_map, List.length_map]
    -- an index is opened, moved down or left, and values are replaced by their skeletons
    split
    · rfl
    · cases values[i - depth]? <;> rfl
  | var | ref | typ | all => rfl
  | lam _ _ _ ih => simp only [openAt_lam, skeleton, ih]
  | app _ _ _ ih₁ ih₂ => simp only [openAt_app, skeleton, ih₁, ih₂]
  | letIn _ _ _ _ ih₁ ih₂ => simp only [openAt_letIn, skeleton, ih₁, ih₂]
  | ann _ _ _ ih => simp only [openAt_ann, skeleton, ih, openAt_typ]
  | loc _ _ ih => simp only [openAt_loc, skeleton, ih]

theorem skeleton_instantiate (args : List Term) (body : Term) :
    (body.instantiate args).skeleton = body.skeleton.instantiate (args.map skeleton) := by
  rw [instantiate_eq_openAt, skeleton_openAt, List.map_reverse, instantiate_eq_openAt]

/-- Bodies that differ in what their skeletons leave out, opened with terms that do. -/
theorem skeleton_instantiate_congr {b b' v v' : Term} (hb : b.skeleton = b'.skeleton)
    (hv : v.skeleton = v'.skeleton) :
    (b.instantiate [v]).skeleton = (b'.instantiate [v']).skeleton := by
  rw [skeleton_instantiate, skeleton_instantiate, hb, List.map_singleton, List.map_singleton, hv]

/-! ## Literals have skeletons -/

theorem peel_skeleton (t : Term) : t.skeleton.peel = t.peel.skeleton := by
  induction t with
  | loc _ _ ih => exact ih
  | _ => rfl

theorem isRef_skeleton (name : DefName) (t : Term) : t.skeleton.isRef name = t.isRef name := by
  unfold isRef
  rw [peel_skeleton]
  cases t.peel <;> rfl

theorem argumentOf?_skeleton (name : DefName) (t : Term) :
    t.skeleton.argumentOf? name = (t.argumentOf? name).map skeleton := by
  unfold argumentOf?
  rw [peel_skeleton]
  cases t.peel with
  | app f a er =>
    -- an erased argument is no argument of a constructor
    cases er with
    | true => rfl
    | false =>
      simp only [skeleton, isRef_skeleton]
      split <;> rfl
  | _ => rfl

theorem decodeWord?_skeleton (bits : Nat) (t : Term) :
    decodeWord? bits t.skeleton = decodeWord? bits t := by
  induction bits generalizing t with
  | zero => simp only [decodeWord?, isRef_skeleton]
  | succ bits ih =>
    simp only [decodeWord?, argumentOf?_skeleton]
    cases t.argumentOf? "Word.0" with
    | some rest => simp only [Option.map_some, ih]
    | none =>
      simp only [Option.map_none]
      cases t.argumentOf? "Word.1" with
      | some rest => simp only [Option.map_some, Option.bind_eq_bind, Option.bind_some, ih]
      | none => rfl

theorem decodeChar?_skeleton (t : Term) : t.skeleton.decodeChar? = t.decodeChar? := by
  unfold decodeChar?
  rw [argumentOf?_skeleton]
  cases t.argumentOf? "U16.new" with
  | some word =>
    simp only [Option.map_some, Option.bind_eq_bind, Option.bind_some, decodeWord?_skeleton]
  | none => rfl

theorem decodeChars?_skeleton (t : Term) : t.skeleton.decodeChars? = t.decodeChars? := by
  induction t with
  | loc _ _ ih => simpa only [skeleton, decodeChars?] using ih
  | app f a er _ ih =>
    cases er with
    | true => rfl
    | false =>
      simp only [skeleton, decodeChars?, argumentOf?_skeleton, ih]
      cases f.argumentOf? "String.cons" with
      | some head =>
        simp only [Option.map_some, Option.bind_eq_bind, Option.bind_some, decodeChar?_skeleton]
      | none => rfl
  | _ => rfl

theorem decodeString?_skeleton (t : Term) : t.skeleton.decodeString? = t.decodeString? := by
  rw [decodeString?, decodeChars?_skeleton, decodeString?]

section SameSkeleton

variable {t u : Term}

theorem decodeChar?_eq_of_skeleton_eq (h : t.skeleton = u.skeleton) :
    t.decodeChar? = u.decodeChar? := by
  rw [← decodeChar?_skeleton, h, decodeChar?_skeleton]

theorem decodeString?_eq_of_skeleton_eq (h : t.skeleton = u.skeleton) :
    t.decodeString? = u.decodeString? := by
  rw [← decodeString?_skeleton, h, decodeString?_skeleton]

theorem NoLiteral.of_skeleton_eq (ht : t.NoLiteral) (h : t.skeleton = u.skeleton) :
    u.NoLiteral :=
  ⟨decodeChar?_eq_of_skeleton_eq h ▸ ht.char, decodeString?_eq_of_skeleton_eq h ▸ ht.string⟩

theorem literal?_eq_of_skeleton_eq (h : t.skeleton = u.skeleton) :
    Elaborator.literal? t = Elaborator.literal? u := by
  unfold Elaborator.literal?
  rw [decodeChar?_eq_of_skeleton_eq h, decodeString?_eq_of_skeleton_eq h]

end SameSkeleton

/-! ## Erasure follows from the skeleton -/

/-- Terms with one skeleton have the same erasures. -/
theorem Erases.of_skeleton_eq {lossy : Bool} {p : Position} {t u : Term} {c : Code}
    (h : Erases lossy p t c) (hu : t.skeleton = u.skeleton) : Erases lossy p u c := by
  induction h generalizing u with
  | dropped hlossy => exact .dropped hlossy
  | char hchar => exact .char (decodeChar?_eq_of_skeleton_eq hu ▸ hchar)
  | string hstring => exact .string (decodeString?_eq_of_skeleton_eq hu ▸ hstring)
  -- two terms with one skeleton have the same outermost node, so one case is left each time
  | var x =>
    cases u <;> simp only [skeleton, reduceCtorEq] at hu
    -- the skeleton forgets the identifier of a variable and keeps its name
    case var y =>
      obtain ⟨-, hname⟩ := Var.mk.inj (Term.var.inj hu)
      rw [hname]
      exact .var y
  | ref hnone =>
    cases u <;> simp only [skeleton, reduceCtorEq] at hu
    cases hu
    exact .ref hnone
  | typ | all =>
    cases u <;> simp only [skeleton, reduceCtorEq] at hu
    · exact .typ
    · exact .all
  | lam _ ih =>
    cases u <;> simp only [skeleton, reduceCtorEq] at hu
    obtain ⟨rfl, rfl, hb⟩ := Term.lam.inj hu
    exact .lam (ih (skeleton_instantiate_congr hb rfl))
  | erasedLam _ ih =>
    cases u <;> simp only [skeleton, reduceCtorEq] at hu
    obtain ⟨rfl, rfl, hb⟩ := Term.lam.inj hu
    exact .erasedLam (ih (skeleton_instantiate_congr hb rfl))
  | app hnone _ _ ihf iha =>
    have hnone' := fun hp => (hnone hp).of_skeleton_eq hu
    cases u <;> simp only [skeleton, reduceCtorEq] at hu
    obtain ⟨hf, ha, rfl⟩ := Term.app.inj hu
    exact .app hnone' (ihf hf) (iha ha)
  | erasedApp _ ih =>
    cases u <;> simp only [skeleton, reduceCtorEq] at hu
    obtain ⟨hf, -, rfl⟩ := Term.app.inj hu
    exact .erasedApp (ih hf)
  | shared _ _ ihe ihb =>
    cases u <;> simp only [skeleton, reduceCtorEq] at hu
    obtain ⟨rfl, rfl, he, hb⟩ := Term.letIn.inj hu
    exact .shared (ihe he) (ihb (skeleton_instantiate_congr hb rfl))
  | inlined _ ih =>
    cases u <;> simp only [skeleton, reduceCtorEq] at hu
    obtain ⟨rfl, rfl, he, hb⟩ := Term.letIn.inj hu
    -- the value is put in the place of its variable on both sides
    refine .inlined (ih (skeleton_instantiate_congr hb ?_))
    simp only [skeleton, he]
  | ann _ ih =>
    cases u <;> simp only [skeleton, reduceCtorEq] at hu
    obtain ⟨-, he, -⟩ := Term.ann.inj hu
    exact .ann (ih he)
  | loc _ ih =>
    cases u <;> simp only [skeleton, reduceCtorEq] at hu
    obtain ⟨-, he⟩ := Term.loc.inj hu
    exact .loc (ih he)

/-! ## Exact erasures -/

/-- An exact erasure is a lossy one in which nothing was dropped. -/
theorem Erases.lossy {p : Position} {t : Term} {c : Code} (h : Erases false p t c) :
    Erases true p t c := by
  induction h with
  | dropped hlossy => cases hlossy
  | char hchar => exact .char hchar
  | string hstring => exact .string hstring
  | var x => exact .var x
  | ref hnone => exact .ref hnone
  | typ => exact .typ
  | all => exact .all
  | lam _ ih => exact .lam ih
  | erasedLam _ ih => exact .erasedLam ih
  | app hnone _ _ ihf iha => exact .app hnone ihf iha
  | erasedApp _ ih => exact .erasedApp ih
  | shared _ _ ihe ihb => exact .shared ihe ihb
  | inlined _ ih => exact .inlined ih
  | ann _ ih => exact .ann ih
  | loc _ ih => exact .loc ih

/-- What is left of a character in a checked position is the character. -/
theorem Erases.code_of_decodeChar? {t : Term} {char : Char} {c : Code}
    (h : Erases false .checked t c) (hchar : t.decodeChar? = some char) : c = .chr char := by
  -- the position is an index, and only a checked literal has the code of the character
  generalize hp : Position.checked = p at h
  induction h with
  | dropped hlossy => cases hlossy
  | char hchar' =>
    rw [hchar] at hchar'
    cases hchar'
    rfl
  -- no term is a character and a string at once
  | string hstring =>
    rw [decodeString?_eq_none_of_decodeChar? hchar] at hstring
    cases hstring
  | ref hnone | app hnone => exact absurd hchar ((hnone hp.symm).decodeChar?_ne _)
  | loc _ ih => exact ih hchar hp
  -- the other forms are never decoded
  | _ => cases hchar

/-- What is left of a string in a checked position is the string. -/
theorem Erases.code_of_decodeString? {t : Term} {s : String} {c : Code}
    (h : Erases false .checked t c) (hstring : t.decodeString? = some s) : c = .str s := by
  generalize hp : Position.checked = p at h
  induction h with
  | dropped hlossy => cases hlossy
  | char hchar =>
    rw [decodeString?_eq_none_of_decodeChar? hchar] at hstring
    cases hstring
  | string hstring' =>
    rw [hstring] at hstring'
    cases hstring'
    rfl
  | ref hnone | app hnone => exact absurd hstring ((hnone hp.symm).decodeString?_ne _)
  | loc _ ih => exact ih hstring hp
  | _ => cases hstring

/-! ## What is left of each node -/

namespace Erases

variable {p : Position} {f a e b ty : Term} {n : BinderName} {done : Bool} {span : Span} {c : Code}

theorem eq_var {x : Var} (h : Erases false p (.var x) c) : c = .var x.name := by
  cases h with
  -- without loss nothing is dropped, and a variable is no literal
  | dropped h | char h | string h => cases h
  | var => rfl

theorem eq_ref {name : DefName} (h : Erases false p (.ref name) c)
    (hnone : p = .checked → (Term.ref name).NoLiteral) : c = .ref name := by
  cases h with
  | dropped h => cases h
  | char hchar => exact absurd hchar ((hnone rfl).decodeChar?_ne _)
  | string hstring => exact absurd hstring ((hnone rfl).decodeString?_ne _)
  | ref => rfl

theorem eq_typ (h : Erases false p .typ c) : c = .nul := by
  cases h with
  | dropped h | char h | string h => cases h
  | typ => rfl

theorem eq_all {s m : BinderName} (h : Erases false p (.all s m a b) c) : c = .nul := by
  cases h with
  | dropped h | char h | string h => cases h
  | all => rfl

theorem exists_lam (h : Erases false p (.lam n false b) c) :
    ∃ cb, c = .lam n cb ∧ Erases false .checked (b.instantiate [placeholder n]) cb := by
  cases h with
  | dropped h | char h | string h => cases h
  | lam hb => exact ⟨_, rfl, hb⟩

theorem erasedBody (h : Erases false p (.lam n true b) c) :
    Erases false .checked (b.instantiate [placeholder n]) c := by
  cases h with
  | dropped h | char h | string h => cases h
  | erasedLam hb => exact hb

theorem exists_app (h : Erases false p (.app f a false) c)
    (hnone : p = .checked → (Term.app f a false).NoLiteral) :
    ∃ cf ca, c = .app cf ca ∧ Erases false .inferred f cf ∧ Erases false .checked a ca := by
  cases h with
  | dropped h => cases h
  | char hchar => exact absurd hchar ((hnone rfl).decodeChar?_ne _)
  | string hstring => exact absurd hstring ((hnone rfl).decodeString?_ne _)
  | app _ hf ha => exact ⟨_, _, rfl, hf, ha⟩

theorem func (h : Erases false p (.app f a true) c) : Erases false .inferred f c := by
  cases h with
  | dropped h | char h | string h => cases h
  | erasedApp hf => exact hf

theorem exists_letIn (h : Erases false p (.letIn n true e b) c) :
    ∃ ce cb, c = .letIn n ce cb ∧ Erases false .inferred e ce ∧
      Erases false p (b.instantiate [placeholder n]) cb := by
  cases h with
  | dropped h | char h | string h => cases h
  | shared he hb => exact ⟨_, _, rfl, he, hb⟩

theorem inlinedBody (h : Erases false p (.letIn n false e b) c) :
    Erases false p (b.instantiate [.ann true e .typ]) c := by
  cases h with
  | dropped h | char h | string h => cases h
  | inlined hb => exact hb

theorem annotated (h : Erases false p (.ann done e ty) c) : Erases false .checked e c := by
  cases h with
  | dropped h | char h | string h => cases h
  | ann he => exact he

/-- A location is looked through, both by the decoder and by the erasure. -/
theorem located (h : Erases false p (.loc span e) c) : Erases false p e c := by
  cases h with
  | dropped h => cases h
  | char hchar => exact .char hchar
  | string hstring => exact .string hstring
  | loc he => exact he

end Erases

/-- A term has at most one exact erasure in a position. -/
theorem Erases.unique {p : Position} {t : Term} {c c' : Code} (h : Erases false p t c)
    (h' : Erases false p t c') : c = c' := by
  induction h generalizing c' with
  | dropped hlossy => cases hlossy
  | char hchar => exact (h'.code_of_decodeChar? hchar).symm
  | string hstring => exact (h'.code_of_decodeString? hstring).symm
  | var => exact h'.eq_var.symm
  | ref hnone => exact (h'.eq_ref hnone).symm
  | typ => exact h'.eq_typ.symm
  | all => exact h'.eq_all.symm
  | lam _ ih =>
    obtain ⟨cb, rfl, hb⟩ := h'.exists_lam
    rw [ih hb]
  | erasedLam _ ih => exact ih h'.erasedBody
  | app hnone _ _ ihf iha =>
    obtain ⟨cf, ca, rfl, hf, ha⟩ := h'.exists_app hnone
    rw [ihf hf, iha ha]
  | erasedApp _ ih => exact ih h'.func
  | shared _ _ ihe ihb =>
    obtain ⟨ce, cb, rfl, he, hb⟩ := h'.exists_letIn
    rw [ihe he, ihb hb]
  | inlined _ ih => exact ih h'.inlinedBody
  | ann _ ih => exact ih h'.annotated
  | loc _ ih => exact ih h'.located

theorem contentClosed_instantiate_placeholder (name : BinderName) {b : Term}
    (hb : b.ContentClosedAt 1) : (b.instantiate [placeholder name]).ContentClosedAt 0 :=
  hb.instantiate (v := placeholder name) trivial

/-- A literal is what its checked position makes of it; other terms go by the rules of their
nodes. -/
theorem literal_cases (p : Position) (t : Term) :
    (p = .checked → t.NoLiteral) ∨ (p = .checked ∧ ∃ c, t.decodeChar? = some c) ∨
      (p = .checked ∧ ∃ s, t.decodeString? = some s) := by
  cases p with
  | inferred => exact .inl nofun
  | checked =>
    cases hchar : t.decodeChar? with
    | some c => exact .inr (.inl ⟨rfl, c, rfl⟩)
    -- a character is tried first, as the decoder does
    | none =>
      cases hstring : t.decodeString? with
      | some s => exact .inr (.inr ⟨rfl, s, rfl⟩)
      | none => exact .inl fun _ => ⟨hchar, hstring⟩

/-- A term whose indices have binders has an exact erasure in either position. -/
theorem exists_erases {t : Term} (ht : t.ContentClosedAt 0) (p : Position) :
    ∃ c, Erases false p t c := by
  -- an opened body weighs less than the binder, whatever its size is
  induction hn : t.weight [] using Nat.strongRecOn generalizing t p with
  | ind n ih =>
  subst hn
  rcases literal_cases p t with hnone | ⟨rfl, c, hchar⟩ | ⟨rfl, s, hstring⟩
  · cases t with
    | bound i => exact absurd ht (Nat.not_lt_zero i)
    | var x => exact ⟨_, .var x⟩
    | ref name => exact ⟨_, .ref hnone⟩
    | typ => exact ⟨_, .typ⟩
    | all => exact ⟨_, .all⟩
    | lam name er b =>
      have hlt := weight_lamBody_lt name er b (v := placeholder name) trivial rfl
      obtain ⟨c, hc⟩ := ih _ hlt (contentClosed_instantiate_placeholder name ht) .checked rfl
      cases er with
      | false => exact ⟨_, .lam hc⟩
      | true => exact ⟨_, .erasedLam hc⟩
    | app f a er =>
      -- a function is inferred and its argument is checked
      obtain ⟨cf, hf⟩ := ih _ (weight_func_lt er f a) ht.1 .inferred rfl
      obtain ⟨ca, ha⟩ := ih _ (weight_arg_lt er f a) ht.2 .checked rfl
      cases er with
      | false => exact ⟨_, .app hnone hf ha⟩
      | true => exact ⟨_, .erasedApp hf⟩
    | letIn name dup e b =>
      cases dup with
      | true =>
        have hlt := weight_sharedBody_lt name e b (v := placeholder name) trivial rfl
        obtain ⟨ce, he⟩ := ih _ (weight_expr_lt name true e b) ht.1 .inferred rfl
        obtain ⟨cb, hb⟩ := ih _ hlt (contentClosed_instantiate_placeholder name ht.2) p rfl
        exact ⟨_, .shared he hb⟩
      | false =>
        have hv : (Term.ann true e .typ).ContentClosedAt 0 := ht.1
        obtain ⟨cb, hb⟩ := ih _ (weight_inlinedBody_lt name ht.1 b) (ht.2.instantiate hv) p rfl
        exact ⟨_, .inlined hb⟩
    | ann done e ty =>
      have he : e.ContentClosedAt 0 := ht
      obtain ⟨c, hc⟩ := ih _ (weight_ann_lt done e ty) he .checked rfl
      exact ⟨_, .ann hc⟩
    | loc span e =>
      have he : e.ContentClosedAt 0 := ht
      obtain ⟨c, hc⟩ := ih _ (weight_loc_lt e span) he p rfl
      exact ⟨_, .loc hc⟩
  · exact ⟨_, .char hchar⟩
  · exact ⟨_, .string hstring⟩

/-- A term whose indices have binders has exactly one exact erasure in either position. -/
theorem existsUnique_erases {t : Term} (ht : t.ContentClosedAt 0) (p : Position) :
    ∃ c, Erases false p t c ∧ ∀ c', Erases false p t c' → c' = c := by
  obtain ⟨c, hc⟩ := exists_erases ht p
  exact ⟨c, hc, fun c' hc' => hc'.unique hc⟩

/-! ## Lossy erasures -/

/-- What is left of a closed term in a lossy erasure is its exact erasure, with nothing in the place
of some parts. -/
theorem Erases.thins_exact {p : Position} {t : Term} {c : Code} (h : Erases true p t c)
    (ht : t.ContentClosedAt 0) : ∃ e, Erases false p t e ∧ c.Thins e := by
  induction h with
  | dropped =>
    -- what was dropped has a code of its own, which is missing on the left
    obtain ⟨e, he⟩ := exists_erases ht .checked
    exact ⟨e, he, .dropped e⟩
  | char hchar => exact ⟨_, .char hchar, .refl _⟩
  | string hstring => exact ⟨_, .string hstring, .refl _⟩
  | var x => exact ⟨_, .var x, .refl _⟩
  | ref hnone => exact ⟨_, .ref hnone, .refl _⟩
  | typ => exact ⟨_, .typ, .refl _⟩
  | all => exact ⟨_, .all, .refl _⟩
  | lam _ ih =>
    obtain ⟨e, he, hthin⟩ := ih (contentClosed_instantiate_placeholder _ ht)
    exact ⟨_, .lam he, .lam hthin⟩
  | erasedLam _ ih =>
    obtain ⟨e, he, hthin⟩ := ih (contentClosed_instantiate_placeholder _ ht)
    exact ⟨e, .erasedLam he, hthin⟩
  | app hnone _ _ ihf iha =>
    obtain ⟨ef, hf, hthinf⟩ := ihf ht.1
    obtain ⟨ea, ha, hthina⟩ := iha ht.2
    exact ⟨_, .app hnone hf ha, .app hthinf hthina⟩
  | erasedApp _ ih =>
    obtain ⟨e, he, hthin⟩ := ih ht.1
    exact ⟨e, .erasedApp he, hthin⟩
  | shared _ _ ihe ihb =>
    obtain ⟨ee, he, hthine⟩ := ihe ht.1
    obtain ⟨eb, hb, hthinb⟩ := ihb (contentClosed_instantiate_placeholder _ ht.2)
    exact ⟨_, .shared he hb, .letIn hthine hthinb⟩
  | @inlined _ _ value _ _ _ ih =>
    have hv : (Term.ann true value .typ).ContentClosedAt 0 := ht.1
    obtain ⟨e, he, hthin⟩ := ih (ht.2.instantiate hv)
    exact ⟨e, .inlined he, hthin⟩
  | ann _ ih =>
    obtain ⟨e, he, hthin⟩ := ih ht
    exact ⟨e, .ann he, hthin⟩
  | loc _ ih =>
    obtain ⟨e, he, hthin⟩ := ih ht
    exact ⟨e, .loc he, hthin⟩

end Term

end SelfTypes
