import SelfTypes.Proofs.Elaboration.Inlining
import SelfTypes.Proofs.Elaboration.Judgement

/-!
# Elaboration with values in the places of variables

Two judgements are compared, on terms of which the one has annotated values where the other one has
the values themselves. If they agree about the values, they agree about the terms: the code is the
same, but for what is left out where a value is annotated, and the types resemble each other. Main
statements: `Inlining.IsSound.agreesAlong`, and its case `Judges.agree_of_agreesOn` without any
values, by which the code of a term does not depend on the variables that a run issues.
-/

namespace SelfTypes

/-! ## Code with parts left out -/

/-- The codes are equal, but that the first one may have `null` in places, if parts of it may be
left out. -/
inductive Code.Blanks (may : Prop) : Code → Code → Prop where
  | blank {c : Code} : may → Blanks may .nul c
  | same (c : Code) : Blanks may c c
  | lam {name : BinderName} {b b' : Code} :
      Blanks may b b' → Blanks may (.lam name b) (.lam name b')
  | app {f f' a a' : Code} : Blanks may f f' → Blanks may a a' → Blanks may (.app f a) (.app f' a')
  | letIn {name : BinderName} {e e' b b' : Code} :
      Blanks may e e' → Blanks may b b' → Blanks may (.letIn name e b) (.letIn name e' b')
  | elim {p : Primitive} {v v' : Code} : Blanks may v v' → Blanks may (.elim p v) (.elim p v')
  | inst {p : Primitive} {f f' : Code} : Blanks may f f' → Blanks may (.inst p f) (.inst p f')

namespace Code.Blanks

variable {may : Prop} {c c' f f' a a' : Code} {name : BinderName} {er dup : Bool}
  {prim : Option Primitive}

/-- If no part may be left out, the codes are equal. -/
theorem eq (h : Blanks may c c') (hmay : ¬ may) : c = c' := by
  induction h with
  | blank h => exact absurd h hmay
  | same => rfl
  | lam _ ih => rw [ih]
  | app _ _ ihf iha => rw [ihf, iha]
  | letIn _ _ ihe ihb => rw [ihe, ihb]
  | elim _ ih | inst _ ih => rw [ih]

theorem calleeCode (h : Blanks may c c') :
    Blanks may (calleeCode prim c) (SelfTypes.calleeCode prim c') := by
  cases prim with
  | none => exact h
  | some => exact .elim h

theorem appCode (hf : Blanks may f f') (ha : Blanks may a a') :
    Blanks may (appCode er f a) (SelfTypes.appCode er f' a') := by
  cases er with
  | true => exact hf
  | false => exact .app hf ha

theorem letCode (he : Blanks may a a') (hb : Blanks may c c') :
    Blanks may (letCode name dup a c) (SelfTypes.letCode name dup a' c') := by
  cases dup with
  | true => exact .letIn he hb
  | false => exact hb

theorem lamCode (h : Blanks may c c') :
    Blanks may (lamCode name er c) (SelfTypes.lamCode name er c') := by
  cases er with
  | true => exact h
  | false => exact .lam h

theorem instCode (h : Blanks may c c') :
    Blanks may (instCode prim c) (SelfTypes.instCode prim c') := by
  cases prim with
  | none => exact h
  | some => exact .inst h

end Code.Blanks

/-! ## Terms that are checked -/

namespace Judges

variable {env : Environment} {kept : List VarId} {ctx : Context} {t ty : Term} {r : Elaborated}

/-- A literal is taken as it is. -/
theorem eq_of_literal? (h : Judges env kept ctx t (.analysis ty) r) {lit : Elaborated}
    (ht : Elaborator.literal? t = some lit) : r = lit := by
  cases h with
  | literal hlit => exact Option.some.inj (hlit.symm.trans ht)
  | letIn hlooks | loc hlooks | shown _ hlooks => rw [hlooks.1] at ht; cases ht
  | type hnone => rw [hnone] at ht; cases ht
  | lam => exact absurd ht (Term.literal?_ne_some_of_isPlain rfl _)

/-- Nothing else is looked at in the place of a type. -/
theorem eq_of_universe (h : Judges env kept ctx t (.analysis ty) r)
    (ht : Elaborator.literal? t = none) (hty : WeakHead env.table ty .typ) :
    r = ⟨.nul, .typ⟩ := by
  cases h with
  | type => rfl
  | literal hlit => rw [ht] at hlit; cases hlit
  | letIn hlooks | loc hlooks | shown _ hlooks => exact absurd hty hlooks.2
  | lam hall => cases hall.unique hty

/-- A term without a rule of its own has shown its type. -/
theorem exists_found (h : Judges env kept ctx t (.analysis ty) r) (hrule : t.hasCheckRule = false)
    (hlooks : (Mode.analysis ty).LooksInto env.table t) :
    ∃ found, Judges env kept ctx t .synthesis found ∧ r = ⟨found.code, ty⟩ ∧
      (env.subsumption = true → Convertible env.table found.ty ty) := by
  cases h with
  | shown _ _ hfound hconv => exact ⟨_, hfound, rfl, hconv⟩
  | literal hlit => rw [hlooks.1] at hlit; cases hlit
  | type _ htyp => exact absurd htyp hlooks.2
  | letIn | loc | lam => cases hrule

end Judges

/-! ## Contexts and modes -/

/-- The variables have one name, and types that resemble each other if they have any. -/
structure TypedAlike (table : Table) (ctx ctx' : Context) (x x' : Var) : Prop where
  name : x.name = x'.name
  types : ∀ ty ty', ctx.find? x.id = some ty → ctx'.find? x'.id = some ty' →
    Resembles table ty ty'

namespace TypedAlike

variable {table : Table} {ctx ctx' : Context} {x x' y y' : Var} {ty ty' : Term}

/-- New variables hide none of those that correspond. -/
theorem extend (h : TypedAlike table ctx ctx' x x') (hx : y.id ≠ x.id) (hx' : y'.id ≠ x'.id) :
    TypedAlike table (ctx.extend y ty) (ctx'.extend y' ty') x x' := by
  refine ⟨h.name, fun found found' hfound hfound' => ?_⟩
  rw [Context.find?_extend, if_neg hx] at hfound
  rw [Context.find?_extend, if_neg hx'] at hfound'
  exact h.types found found' hfound hfound'

theorem latest (hname : x.name = x'.name) (hty : Resembles table ty ty') :
    TypedAlike table (ctx.extend x ty) (ctx'.extend x' ty') x x' := by
  refine ⟨hname, fun found found' hfound hfound' => ?_⟩
  rw [Context.find?_extend, if_pos rfl] at hfound hfound'
  cases hfound
  cases hfound'
  exact hty

/-- A variable that two contexts give the same type. -/
theorem refl (h : ctx.find? x.id = ctx'.find? x.id) : TypedAlike table ctx ctx' x x := by
  refine ⟨rfl, fun ty ty' hty hty' => ?_⟩
  rw [h, hty'] at hty
  cases hty
  exact .refl table ty

end TypedAlike

/-- The contexts give the same types to the variables to be kept. -/
def Context.AgreesOn (kept : List VarId) (ctx ctx' : Context) : Prop :=
  ∀ id ∈ kept, ctx.find? id = ctx'.find? id

theorem Context.AgreesOn.extend {kept : List VarId} {ctx ctx' : Context} {x : Var} {ty : Term}
    (h : ctx.AgreesOn kept ctx') (hx : x.id ∉ kept) : ctx.AgreesOn kept (ctx'.extend x ty) := by
  intro id hid
  have hne : x.id ≠ id := fun heq => hx (heq ▸ hid)
  rw [Context.find?_extend, if_neg hne]
  exact h id hid

/-- Terms of the given use are elaborated in these modes. -/
inductive Use.Expects (table : Table) : Use → Mode → Mode → Prop where
  | synthesis : Expects table .inferred .synthesis .synthesis
  | analysis {u : Use} {ty ty' : Term} : u ≠ .inferred → Resembles table ty ty' →
      Expects table u (.analysis ty) (.analysis ty')

theorem Use.Expects.looksInto {table : Table} (hfree : table.IsVarFree) {u : Use}
    {mode mode' : Mode} (h : u.Expects table mode mode') {t t' : Term}
    (hlooks : mode.LooksInto table t) (ht' : Elaborator.literal? t' = none) :
    mode'.LooksInto table t' := by
  cases h with
  | synthesis => trivial
  | analysis _ hty => exact ⟨ht', (hty.weakHead_typ_iff hfree).not.1 hlooks.2⟩

namespace Inlining

/-! ## Agreement -/

variable {s : Inlining}

/-- The terms stand in these contexts, which are extensions of the one of the definition. -/
structure Places (s : Inlining) (ctx ctx' : Context) (u : Use) (t t' : Term) : Prop where
  left : s.ctx.AgreesOn s.kept ctx
  right : s.ctx.AgreesOn s.kept ctx'
  inlined : s.Inlined (TypedAlike s.env.table ctx ctx') u t t'

/-- The codes are equal, but for what may be left out, and the types resemble each other, unless
only the code is asked for. -/
structure Agree (s : Inlining) (u : Use) (r r' : Elaborated) : Prop where
  code : r.code.Blanks s.blanks r'.code
  ty : u ≠ .checked → Resembles s.env.table r.ty r'.ty

/-- What elaboration makes of the annotated value agrees with what it makes of the value, wherever
the variables of the value have the types that they have at its definition. -/
structure IsSound (s : Inlining) : Prop extends s.IsProper where
  literal : ∀ {u r}, s.allows u → u ≠ .inferred → Elaborator.literal? s.value = some r →
    u = .checked ∧ s.blanks
  agree : ∀ {u mode mode' ctx ctx' r r'}, s.allows u → u.Expects s.env.table mode mode' →
    s.ctx.AgreesOn s.kept ctx → s.ctx.AgreesOn s.kept ctx' →
    Judges s.env s.kept ctx (.ann true s.value s.ty) mode r →
    Judges s.env s.kept ctx' s.value mode' r' → s.Agree u r r'

namespace Places

variable {ctx ctx' : Context} {u u' : Use} {t t' v v' : Term} {x x' : Var} {ty ty' : Term}
  {name : BinderName}

/-- Other terms in the same contexts. -/
theorem other (h : s.Places ctx ctx' u t t')
    (hv : s.Inlined (TypedAlike s.env.table ctx ctx') u' v v') : s.Places ctx ctx' u' v v' :=
  ⟨h.left, h.right, hv⟩

/-- New variables do not matter to terms that do not have them. -/
theorem extend (h : s.Inlined (TypedAlike s.env.table ctx ctx') u t t') (hx : x.id ∉ t.freeIds)
    (hx' : x'.id ∉ t'.freeIds) :
    s.Inlined (TypedAlike s.env.table (ctx.extend x ty) (ctx'.extend x' ty')) u t t' := by
  refine h.imp fun y y' hy hy' h => h.extend ?_ ?_
  · rintro heq
    exact hx (heq ▸ hy)
  · rintro heq
    exact hx' (heq ▸ hy')

theorem letBody (hs : s.IsProper) {dup : Bool} {e e' b b' : Term}
    (h : s.Places ctx ctx' u (.letIn name dup e b) (.letIn name dup e' b'))
    (hx : x.IsNew s.kept name (.letIn name dup e b))
    (hx' : x'.IsNew s.kept name (.letIn name dup e' b')) (hty : Resembles s.env.table ty ty') :
    s.Places (ctx.extend x ty) (ctx'.extend x' ty') u (b.instantiate [letStandIn dup x e ty])
      (b'.instantiate [letStandIn dup x' e' ty']) := by
  cases h.inlined with
  | letIn _ he hb =>
    -- the new variables occur in neither part, so what was related before still is
    have hnew := fun hmem => hx.notFree (List.mem_append.2 hmem)
    have hnew' := fun hmem => hx'.notFree (List.mem_append.2 hmem)
    refine ⟨h.left.extend hx.notKept, h.right.extend hx'.notKept, ?_⟩
    refine (extend hb (hnew ∘ .inr) (hnew' ∘ .inr)).instantiate hs (.letStandIn hs ?_ ?_ hty)
    -- the two newest variables are counterparts of each other
    · exact .latest (hx.name.trans hx'.name.symm) hty
    · exact fun hdup => extend (he hdup) (hnew ∘ .inl) (hnew' ∘ .inl)

theorem lamBody (hs : s.IsProper) {er : Bool} {b b' : Term}
    (h : s.Places ctx ctx' u (.lam name er b) (.lam name er b'))
    (hx : x.IsNew s.kept name (.lam name er b)) (hx' : x'.IsNew s.kept name (.lam name er b'))
    (hty : Resembles s.env.table ty ty') :
    s.Places (ctx.extend x ty) (ctx'.extend x' ty') .checked
      (b.instantiate [.ann true (.var x) ty]) (b'.instantiate [.ann true (.var x') ty']) := by
  cases h.inlined with
  | lam hb =>
    refine ⟨h.left.extend hx.notKept, h.right.extend hx'.notKept, ?_⟩
    -- the parameter is annotated with its type on both sides, and is never inlined
    refine (extend hb hx.notFree hx'.notFree).instantiate hs (.parameter ?_ hty)
    exact .latest (hx.name.trans hx'.name.symm) hty

end Places

/-! ## Traversal -/

/-- What the rules come to in the case of a term without a rule for checking: it is the value, or
both terms are of this kind, and their types can be found in the same way. -/
theorem Inlined.cases_of_shown {ρ : Var → Var → Prop} {u : Use} {t t' : Term}
    (h : s.Inlined ρ u t t') (hu : u ≠ .inferred) (hrule : t.hasCheckRule = false) :
    (t = .ann true s.value s.ty ∧ t' = s.value ∧ s.allows u) ∨
      (t'.hasCheckRule = false ∧ Elaborator.literal? t' = Elaborator.literal? t ∧
        (s.Inlined ρ .inferred t t' ∨
          ∃ done e e' ty ty', t = .ann done e ty ∧ t' = .ann done e' ty' ∧
            s.Inlined ρ .checked e e' ∧ Resembles s.env.table ty ty')) := by
  cases h with
  -- the place where the value was put in
  | value h => exact .inl ⟨rfl, rfl, h⟩
  | lam | letIn | loc => cases hrule
  | bound i => exact .inr ⟨rfl, rfl, .inl (.bound i)⟩
  | var h => exact .inr ⟨rfl, rfl, .inl (.var h)⟩
  | ref n => exact .inr ⟨rfl, rfl, .inl (.ref n)⟩
  | typ => exact .inr ⟨rfl, rfl, .inl .typ⟩
  | all ha hb => exact .inr ⟨rfl, rfl, .inl (.all ha hb)⟩
  | app hliteral hf ha =>
    exact .inr ⟨rfl, (hliteral hu).symm, .inl (.app (fun h => absurd rfl h) hf ha)⟩
  -- an annotation is no literal, and what it annotates is checked
  | ann he hty =>
    have hliteral : ∀ {done e ty}, Elaborator.literal? (.ann done e ty) = none :=
      Term.literal?_eq_none_of_isPlain rfl
    have hchecked : u.annotated = .checked := by
      cases u with
      | inferred => exact absurd rfl hu
      | ascribed | checked => rfl
    exact .inr ⟨rfl, hliteral.trans hliteral.symm,
      .inr ⟨_, _, _, _, _, rfl, rfl, hchecked ▸ he, hty⟩⟩

/-- The judgement agrees with all those on terms in the corresponding places. Where a type is found
for an annotation, also the code of the annotated term does, if it stands where only its code is
asked for. -/
structure AgreesAlong (s : Inlining) (ctx : Context) (t : Term) (mode : Mode) (r : Elaborated) :
    Prop where
  agree : ∀ {ctx' u t' mode' r'}, s.Places ctx ctx' u t t' → u.Expects s.env.table mode mode' →
    Judges s.env s.kept ctx' t' mode' r' → s.Agree u r r'
  annotated : mode = .synthesis → ∀ {ctx' done e e' ty ty' r'}, t = .ann done e ty →
    s.Places ctx ctx' .checked e e' → Resembles s.env.table ty ty' →
    Judges s.env s.kept ctx' e' (.analysis ty') r' → r.code.Blanks s.blanks r'.code

namespace AgreesAlong

variable {ctx : Context} {t : Term} {mode : Mode} {r : Elaborated}

/-- A term that is no annotation. -/
theorem of_agree (ht : t.isAnn = false)
    (h : ∀ {ctx' u t' mode' r'}, s.Places ctx ctx' u t t' → u.Expects s.env.table mode mode' →
      Judges s.env s.kept ctx' t' mode' r' → s.Agree u r r') : AgreesAlong s ctx t mode r := by
  refine ⟨h, ?_⟩
  rintro - ctx' done e e' ty ty' r' rfl
  cases ht

/-- A checked term agrees if it does so against every type that resembles the expected one. -/
theorem of_analysis {ty : Term}
    (h : ∀ {ctx' u t' ty' r'}, s.Places ctx ctx' u t t' → u ≠ .inferred →
      Resembles s.env.table ty ty' → Judges s.env s.kept ctx' t' (.analysis ty') r' →
      s.Agree u r r') : AgreesAlong s ctx t (.analysis ty) r := by
  refine ⟨fun hplaces hexpects h' => ?_, nofun⟩
  cases hexpects with
  | analysis hu hty => exact h hplaces hu hty h'

theorem app (hs : s.IsSound) {f a bind body : Term} {er : Bool} {sn n : BinderName}
    {func arg : Elaborated} (ihf : AgreesAlong s ctx f .synthesis func)
    (hall : WeakHead s.env.table func.ty (.all sn n bind body))
    (iha : AgreesAlong s ctx a (.analysis bind) arg) :
    AgreesAlong s ctx (.app f a er) .synthesis
      ⟨appCode er (calleeCode (Kernel.primitive? s.env.table (.all sn n bind body)) func.code)
          arg.code,
        body.instantiate [.ann true f (.all sn n bind body), .ann true a bind]⟩ := by
  refine of_agree rfl fun hplaces hexpects h' => ?_
  -- an application is inferred, and so is its counterpart
  cases hexpects
  cases hplaces.inlined with
  | app _ hf ha =>
    cases h' with
    | @app _ _ _ bind' body' _ sn' n' _ _ hf' hall' ha' =>
      have hfunc := ihf.agree (hplaces.other hf) .synthesis hf'
      -- the types of the functions resemble each other, so both are self types with resembling
      -- parts
      obtain ⟨hbind, hbody⟩ := (hfunc.ty nofun).all_parts hs.varFree hall hall'
      have harg := iha.agree (hplaces.other ha) (.analysis nofun (.shape hbind)) ha'
      have hfuncTy : Resembles s.env.table (.all sn n bind body) (.all sn' n' bind' body') :=
        .shape (.all hbind hbody)
      -- the same mark is set on both sides, as types that resemble each other have the same
      -- primitive
      rw [hfuncTy.primitive?_eq hs.varFree]
      refine ⟨hfunc.code.calleeCode.appCode harg.code, fun _ => .shape ?_⟩
      exact hbody.instantiate_two (hf.sameShape.annotate true true)
        (ha.sameShape.annotate true true)

theorem letIn (hs : s.IsSound) {name : BinderName} {dup : Bool} {e b : Term} {x : Var}
    {value : Elaborated} (hlooks : mode.LooksInto s.env.table (.letIn name dup e b))
    (ihe : AgreesAlong s ctx e .synthesis value) (hx : x.IsNew s.kept name (.letIn name dup e b))
    (ihb : AgreesAlong s (ctx.extend x value.ty) (b.instantiate [letStandIn dup x e value.ty]) mode
      r) :
    AgreesAlong s ctx (.letIn name dup e b) mode ⟨letCode name dup value.code r.code, r.ty⟩ := by
  refine of_agree rfl fun hplaces hexpects h' => ?_
  cases hplaces.inlined with
  | letIn he _ _ =>
    -- nothing but the rule for definitions accepts the right side as well
    cases h' with
    | letIn _ hvalue' hx' hbody' =>
      have hvalue := ihe.agree (hplaces.other he) .synthesis hvalue'
      have hplaces' := hplaces.letBody hs.toIsProper hx hx' (hvalue.ty nofun)
      have hbody := ihb.agree hplaces' hexpects hbody'
      exact ⟨hvalue.code.letCode hbody.code, hbody.ty⟩
    | literal hlit => exact absurd hlit (Term.literal?_ne_some_of_isPlain rfl _)
    -- a mode that looks into the left side looks into the right one too
    | type hnone htyp => exact absurd htyp (hexpects.looksInto hs.varFree hlooks hnone).2
    | shown hrule => cases hrule

theorem loc (hs : s.IsSound) {span : Span} (hlooks : mode.LooksInto s.env.table (.loc span t))
    (ih : AgreesAlong s ctx t mode r) : AgreesAlong s ctx (.loc span t) mode r := by
  refine of_agree rfl fun hplaces hexpects h' => ?_
  cases hplaces.inlined with
  | loc he =>
    cases h' with
    | loc _ h' => exact ih.agree (hplaces.other he) hexpects h'
    | literal hlit =>
      -- the location hides no literal: the term in it is one already
      rw [Term.literal?_loc] at hlit
      exact ih.agree (hplaces.other he) hexpects (.literal hlit)
    | type hnone htyp => exact absurd htyp (hexpects.looksInto hs.varFree hlooks hnone).2
    | shown hrule => cases hrule

theorem literal {ty : Term} (ht : Elaborator.literal? t = some r) :
    AgreesAlong s ctx t (.analysis ty) r := by
  refine of_analysis fun hplaces hu _ h' => ?_
  rw [h'.eq_of_literal? (hplaces.inlined.literal?_left hu ht)]
  exact ⟨.same _, fun _ => .refl _ _⟩

theorem type (hs : s.IsSound) {ty : Term} (ht : Elaborator.literal? t = none)
    (htyp : WeakHead s.env.table ty .typ) : AgreesAlong s ctx t (.analysis ty) ⟨.nul, .typ⟩ := by
  refine of_analysis fun {ctx' u t' ty' r'} hplaces hu hty h' => ?_
  cases ht' : Elaborator.literal? t' with
  | none =>
    -- where nothing is looked into, nothing is left on either side
    rw [h'.eq_of_universe ht' (hty.weakHead_typ hs.varFree htyp)]
    exact ⟨.same _, fun _ => .refl _ _⟩
  | some lit =>
    -- only the value can be a literal on the right and none on the left
    rcases hplaces.inlined.literal?_right hu ht' with hleft | ⟨hallows, hvalue⟩
    · rw [ht] at hleft
      cases hleft
    · obtain ⟨hchecked, hblanks⟩ := hs.literal hallows hu hvalue
      exact ⟨.blank hblanks, fun hne => absurd hchecked hne⟩

theorem lam (hs : s.IsSound) {name sn n : BinderName} {er : Bool} {body ty bind tyBody : Term}
    {x : Var} (hall : WeakHead s.env.table ty (.all sn n bind tyBody))
    (hx : x.IsNew s.kept name (.lam name er body))
    (ih : AgreesAlong s (ctx.extend x bind) (body.instantiate [.ann true (.var x) bind])
      (.analysis
        (tyBody.instantiate [.ann true (.lam name er body) ty, .ann true (.var x) bind])) r) :
    AgreesAlong s ctx (.lam name er body) (.analysis ty)
      ⟨instCode (Kernel.primitive? s.env.table ty) (lamCode name er r.code), ty⟩ := by
  refine of_analysis fun hplaces hu hty h' => ?_
  cases hplaces.inlined with
  | lam hb =>
    cases h' with
    | lam hall' hx' hbody' =>
      obtain ⟨hbind, htyBody⟩ := hty.all_parts hs.varFree hall hall'
      have hbody := ih.agree (hplaces.lamBody hs.toIsProper hx hx' (.shape hbind))
        (.analysis nofun (.shape (htyBody.instantiate_two
          (hplaces.inlined.sameShape.annotate true true) ((SameShape.var _ _).annotate true true))))
        hbody'
      rw [hty.primitive?_eq hs.varFree]
      exact ⟨hbody.code.lamCode.instCode, fun _ => hty⟩
    | literal hlit => exact absurd hlit (Term.literal?_ne_some_of_isPlain rfl _)
    -- the two expected types resemble each other, so one is the universe only if the other is
    | type _ htyp => cases (hty.symm.weakHead_typ hs.varFree htyp).unique hall
    | shown hrule => cases hrule

theorem shown (hs : s.IsSound) {ty : Term} (hrule : t.hasCheckRule = false)
    (hlooks : (Mode.analysis ty).LooksInto s.env.table t)
    (h : Judges s.env s.kept ctx t .synthesis r)
    (hconv : s.env.subsumption = true → Convertible s.env.table r.ty ty)
    (ih : AgreesAlong s ctx t .synthesis r) :
    AgreesAlong s ctx t (.analysis ty) ⟨r.code, ty⟩ := by
  refine of_analysis fun hplaces hu hty h' => ?_
  rcases hplaces.inlined.cases_of_shown hu hrule with
    ⟨rfl, rfl, hallows⟩ | ⟨hrule', hliteral, hcases⟩
  -- at the place of the value, its own soundness tells what becomes of it
  · exact hs.agree hallows (.analysis hu hty) hplaces.left hplaces.right
      (.shown hrule hlooks h hconv) h'
  · have hlooks' := (Use.Expects.analysis hu hty).looksInto hs.varFree hlooks
      (hliteral.trans hlooks.1)
    -- elsewhere the right side is shown too, with the code that was found for it
    obtain ⟨found', hfound', rfl, -⟩ := h'.exists_found hrule' hlooks'
    suffices hcode : r.code.Blanks s.blanks found'.code from ⟨hcode, fun _ => hty⟩
    rcases hcases with hinlined | ⟨done, e, e', ann, ann', rfl, rfl, he, hann⟩
    · exact (ih.agree (hplaces.other hinlined) .synthesis hfound').code
    · cases hfound' with
      | ann hfound' => exact ih.annotated rfl rfl (hplaces.other he) hann hfound'

end AgreesAlong

/-- Every judgement agrees with those on terms in the corresponding places. -/
theorem IsSound.agreesAlong (hs : s.IsSound) {ctx : Context} {t : Term} {mode : Mode}
    {r : Elaborated} (h : Judges s.env s.kept ctx t mode r) : AgreesAlong s ctx t mode r := by
  -- the induction is on the derivation for the left side, and each case takes the one for the right
  -- side apart
  induction h with
  | @var ctx x ty hty =>
    refine .of_agree rfl fun hplaces hexpects h' => ?_
    cases hexpects
    cases hplaces.inlined with
    | var hx =>
      cases h' with
      | var hty' => exact ⟨hx.name ▸ .same _, fun _ => hx.types _ _ hty hty'⟩
  | ref hd =>
    refine .of_agree rfl fun hplaces hexpects h' => ?_
    cases hexpects
    cases hplaces.inlined with
    | ref =>
      cases h' with
      | ref hd' =>
        -- a global has one type, whichever side it stands on
        rw [hd] at hd'
        cases hd'
        exact ⟨.same _, fun _ => .refl _ _⟩
  | typ =>
    refine .of_agree rfl fun hplaces hexpects h' => ?_
    cases hexpects
    cases hplaces.inlined with
    | typ =>
      cases h'
      exact ⟨.same _, fun _ => .refl _ _⟩
  | all =>
    refine .of_agree rfl fun hplaces hexpects h' => ?_
    cases hexpects
    cases hplaces.inlined with
    | all =>
      cases h'
      exact ⟨.same _, fun _ => .refl _ _⟩
  | app _ hall _ ihf iha => exact .app hs ihf hall iha
  | letIn hlooks _ hx _ ihe ihb => exact .letIn hs hlooks ihe hx ihb
  | ann h ih =>
    refine ⟨fun hplaces hexpects h' => ?_, ?_⟩
    · cases hexpects
      cases hplaces.inlined with
      -- the annotated value itself is the place where it was put in
      | value hallows =>
        exact hs.agree hallows .synthesis hplaces.left hplaces.right (.ann h) h'
      | ann he hty =>
        cases h' with
        | ann h' =>
          have hagree := ih.agree (hplaces.other he) (.analysis nofun hty) h'
          exact ⟨hagree.code, fun _ => hagree.ty nofun⟩
    -- what is annotated may also be compared without its annotation
    · rintro - ctx' done' e' e'' ty' ty'' r' heq hplaces hty h'
      cases heq
      exact (ih.agree hplaces (.analysis nofun hty) h').code
  | loc hlooks _ ih => exact .loc hs hlooks ih
  | literal hliteral => exact .literal hliteral
  | type hliteral hty => exact .type hs hliteral hty
  | lam hall hx _ ih => exact .lam hs hall hx ih
  | shown hrule hlooks h hconv ih => exact .shown hs hrule hlooks h hconv ih

end Inlining

/-! ## One term in two contexts -/

/-- No value is put in the places of a variable. -/
def Inlining.nothing (env : Environment) (kept : List VarId) (ctx : Context) : Inlining where
  env := env
  kept := kept
  ctx := ctx
  value := .typ
  ty := .typ
  allows _ := False
  blanks := False

theorem Inlining.isSound_nothing {env : Environment} (hfree : env.table.IsVarFree)
    (kept : List VarId) (ctx : Context) : (nothing env kept ctx).IsSound where
  varFree := hfree
  value := trivial
  ty := trivial
  allows := id
  literal h := h.elim
  agree h := h.elim

/-- A term has the same code, and types that resemble each other, in all contexts that give its
variables the same types. -/
theorem Judges.agree_of_agreesOn {env : Environment} (hfree : env.table.IsVarFree)
    {kept : List VarId} {ctx ctx' : Context} {t : Term} {mode : Mode} {r r' : Elaborated}
    (ht : ∀ id ∈ t.freeIds, id ∈ kept) (hctx : ctx.AgreesOn kept ctx')
    (h : Judges env kept ctx t mode r) (h' : Judges env kept ctx' t mode r') :
    r.code = r'.code ∧ Resembles env.table r.ty r'.ty := by
  -- an inlining that puts nothing in: both sides are the same term
  let s := Inlining.nothing env kept ctx
  have hs : s.IsSound := Inlining.isSound_nothing hfree kept ctx
  have hplaces : ∀ u, s.Places ctx ctx' u t t := fun u =>
    ⟨fun _ _ => rfl, hctx, .refl s (fun x hx => .refl (hctx x.id (ht x.id hx))) u⟩
  -- checked terms are compared with their types as well
  obtain ⟨u, hu, hexpects⟩ : ∃ u : Use, u ≠ .checked ∧ u.Expects env.table mode mode := by
    cases mode with
    | synthesis => exact ⟨.inferred, nofun, .synthesis⟩
    | analysis ty => exact ⟨.ascribed, nofun, .analysis nofun (.refl _ ty)⟩
  have hagree := (hs.agreesAlong h).agree (hplaces u) hexpects h'
  exact ⟨hagree.code.eq id, hagree.ty hu⟩

end SelfTypes
