import SelfTypes.Proofs.Code.Alpha

/-!
# Names of binders and the meaning of code

Variables of code are bound by name, so what the binders of a definition are called may decide what
its code means. `Term.Uncaptured` says of a term that it does not: no binder that is left in the
code stands between a variable and its binder and has the same name, and no variable of a binder
that is not left remains.

Two terms that differ in names are compared below the binders that are left of them. In opened
bodies, a variable is known by the level of its binder, the number of binders that are left around
it. Main statements: `Term.Erases.alpha`, for terms, and `Elaborator.alphaEquivalent_of_definition`,
for definitions.
-/

namespace SelfTypes

/-! ## Captured variables -/

/-- Below binders of these names, innermost first, the binder at the level has the name, and none
further in does. -/
def InReach (level : Nat) (n : BinderName) : (above : List BinderName) → Prop
  | [] => False
  | m :: above => if above.length = level then m = n else m ≠ n ∧ InReach level n above

/-- Binders that are in reach at one level are counterparts. -/
theorem sameBinder_of_inReach {around : List (BinderName × BinderName)} {level : Nat}
    {m m' : BinderName} (h : InReach level m (around.map Prod.fst))
    (h' : InReach level m' (around.map Prod.snd)) : Code.SameBinder around m m' := by
  induction around with
  | nil => cases h
  | cons p around ih =>
    obtain ⟨n, n'⟩ := p
    simp only [List.map_cons, InReach, List.length_map] at h h'
    -- the level decides: the pair in front is the binder of both names, or of neither
    by_cases hlevel : around.length = level
    · rw [if_pos hlevel] at h h'
      rw [← h, ← h']
      exact .here n n' around
    · rw [if_neg hlevel] at h h'
      exact .there (Ne.symm h.1) (Ne.symm h'.1) (ih h.2 h'.2)

namespace Term

/-- A variable of the binder at a level. -/
def atLevel (level : Nat) (name : BinderName) : Term :=
  .ann true (.var ⟨⟨0, level⟩, name⟩) .typ

/-- The variables that are left of the term have their binders in reach. The names of the binders
that are left `above` the term are listed, and `around` says of each bound variable, innermost
first, what is asked of the names above an occurrence: that its binder is in reach, or what its
value asks if that takes its place. The variable of an erased parameter must not occur. The index of
a free variable is the level of its binder. -/
def Uncaptured : (around : List (List BinderName → Prop)) → (above : List BinderName) → Term → Prop
  -- an index without a binder captures nothing
  | around, above, bound i => around.getD i (fun _ => True) above
  | _, above, var x => InReach x.id.index x.name above
  | _, _, ref _ | _, _, typ | _, _, all .. => True
  | around, above, lam n er b =>
    -- an erased binder leaves nothing to refer to, so no index may stand for it
    if er then b.Uncaptured ((fun _ => False) :: around) above
    else b.Uncaptured (InReach above.length n :: around) (n :: above)
  | around, above, app f a er =>
    f.Uncaptured around above ∧ (er = false → a.Uncaptured around above)
  | around, above, letIn n dup e b =>
    if dup then
      e.Uncaptured around above ∧ b.Uncaptured (InReach above.length n :: around) (n :: above)
    -- the value takes the place of its variable, below the binders that are there
    else b.Uncaptured ((fun above => e.Uncaptured around above) :: around) above
  | around, above, ann _ e _ => e.Uncaptured around above
  | around, above, loc _ e => e.Uncaptured around above

/-- What a term asks of the binders above it, as a reading. -/
def capturing : Reading (List BinderName) Prop where
  unbound := True
  var x above := InReach x.id.index x.name above
  other := True
  lam _ _ _ b := b
  param n er level above := if er then False else InReach level.length n above
  belowLam n er above := if er then above else n :: above
  app er f a := f ∧ (er = false → a)
  letIn _ dup _ e b := if dup then e ∧ b else b
  defined n dup level e above := if dup then InReach level.length n above else e above
  belowLet n dup above := if dup then n :: above else above
  ann e := e
  loc e := e

theorem uncaptured_eq_read (around : List (List BinderName → Prop)) (above : List BinderName)
    (t : Term) : t.Uncaptured around above = capturing.read around above t := by
  induction t generalizing around above with
  | bound | var | ref | typ | all => rfl
  | lam _ er _ ih => cases er <;> exact ih _ _
  | app _ _ _ ih₁ ih₂ => simp only [Uncaptured, ih₁, ih₂, Reading.read, capturing]
  | letIn _ dup _ _ ih₁ ih₂ =>
    cases dup <;>
      simp only [Uncaptured, ih₁, ih₂, Reading.read, capturing, if_true, Bool.false_eq_true,
        if_false]
  | ann _ _ _ ih | loc _ _ ih => exact ih around above

/-- Less may be asked. -/
theorem capturing_respects : capturing.Respects fun p p' => p → p' where
  refl _ := id
  lam _ _ _ _ _ h := h
  app _ _ _ _ _ hf ha h := ⟨hf h.1, fun her => ha (h.2 her)⟩
  letIn _ dup _ _ _ _ _ he hb := by
    cases dup with
    | true => exact fun h => ⟨he h.1, hb h.2⟩
    | false => exact hb
  defined _ dup _ _ _ h above := by
    cases dup with
    | true => exact id
    | false => exact h above
  ann h := h
  loc h := h

/-- A scope may be opened with a closed value that asks for no more than its variable. -/
theorem Uncaptured.instantiate {b v : Term} {demand : List BinderName → Prop}
    {above : List BinderName} (h : b.Uncaptured [demand] above) (hb : b.ContentClosedAt 1)
    (hv : v.ContentClosedAt 0) (hdemand : ∀ above, demand above → v.Uncaptured [] above) :
    (b.instantiate [v]).Uncaptured [] above := by
  rw [uncaptured_eq_read, capturing.read_instantiate hv]
  rw [uncaptured_eq_read] at h
  refine capturing_respects.read hb (fun i hi above habove => ?_) above h
  cases Nat.lt_one_iff.1 hi
  have hvalue := hdemand above habove
  rwa [uncaptured_eq_read] at hvalue

theorem uncaptured_unlocate (t : Term) (above : List BinderName) :
    t.unlocate.Uncaptured [] above ↔ t.Uncaptured [] above := by
  rw [uncaptured_eq_read, uncaptured_eq_read]
  exact Iff.of_eq (capturing.read_unlocate (fun _ => rfl) [] above t)

/-! ## Terms below binders -/

/-- The term stands below binders of these names, and captures no variable. -/
structure Placed (above : List BinderName) (t : Term) : Prop where
  closed : t.ContentClosedAt 0
  uncaptured : t.Uncaptured [] above

namespace Placed

variable {above : List BinderName} {f a e b ty : Term} {n : BinderName} {er done : Bool}
  {span : Span}

theorem func (h : Placed above (.app f a er)) : Placed above f :=
  ⟨h.closed.1, h.uncaptured.1⟩

theorem arg (h : Placed above (.app f a false)) : Placed above a :=
  ⟨h.closed.2, h.uncaptured.2 rfl⟩

theorem expr (h : Placed above (.letIn n true e b)) : Placed above e :=
  ⟨h.closed.1, h.uncaptured.1⟩

theorem ann (h : Placed above (.ann done e ty)) : Placed above e :=
  ⟨h.closed, h.uncaptured⟩

theorem loc (h : Placed above (.loc span e)) : Placed above e :=
  ⟨h.closed, h.uncaptured⟩

/-- The body of a function that is left, opened with the variable of its binder. -/
theorem lamBody (h : Placed above (.lam n false b)) :
    Placed (n :: above) (b.instantiate [atLevel above.length n]) where
  closed := ContentClosedAt.instantiate (v := atLevel above.length n) h.closed trivial
  uncaptured := Uncaptured.instantiate h.uncaptured h.closed trivial fun _ => id

/-- The body of a local definition that is left, opened with its variable. -/
theorem sharedBody (h : Placed above (.letIn n true e b)) :
    Placed (n :: above) (b.instantiate [atLevel above.length n]) where
  closed := ContentClosedAt.instantiate (v := atLevel above.length n) h.closed.2 trivial
  uncaptured := Uncaptured.instantiate h.uncaptured.2 h.closed.2 trivial fun _ => id

/-- The body of a function that is not left, opened with any variable. -/
theorem erasedBody (h : Placed above (.lam n true b)) (level : Nat) :
    Placed above (b.instantiate [atLevel level n]) where
  closed := ContentClosedAt.instantiate (v := atLevel level n) h.closed trivial
  uncaptured := Uncaptured.instantiate h.uncaptured h.closed trivial fun _ => False.elim

/-- The body of a local definition whose value takes the place of its variable. -/
theorem inlinedBody (h : Placed above (.letIn n false e b)) :
    Placed above (b.instantiate [.ann true e .typ]) := by
  have hvalue : (Term.ann true e .typ).ContentClosedAt 0 := h.closed.1
  exact ⟨h.closed.2.instantiate hvalue,
    Uncaptured.instantiate h.uncaptured h.closed.2 hvalue fun _ => id⟩

end Placed

/-- Any variable of the name is as good as the placeholder. -/
theorem Erases.atLevel {p : Position} {b : Term} {n : BinderName} {c : Code}
    (h : Erases false p (b.instantiate [placeholder n]) c) (level : Nat) :
    Erases false p (b.instantiate [Term.atLevel level n]) c :=
  h.of_skeleton_eq (skeleton_instantiate_congr rfl rfl)

end Term

/-! ## Terms below pairs of binders -/

/-- The variables are those of binders at one level. -/
def SameLevel (x x' : Var) : Prop :=
  x.id.index = x'.id.index

/-- The terms stand below pairs of binders, capture no variables and differ in names only. -/
structure Counterparts (around : List (BinderName × BinderName)) (t t' : Term) : Prop where
  left : t.Placed (around.map Prod.fst)
  right : t'.Placed (around.map Prod.snd)
  alike : t.Alike SameLevel t'

namespace Counterparts

open Term

variable {around : List (BinderName × BinderName)} {f f' a a' e e' b b' ty ty' : Term}
  {x x' : Var} {n n' : BinderName} {er done done' : Bool} {span span' : Span}

theorem sameBinder (h : Counterparts around (.var x) (.var x')) :
    Code.SameBinder around x.name x'.name := by
  obtain ⟨hleft, hright, halike⟩ := h
  cases halike with
  | var hlevel =>
    have hreach : InReach x'.id.index x'.name (around.map Prod.snd) := hright.uncaptured
    exact sameBinder_of_inReach hleft.uncaptured (Eq.symm hlevel ▸ hreach)

theorem func (h : Counterparts around (.app f a er) (.app f' a' er)) :
    Counterparts around f f' := by
  obtain ⟨hleft, hright, halike⟩ := h
  cases halike with | app hf _ => exact ⟨hleft.func, hright.func, hf⟩

theorem arg (h : Counterparts around (.app f a false) (.app f' a' false)) :
    Counterparts around a a' := by
  obtain ⟨hleft, hright, halike⟩ := h
  cases halike with | app _ ha => exact ⟨hleft.arg, hright.arg, ha⟩

theorem expr (h : Counterparts around (.letIn n true e b) (.letIn n' true e' b')) :
    Counterparts around e e' := by
  obtain ⟨hleft, hright, halike⟩ := h
  cases halike with | letIn he _ => exact ⟨hleft.expr, hright.expr, he⟩

theorem ann (h : Counterparts around (.ann done e ty) (.ann done' e' ty')) :
    Counterparts around e e' := by
  obtain ⟨hleft, hright, halike⟩ := h
  cases halike with | ann he _ => exact ⟨hleft.ann, hright.ann, he⟩

theorem loc (h : Counterparts around (.loc span e) (.loc span' e')) :
    Counterparts around e e' := by
  obtain ⟨hleft, hright, halike⟩ := h
  cases halike with | loc he => exact ⟨hleft.loc, hright.loc, he⟩

theorem alike_atLevel (h : b.Alike SameLevel b') (level : Nat) (n n' : BinderName) :
    (b.instantiate [atLevel level n]).Alike SameLevel (b'.instantiate [atLevel level n']) :=
  h.instantiate_one (.ann (.var rfl) .typ)

/-- The bodies of functions that are left have one more pair of binders around them. -/
theorem lamBody (h : Counterparts around (.lam n false b) (.lam n' false b')) :
    Counterparts ((n, n') :: around) (b.instantiate [atLevel around.length n])
      (b'.instantiate [atLevel around.length n']) := by
  obtain ⟨hleft, hright, halike⟩ := h
  cases halike with
  | lam hb =>
    exact ⟨by simpa using hleft.lamBody, by simpa using hright.lamBody, alike_atLevel hb _ n n'⟩

/-- Erased parameters are not used, so they may be given the level of the next binder. -/
theorem erasedBody (h : Counterparts around (.lam n true b) (.lam n' true b')) :
    Counterparts around (b.instantiate [atLevel around.length n])
      (b'.instantiate [atLevel around.length n']) := by
  obtain ⟨hleft, hright, halike⟩ := h
  cases halike with
  | lam hb => exact ⟨hleft.erasedBody _, hright.erasedBody _, alike_atLevel hb _ n n'⟩

theorem sharedBody (h : Counterparts around (.letIn n true e b) (.letIn n' true e' b')) :
    Counterparts ((n, n') :: around) (b.instantiate [atLevel around.length n])
      (b'.instantiate [atLevel around.length n']) := by
  obtain ⟨hleft, hright, halike⟩ := h
  cases halike with
  | letIn _ hb =>
    exact ⟨by simpa using hleft.sharedBody, by simpa using hright.sharedBody,
      alike_atLevel hb _ n n'⟩

/-- Values that take the place of variables are counterparts wherever they come to stand. -/
theorem inlinedBody (h : Counterparts around (.letIn n false e b) (.letIn n' false e' b')) :
    Counterparts around (b.instantiate [.ann true e .typ])
      (b'.instantiate [.ann true e' .typ]) := by
  obtain ⟨hleft, hright, halike⟩ := h
  cases halike with
  | letIn he hb => exact ⟨hleft.inlinedBody, hright.inlinedBody, hb.instantiate_one (.ann he .typ)⟩

end Counterparts

/-! ## Erasures of counterparts -/

/-- What is left of counterparts is alpha-equivalent below the binders that are left. -/
theorem Term.Erases.alpha {p : Position} {t t' : Term} {c c' : Code} (h : Erases false p t c)
    (h' : Erases false p t' c') {around : List (BinderName × BinderName)}
    (ht : Counterparts around t t') : Code.AlphaUnder around c c' := by
  -- the opened bodies are no parts of the terms, but weigh less
  induction hn : t.weight [] using Nat.strongRecOn generalizing p t t' c c' around with
  | ind n ih =>
  subst hn
  rcases literal_cases p t with hnone | ⟨rfl, char, hchar⟩ | ⟨rfl, s, hstring⟩
  · have hnone' : p = .checked → t'.NoLiteral := fun hp => ht.alike.noLiteral (hnone hp)
    obtain ⟨hclosed, -⟩ := ht.left
    -- where nothing is decoded, the form of the term decides the code
    cases ht.alike with
    | bound i => exact absurd hclosed (Nat.not_lt_zero i)
    | var =>
      rw [h.eq_var, h'.eq_var]
      exact .var ht.sameBinder
    | ref name =>
      rw [h.eq_ref hnone, h'.eq_ref hnone']
      exact .ref name
    | typ =>
      rw [h.eq_typ, h'.eq_typ]
      exact .nul
    | all =>
      rw [h.eq_all, h'.eq_all]
      exact .nul
    | @lam name _ er b =>
      have hlt := weight_lamBody_lt name er b (v := .atLevel around.length name) trivial rfl
      cases er with
      | false =>
        obtain ⟨cb, rfl, hcb⟩ := h.exists_lam
        obtain ⟨cb', rfl, hcb'⟩ := h'.exists_lam
        exact .lam (ih _ hlt (hcb.atLevel _) (hcb'.atLevel _) ht.lamBody rfl)
      -- an erased parameter has no binder in the code, and its body is the code
      | true => exact ih _ hlt (h.erasedBody.atLevel _) (h'.erasedBody.atLevel _) ht.erasedBody rfl
    | @app f _ a _ er =>
      have hltf := weight_func_lt er f a
      have hlta := weight_arg_lt er f a
      cases er with
      | false =>
        obtain ⟨cf, ca, rfl, hcf, hca⟩ := h.exists_app hnone
        obtain ⟨cf', ca', rfl, hcf', hca'⟩ := h'.exists_app hnone'
        exact .app (ih _ hltf hcf hcf' ht.func rfl) (ih _ hlta hca hca' ht.arg rfl)
      | true => exact ih _ hltf h.func h'.func ht.func rfl
    | @letIn name _ dup e _ b =>
      cases dup with
      | true =>
        have hlte := weight_expr_lt name true e b
        have hltb := weight_sharedBody_lt name e b (v := .atLevel around.length name) trivial rfl
        obtain ⟨ce, cb, rfl, hce, hcb⟩ := h.exists_letIn
        obtain ⟨ce', cb', rfl, hce', hcb'⟩ := h'.exists_letIn
        exact .letIn (ih _ hlte hce hce' ht.expr rfl)
          (ih _ hltb (hcb.atLevel _) (hcb'.atLevel _) ht.sharedBody rfl)
      -- the value is read once more at each use, where its binders may be others
      | false =>
        have hlt := weight_inlinedBody_lt name hclosed.1 b
        exact ih _ hlt h.inlinedBody h'.inlinedBody ht.inlinedBody rfl
    | @ann done e _ ty =>
      exact ih _ (weight_ann_lt done e ty) h.annotated h'.annotated ht.ann rfl
    | @loc span e =>
      exact ih _ (weight_loc_lt e span) h.located h'.located ht.loc rfl
  -- a literal has no names, so it is its own counterpart below any binders
  · rw [h.code_of_decodeChar? hchar, h'.code_of_decodeChar? (ht.alike.decodeChar?_of_some hchar)]
    exact .chr char
  · rw [h.code_of_decodeString? hstring,
      h'.code_of_decodeString? (ht.alike.decodeString?_of_some hstring)]
    exact .str s

/-! ## Definitions -/

namespace Elaborator

/-- A definition that is accepted in two tables that differ in the names of binders only has
alpha-equivalent code, if neither of its bodies captures a variable. -/
theorem alphaEquivalent_of_definition {env env' : Environment} (henv : env.Alike env')
    (hclosed : env.table.IsLocallyClosed) (hfree : env.table.IsVarFree) {name : DefName}
    {d d' : Definition} (hd : env.table.find? name = some d) (hd' : env'.table.find? name = some d')
    (huncaptured : d.body.Uncaptured [] []) (huncaptured' : d'.body.Uncaptured [] [])
    {depth depth' : Nat} {e e' s s' : Elaborator} {code code' : Code}
    (h : definition env depth name e = .ok code s)
    (h' : definition env' depth' name e' = .ok code' s') : code.AlphaEquivalent code' := by
  have hbodies : d.body.Alike Eq d'.body := by
    obtain ⟨d₂, hd₂, halike⟩ := henv.table.exists_find? hd
    cases hd'.symm.trans hd₂
    exact halike.body
  have hcontent : d.body.unlocate.ContentClosedAt 0 := (hclosed.body hd).content.unlocate
  have halike : d.body.unlocate.Alike SameLevel d'.body.unlocate :=
    hbodies.unlocate.mono fun _ _ hx => congrArg (fun x : Var => x.id.index) hx
  have hcontent' := halike.contentClosedAt hcontent
  -- both codes are exact erasures with parts missing, up to marks
  obtain ⟨d₁, ty, hd₁, hderives⟩ := derives_of_definition h
  obtain ⟨d₁', ty', hd₁', hderives'⟩ := derives_of_definition h'
  obtain rfl := Option.some.inj (hd.symm.trans hd₁)
  obtain rfl := Option.some.inj (hd'.symm.trans hd₁')
  obtain ⟨c, hc, hthin⟩ := hderives.erases.thins_exact hcontent
  obtain ⟨c', hc', hthin'⟩ := hderives'.erases.thins_exact hcontent'
  have hcounterparts : Counterparts [] d.body.unlocate d'.body.unlocate :=
    ⟨⟨hcontent, (Term.uncaptured_unlocate _ _).2 huncaptured⟩,
      ⟨hcontent', (Term.uncaptured_unlocate _ _).2 huncaptured'⟩, halike⟩
  -- the parts that are missing are the same, and so are the marks
  exact (alike_of_definition henv hfree h h').alpha (hc.alpha hc' hcounterparts) hthin hthin'

/-- A function that returns the first of two values, with parameters of these names. -/
def first (n n' : BinderName) : Definition :=
  ⟨"first", .pi n (.ref "Endo") (.pi n' (.ref "Endo") (.ref "Endo")),
    .lam n false (.lam n' false (.bound 1))⟩

/-- A table with this function. -/
def choosing (n n' : BinderName) : Table :=
  .ofList [⟨"Endo", .typ, .pi "x" .typ .typ⟩, first n n']

theorem find?_choosing (n n' : BinderName) : (choosing n n').find? "first" = some (first n n') :=
  rfl

theorem choosing_alike (m m' n n' : BinderName) : (choosing m m').Alike (choosing n n') := by
  have hdomain : (Term.ref "Endo").Alike Eq (.ref "Endo") := .ref _
  refine .cons ⟨rfl, .typ, .all .typ .typ⟩ (.cons ⟨rfl, ?_, .lam (.lam (.bound 1))⟩ .nil)
  exact .all hdomain (.all hdomain hdomain)

/-- Parameters of distinct names may have any names. -/
theorem choosing_alphaEquivalent :
    (choosing "x" "y").Alike (choosing "y" "z") ∧
      ∃ code code' s s', definition ⟨choosing "x" "y", true⟩ 8 "first" (.start ⟨0, 0⟩ none) =
          .ok code s ∧
        definition ⟨choosing "y" "z", true⟩ 8 "first" (.start ⟨0, 0⟩ none) = .ok code' s' ∧
        code.AlphaEquivalent code' := by
  obtain ⟨s, h⟩ := EStateM.Result.exists_ok_of_value?
    (r := definition ⟨choosing "x" "y", true⟩ 8 "first" (.start ⟨0, 0⟩ none))
    (a := .lam "x" (.lam "y" (.var "x"))) (by decide +kernel)
  obtain ⟨s', h'⟩ := EStateM.Result.exists_ok_of_value?
    (r := definition ⟨choosing "y" "z", true⟩ 8 "first" (.start ⟨0, 0⟩ none))
    (a := .lam "y" (.lam "z" (.var "y"))) (by decide +kernel)
  have halike := choosing_alike "x" "y" "y" "z"
  have henv : Environment.Alike ⟨choosing "x" "y", true⟩ ⟨choosing "y" "z", true⟩ := ⟨halike, rfl⟩
  refine ⟨halike, _, _, s, s', h, h', ?_⟩
  exact alphaEquivalent_of_definition henv (by decide) (by decide)
    (find?_choosing "x" "y") (find?_choosing "y" "z")
    (by simp [first, Term.Uncaptured, InReach]) (by simp [first, Term.Uncaptured, InReach]) h h'

/-- What parameters are called decides what is returned if they have one name: the variable of the
outer one is then bound by the inner one. -/
theorem capture_changes_code :
    (choosing "x" "x").Alike (choosing "x" "y") ∧
      (choosing "x" "x").IsLocallyClosed ∧ (choosing "x" "x").IsVarFree ∧
      ∃ s s', definition ⟨choosing "x" "x", true⟩ 8 "first" (.start ⟨0, 0⟩ none) =
          .ok (.lam "x" (.lam "x" (.var "x"))) s ∧
        definition ⟨choosing "x" "y", true⟩ 8 "first" (.start ⟨0, 0⟩ none) =
          .ok (.lam "x" (.lam "y" (.var "x"))) s' ∧
        ¬ Code.AlphaEquivalent (.lam "x" (.lam "x" (.var "x")))
          (.lam "x" (.lam "y" (.var "x"))) := by
  obtain ⟨s, h⟩ := EStateM.Result.exists_ok_of_value?
    (r := definition ⟨choosing "x" "x", true⟩ 8 "first" (.start ⟨0, 0⟩ none))
    (a := .lam "x" (.lam "x" (.var "x"))) (by decide +kernel)
  obtain ⟨s', h'⟩ := EStateM.Result.exists_ok_of_value?
    (r := definition ⟨choosing "x" "y", true⟩ 8 "first" (.start ⟨0, 0⟩ none))
    (a := .lam "x" (.lam "y" (.var "x"))) (by decide +kernel)
  refine ⟨choosing_alike .., by decide, by decide, s, s', h, h', fun halpha => ?_⟩
  -- both functions have to agree on which binder the variable is of
  cases halpha with
  | lam hbody =>
    cases hbody with
    | lam hvar =>
      cases hvar with
      | var hbinder =>
        -- the nearest binder of the name is the inner one on the left only
        simp [Code.sameBinder_cons_iff] at hbinder

end Elaborator

end SelfTypes
