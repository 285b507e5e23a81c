import SelfTypes.Proofs.Build.Closure
import SelfTypes.Proofs.Evaluation.Fundamental

/-!
# Builds preserve evaluation to a function

Where reduction brings the body of an entry to a function that is not erased, the code of the entry
evaluates to a function, through the code of the build. For that, erasure has to make sense: the
table is closed, an application is contracted only if it passes its argument the way that the
function takes it, no constructor of literals is unfolded, and no code uses the parameter of an
erased function. Main statement: `compiled_reaches_function`.

None of this is checked by elaboration, which erases by the flags of functions and applications
alone, and accepts literals at all types and everything as a type. `functions_lost` shows what comes
of it: for each of the conditions there is a build of a table without it that loses a function.
-/

namespace SelfTypes

/-- Reduction with an unlimited budget brings the first term to the second. -/
def Kernel.Reduces (table : Table) (t w : Term) : Prop :=
  ∃ k k' : Kernel, k.fuel.limit = none ∧
    Returns (fun depth => Kernel.reduce table depth t) k (.ok w k')

theorem Kernel.reduces_iff_weakHead {table : Table} {t w : Term} :
    Kernel.Reduces table t w ↔ WeakHead table t w := by
  refine ⟨?_, ?_⟩
  · intro h
    obtain ⟨k, k', hk, hreturns⟩ := h
    exact (Kernel.weakHead_iff_returns hk).2 ⟨k', hreturns⟩
  · intro h
    have hk : (Kernel.start ⟨0, 0⟩ none).fuel.limit = none := rfl
    obtain ⟨k', hreturns⟩ := (Kernel.weakHead_iff_returns hk).1 h
    exact ⟨_, k', hk, hreturns⟩

/-- Steps that code keeps up with bring the first term to its normal form, the second. -/
def Kernel.ReducesCoherently (table : Table) (t w : Term) : Prop :=
  ∃ i, WeakHeadIn table .coherent i t w

namespace Kernel.ReducesCoherently

variable {table : Table} {f a b w : Term} {n : BinderName} {er : Bool} {name : DefName}
  {d : Definition}

theorem lam (table : Table) (n : BinderName) (er : Bool) (b : Term) :
    ReducesCoherently table (.lam n er b) (.lam n er b) :=
  ⟨0, .lam n er b⟩

theorem beta (hf : ReducesCoherently table f (.lam n er b))
    (hb : ReducesCoherently table (b.instantiate [a]) w) :
    ReducesCoherently table (.app f a er) w := by
  obtain ⟨i, hf⟩ := hf
  obtain ⟨j, hb⟩ := hb
  exact ⟨i + j + 1, .beta rfl hf hb⟩

theorem unfold (hname : name ∉ Term.literalHeads) (hd : table.find? name = some d)
    (hb : ReducesCoherently table d.body w) : ReducesCoherently table (.ref name) w := by
  obtain ⟨i, hb⟩ := hb
  exact ⟨i + 1, .unfold hname hd hb⟩

end Kernel.ReducesCoherently

namespace Compiled

/-- The code of a name evaluates to a function, through the code of the build. -/
def ReachesFunction (c : Compiled) (name : DefName) : Prop :=
  ∃ code, c.find? name = some code ∧ ∃ n b, code.EvaluatesTo c.find? (.lam n b)

/-- No code of the build has a free variable. -/
def HasClosedCode (c : Compiled) : Prop :=
  ∀ p ∈ c.definitions, p.2.IsClosed

instance (c : Compiled) : Decidable c.HasClosedCode :=
  inferInstanceAs (Decidable (∀ p ∈ c.definitions, p.2.IsClosed))

variable {c : Compiled} {name : DefName} {code : Code}

theorem mem_of_find? (h : c.find? name = some code) : (name, code) ∈ c.definitions := by
  obtain ⟨l₁, l₂, hl, -⟩ := List.lookup_eq_some_iff.1 h
  rw [hl]
  exact List.mem_append_right l₁ List.mem_cons_self

theorem exists_find?_of_mem_keys (h : name ∈ c.definitions.map Prod.fst) :
    ∃ code, c.find? name = some code := by
  obtain ⟨p, hp, hname⟩ := List.mem_map.1 h
  exact Option.isSome_iff_exists.1 (List.lookup_isSome_iff.2 ⟨p, hp, by simp [hname]⟩)

end Compiled

namespace Build

/-! ## All definitions of a build -/

section Compiled

variable {table : Table} {depth : Nat} {entry name n : DefName} {trace t : Trace} {c : Compiled}
  {code : Code} {d : Definition}

/-- What the code of a build refers to has code in the build. -/
theorem exists_find?_of_mem_refs (h : compile table {} depth entry trace = .ok c t)
    (hcode : c.find? name = some code) (hn : n ∈ code.refs) : ∃ code', c.find? n = some code' := by
  obtain ⟨hentry, hnames, hkeys, haccepts⟩ := compiled_of_ok .refl h
  have hmem := Compiled.mem_of_find? hcode
  have hname : name ∈ table.order entry ++ [entry] := by
    rw [← hnames, ← hkeys]
    exact List.mem_map_of_mem hmem
  obtain ⟨supply, hjob⟩ := haccepts name code hmem
  obtain ⟨hrefers, hdefined⟩ := refers_of_accepts hjob hn
  obtain ⟨hordered, -⟩ := Table.order_settled hentry hname hdefined hrefers
  exact Compiled.exists_find?_of_mem_keys (by rw [hkeys, hnames]; exact hordered)

/-- The code of a definition has a derivation of its body at its declared type. -/
theorem derives_of_find? (h : compile table {} depth entry trace = .ok c t)
    (hcode : c.find? name = some code) (hd : table.find? name = some d) :
    ∃ k k' ty, Derives (environment table {}) .empty d.body.unlocate (.analysis d.ty.unlocate) k
      ⟨code, ty⟩ k' := by
  obtain ⟨-, -, -, haccepts⟩ := compiled_of_ok .refl h
  obtain ⟨supply, e, hreturns⟩ := haccepts name code (Compiled.mem_of_find? hcode)
  obtain ⟨depth', hdepth⟩ := hreturns.exists_depth
  obtain ⟨d', ty, hd', hderives⟩ := Elaborator.derives_of_definition hdepth
  cases hd.symm.trans hd'
  exact ⟨_, _, ty, hderives⟩

/-- Elaboration may start with the body of a definition, whatever variables have been issued. -/
theorem situated_unlocate (hclosed : table.IsLocallyClosed) (hfree : table.IsVarFree)
    (hbinders : table.binders.Nodup) (hd : table.find? name = some d) (k : Kernel) :
    Situated .empty k d.body.unlocate where
  context := .empty k
  term := .of_freeIds_eq_nil (hclosed.body hd).unlocate
    ((Term.freeIds_unlocate d.body).trans (hfree.body hd))
  -- the body of a definition has no free variables
  vars x hx := by
    have hid := Term.id_mem_freeIds_of_contentVars hx
    rw [Term.freeIds_unlocate, hfree.body hd] at hid
    cases hid
  names := by
    have hcontent : d.body.unlocate.contentBinders = d.body.contentBinders :=
      Term.gather_unlocate d.body
    -- no binder is below another one of its name, since no two in the table share a name
    refine Term.unshadowed_of_nodup ?_ (List.disjoint_nil_right _) fun i above _ => trivial
    rw [hcontent]
    exact Table.nodup_contentBinders hbinders hd

/-- The code of every definition of a build realizes its body at its declared type: for one step
more, if what it refers to does so. -/
theorem realizes_compiled (hclosed : table.IsLocallyClosed) (hfree : table.IsVarFree)
    (hbinders : table.binders.Nodup) (h : compile table {} depth entry trace = .ok c t)
    (hcodes : c.HasClosedCode) (steps : Nat) {name : DefName} {d : Definition} {code : Code}
    (hd : table.find? name = some d) (hcode : c.find? name = some code) :
    Realizes table c.find? steps d.body d.ty code := by
  -- definitions may refer to each other in a circle, so the induction is on the steps and for all
  -- names at once
  induction steps generalizing name d code with
  | zero => exact .zero table c.find? d.body d.ty code
  | succ steps ih =>
    obtain ⟨k, k', ty, hderives⟩ := derives_of_find? h hcode hd
    -- a closed code is not changed by a valuation of names
    have hcodeClosed : code.IsClosed := hcodes _ (Compiled.mem_of_find? hcode)
    have hty : d.ty.freeIds = [] := (hfree d (List.mem_of_find?_eq_some hd)).1
    have htyClosed : d.ty.IsLocallyClosed := (hclosed d (List.mem_of_find?_eq_some hd)).1
    have hmode : Settled k d.ty.unlocate :=
      .of_freeIds_eq_nil htyClosed.unlocate ((Term.freeIds_unlocate d.ty).trans hty)
    -- there are no variables, and the globals are realized for the steps that are left
    have hfit : Fits table c.find? (steps + 1) .empty .self .empty code := by
      refine ⟨fun n hn => ?_, fun n hn d' hd' => ?_⟩
      · rw [hcodeClosed] at hn
        cases hn
      · obtain ⟨code', hcode'⟩ := exists_find?_of_mem_refs h hcode hn
        exact Realizes.unfold hd' hcode' (ih hd' hcode')
    obtain ⟨ρ, -, hreal⟩ := hderives.computes hclosed hfree rfl c.find?
      (situated_unlocate hclosed hfree hbinders hd k) (Mode.isSettled_analysis hmode) .self
    have hbody := hreal (steps + 1) .empty hfit d.ty.unlocate (.inr rfl)
    -- the valuation has nothing to act on, neither in the terms nor in the code
    rw [Valuation.apply_of_freeIds_eq_nil _ ((Term.freeIds_unlocate d.body).trans (hfree.body hd)),
      Valuation.apply_of_freeIds_eq_nil _ ((Term.freeIds_unlocate d.ty).trans hty),
      hcodeClosed.subst_eq] at hbody
    exact hbody.congr_bare hclosed hfree (hclosed.body hd).unlocate (hclosed.body hd)
      htyClosed.unlocate htyClosed d.body.bare_unlocate.symm d.ty.bare_unlocate.symm

/-! ## Functions -/

/-- A table whose binders have distinct names is built for an entry that is no type, and reduction
brings the body of the entry to a function that is not erased. -/
structure BuildsFunction (table : Table) (entry : DefName) (c : Compiled) : Prop where
  binders : table.binders.Nodup
  compiles : ∃ depth trace t, compile table {} depth entry trace = .ok c t
  reduces : ∃ d, table.find? entry = some d ∧ ¬ Kernel.Reduces table d.ty .typ ∧
    ∃ n b, Kernel.Reduces table d.body (.lam n false b)

/-- The body of the entry is reduced by steps that code keeps up with. -/
def ReducesCoherently (table : Table) (entry : DefName) : Prop :=
  ∃ d w, table.find? entry = some d ∧ Kernel.ReducesCoherently table d.body w

/-- What elaboration does not check, but evaluation needs. -/
structure Regular (table : Table) (entry : DefName) (c : Compiled) : Prop where
  closed : table.IsLocallyClosed
  free : table.IsVarFree
  codes : c.HasClosedCode
  coherent : ReducesCoherently table entry

/-- Where reduction brings the body of an entry to a function that is not erased, by steps that code
keeps up with, the code of the entry evaluates to a function: if the table is closed and no code of
the build has a free variable. -/
theorem compiled_reaches_function (h : BuildsFunction table entry c)
    (hregular : Regular table entry c) : c.ReachesFunction entry := by
  obtain ⟨depth, trace, t, hcompile⟩ := h.compiles
  obtain ⟨d, hd, hty, n, b, hlam⟩ := h.reduces
  rw [Kernel.reduces_iff_weakHead] at hty hlam
  obtain ⟨d', w, hd', i, hw⟩ := hregular.coherent
  cases hd.symm.trans hd'
  -- a term has one weak head, so the coherent reduction comes to that same function
  rw [hw.weakHead.unique hlam] at hw
  obtain ⟨-, hnames, hkeys, -⟩ := compiled_of_ok .refl hcompile
  have hentry : entry ∈ c.definitions.map Prod.fst := by
    rw [hkeys, hnames]
    exact List.mem_append_right _ (List.mem_singleton.2 rfl)
  obtain ⟨code, hcode⟩ := Compiled.exists_find?_of_mem_keys hentry
  -- one step more than the function takes is enough to see it
  have hreal := realizes_compiled hregular.closed hregular.free h.binders hcompile hregular.codes
    (i + 1) hd hcode
  obtain ⟨_, _, _, _, -, -, hkept⟩ :=
    realizes_iff.1 hreal i (Nat.lt_succ_self i) n false b hw hty
  obtain ⟨p, cb, heval, -⟩ := hkept rfl
  exact ⟨code, hcode, p, cb, heval⟩

end Compiled

/-! ## Builds that keep and that lose functions -/

section Examples

variable {table : Table} {depth : Nat} {d : Definition} {s n p : BinderName}
  {bind body b : Term} {c : Compiled} {code : Code}

/-- The build is for a function, but the code of the entry does not evaluate to one. -/
def LosesFunction (table : Table) (c : Compiled) : Prop :=
  BuildsFunction table "main" c ∧ ¬ c.ReachesFunction "main"

theorem buildsFunction_of_reduce (hbinders : table.binders.Nodup)
    (hcompile : ∃ t, compile table {} depth "main" [] = .ok c t)
    (hd : table.find? "main" = some d) (hty : d.ty = .all s n bind body)
    (hreduce : (Kernel.reduce table depth d.body (.start ⟨0, 0⟩ none)).value? =
      some (.lam p false b)) : BuildsFunction table "main" c := by
  obtain ⟨t, hcompile⟩ := hcompile
  obtain ⟨k, hreduce⟩ := EStateM.Result.exists_ok_of_value? hreduce
  refine ⟨hbinders, ⟨depth, [], t, hcompile⟩, d, hd, ?_, p, b, ?_⟩
  · rw [hty, Kernel.reduces_iff_weakHead]
    intro htyp
    cases htyp
  · rw [Kernel.reduces_iff_weakHead]
    exact Kernel.weakHead_of_reduce hreduce

/-- Code whose evaluation ends with something else does not evaluate to a function. -/
theorem not_reachesFunction (steps : Nat) (v : Code) (hcode : c.find? "main" = some code)
    (hv : code.evaluate c.find? steps = v) (hstuck : v.step? c.find? = none)
    (hlam : ∀ n b, v ≠ .lam n b) : ¬ c.ReachesFunction "main" := by
  intro h
  obtain ⟨code', hcode', n, b, heval⟩ := h
  cases hcode.symm.trans hcode'
  have hend := Code.evaluatesTo_evaluate c.find? steps code
  rw [hv] at hend
  exact hlam n b (hend.unique heval hstuck rfl)

/-- An identity function whose parameter for the type is erased, and an entry that applies it to a
type, which it passes as an erased argument or not. -/
def specialised (er : Bool) : Table :=
  .ofList
    [⟨"id", .all "s₁" "A" .typ (.all "s₂" "x" (.bound 0) (.bound 2)),
      .lam "A'" true (.lam "x'" false (.bound 0))⟩,
     ⟨"main", .all "s₃" "z" .typ .typ, .app (.ref "id") .typ er⟩]

theorem order_specialised (er : Bool) : (specialised er).order "main" = ["id"] := by
  cases er <;> cbv

/-- The code of `specialised`. -/
def specialisedCode (main : Code) : Compiled :=
  .collect ["id", "main"] [.lam "x'" (.var "x'"), main]

theorem compile_specialised (er : Bool) :
    ∃ t, compile (specialised er) {} 8 "main" [] =
      .ok (specialisedCode (appCode er (.ref "id") .nul)) t := by
  cases er with
  | false =>
    rw [compile_of_contains rfl (by decide), order_specialised]
    exact EStateM.Result.exists_ok_of_value? (by decide +kernel)
  | true =>
    rw [compile_of_contains rfl (by decide), order_specialised]
    exact EStateM.Result.exists_ok_of_value? (by decide +kernel)

theorem buildsFunction_specialised (er : Bool) :
    BuildsFunction (specialised er) "main" (specialisedCode (appCode er (.ref "id") .nul)) := by
  cases er with
  | false =>
    exact buildsFunction_of_reduce (p := "x'") (b := .bound 0) (by decide)
      (compile_specialised false) rfl rfl (by decide +kernel)
  | true =>
    exact buildsFunction_of_reduce (p := "x'") (b := .bound 0) (by decide)
      (compile_specialised true) rfl rfl (by decide +kernel)

/-- If the type is passed as an erased argument, the code of the entry evaluates to the function. -/
theorem specialised_reaches_function :
    BuildsFunction (specialised true) "main" (specialisedCode (.ref "id")) ∧
      Regular (specialised true) "main" (specialisedCode (.ref "id")) ∧
      (specialisedCode (.ref "id")).ReachesFunction "main" := by
  have hbuilds := buildsFunction_specialised true
  have hregular : Regular (specialised true) "main" (specialisedCode (.ref "id")) := by
    refine ⟨by decide, by decide, by decide, _, .lam "x'" false (.bound 0), rfl, ?_⟩
    exact .beta (.unfold (by decide) rfl (.lam ..)) (.lam ..)
  exact ⟨hbuilds, hregular, compiled_reaches_function hbuilds hregular⟩

/-- An entry that is a literal, whose constructor is defined as a function. -/
def definedLiteral : Table :=
  .ofList
    [⟨"String.nil", .all "s₁" "x" .typ .typ, .lam "x'" false (.bound 0)⟩,
     ⟨"main", .all "s₂" "z" .typ .typ, .ref "String.nil"⟩]

/-- A function that returns the parameter that it erases, and an entry that applies it. -/
def returnedErased : Table :=
  .ofList
    [⟨"first", .all "s₁" "x" (.all "s₂" "u" .typ .typ) (.all "s₃" "w" .typ .typ),
      .lam "x'" true (.bound 0)⟩,
     ⟨"id", .all "s₄" "y" .typ .typ, .lam "y'" false (.bound 0)⟩,
     ⟨"main", .all "s₅" "z" .typ .typ, .app (.ref "first") (.ref "id") true⟩]

/-- A definition whose type has a free variable, which is the first variable that is issued when the
definition is checked, so it stands for the type parameter there, but for nothing in the entry. By
way of it the entry turns one type into another, and a type into a function. -/
def openType : Table :=
  .ofList
    [⟨"iso", .all "s₁" "A" .typ (.all "s₂" "R" .typ
        (.all "s₃" "k" (.all "s₄" "f" (.all "s₅" "a" (.bound 2) (.var ⟨⟨0, 0⟩, "V"⟩))
          (.all "s₆" "g" (.all "s₇" "b" (.var ⟨⟨0, 0⟩, "V"⟩) (.bound 6)) (.bound 4)))
          (.bound 2))),
      .lam "A'" false (.lam "R'" false (.lam "k'" false
        (.app (.app (.bound 0) (.lam "a'" false (.bound 0)) false) (.lam "b'" false (.bound 0))
          false)))⟩,
     ⟨"main", .all "s₈" "z" .typ .typ,
      .app (.app (.app (.ref "iso") .typ false) (.all "s₉" "c" .typ .typ) false)
        (.lam "to" false (.lam "from" false
          (.app (.app (.app (.ref "iso") (.all "s₁₀" "d" .typ .typ) false)
            (.all "s₁₁" "e" .typ .typ) false)
            (.lam "to'" false (.lam "from'" false
              (.app (.bound 0) (.app (.bound 3) (.lam "q" false (.bound 0)) false) false)))
            false))) false⟩]

/-- An entry that passes a dangling index for a type, which is caught by one binder of the type of
the function in one place, and by another one in another. By way of it a type is turned into a
function. -/
def danglingType : Table :=
  .ofList
    [⟨"through", .all "s₁" "A" .typ
        (.all "s₂" "k" (.all "s₃" "x" .typ (.all "s₄" "y" (.bound 0) (.bound 4)))
          (.all "s₅" "l"
            (.all "s₆" "u" .typ (.all "s₇" "w" .typ (.all "s₈" "v" (.bound 6) (.bound 4))))
            (.all "s₉" "c" .typ .typ))),
      .lam "A'" false (.lam "k'" false (.lam "l'" false
        (.app (.app (.app (.bound 0) (.all "s₁₀" "d" .typ .typ) false) .typ false)
          (.app (.app (.bound 1) .typ false) (.lam "q" false (.bound 0)) false) false)))⟩,
     ⟨"main", .all "s₁₁" "z" .typ .typ,
      .app (.app (.app (.ref "through") (.bound 2) false)
        (.lam "x'" false (.lam "y'" false (.bound 0))) false)
        (.lam "u'" false (.lam "w'" false (.lam "v'" false (.bound 0)))) false⟩]

theorem order_definedLiteral : definedLiteral.order "main" = ["String.nil"] := by
  cbv

theorem order_returnedErased : returnedErased.order "main" = ["first", "id"] := by
  cbv

theorem order_openType : openType.order "main" = ["iso"] := by
  cbv

theorem order_danglingType : danglingType.order "main" = ["through"] := by
  cbv

/-- An argument that is passed on to a function that erases its parameter takes the place of the
next one. -/
theorem losesFunction_specialised :
    LosesFunction (specialised false) (specialisedCode (.app (.ref "id") .nul)) :=
  ⟨buildsFunction_specialised false, not_reachesFunction 3 .nul rfl (by decide) rfl nofun⟩

theorem losesFunction_definedLiteral :
    LosesFunction definedLiteral
      (.collect ["String.nil", "main"] [.lam "x'" .nul, .str ""]) := by
  have hcompile : ∃ t, compile definedLiteral {} 8 "main" [] =
      .ok (.collect ["String.nil", "main"] [.lam "x'" .nul, .str ""]) t := by
    rw [compile_of_contains rfl (by decide), order_definedLiteral]
    exact EStateM.Result.exists_ok_of_value? (by decide +kernel)
  exact ⟨buildsFunction_of_reduce (p := "x'") (b := .bound 0) (by decide) hcompile rfl rfl
    (by decide +kernel), not_reachesFunction 0 (.str "") rfl rfl rfl nofun⟩

theorem losesFunction_returnedErased :
    LosesFunction returnedErased
      (.collect ["first", "id", "main"] [.var "x'", .lam "y'" .nul, .ref "first"]) := by
  have hcompile : ∃ t, compile returnedErased {} 8 "main" [] =
      .ok (.collect ["first", "id", "main"] [.var "x'", .lam "y'" .nul, .ref "first"]) t := by
    rw [compile_of_contains rfl (by decide), order_returnedErased]
    exact EStateM.Result.exists_ok_of_value? (by decide +kernel)
  exact ⟨buildsFunction_of_reduce (p := "y'") (b := .bound 0) (by decide) hcompile rfl rfl
    (by decide +kernel), not_reachesFunction 1 (.var "x'") rfl (by decide) rfl nofun⟩

/-- The code of `openType`. -/
def openTypeCode : Compiled :=
  .collect ["iso", "main"]
    [.lam "A'" (.lam "R'" (.lam "k'"
      (.app (.app (.var "k'") (.lam "a'" (.var "a'"))) (.lam "b'" (.var "b'"))))),
     .app (.app (.app (.ref "iso") .nul) .nul) (.lam "to" (.lam "from"
      (.app (.app (.app (.ref "iso") .nul) .nul) (.lam "to'" (.lam "from'"
        (.app (.var "from'") (.app (.var "to") .nul)))))))]

theorem losesFunction_openType : LosesFunction openType openTypeCode := by
  have hcompile : ∃ t, compile openType {} 16 "main" [] = .ok openTypeCode t := by
    rw [compile_of_contains rfl (by decide), order_openType]
    exact EStateM.Result.exists_ok_of_value? (by decide +kernel)
  exact ⟨buildsFunction_of_reduce (p := "q") (b := .bound 0) (by decide) hcompile rfl rfl
    (by decide +kernel), not_reachesFunction 20 .nul rfl (by decide +kernel) rfl nofun⟩

/-- The code of `danglingType`. -/
def danglingTypeCode : Compiled :=
  .collect ["through", "main"]
    [.lam "A'" (.lam "k'" (.lam "l'"
      (.app (.app (.app (.var "l'") .nul) .nul) (.app (.app (.var "k'") .nul) .nul)))),
     .app (.app (.app (.ref "through") .nul) (.lam "x'" (.lam "y'" (.var "y'"))))
      (.lam "u'" (.lam "w'" (.lam "v'" (.var "v'"))))]

theorem losesFunction_danglingType : LosesFunction danglingType danglingTypeCode := by
  have hcompile : ∃ t, compile danglingType {} 16 "main" [] = .ok danglingTypeCode t := by
    rw [compile_of_contains rfl (by decide), order_danglingType]
    exact EStateM.Result.exists_ok_of_value? (by decide +kernel)
  exact ⟨buildsFunction_of_reduce (p := "q") (b := .bound 0) (by decide) hcompile rfl rfl
    (by decide +kernel), not_reachesFunction 20 .nul rfl (by decide +kernel) rfl nofun⟩

/-- Builds that lose a function, each of them of a table without one of the conditions alone. -/
theorem functions_lost :
    (∃ c, LosesFunction (specialised false) c ∧ (specialised false).IsLocallyClosed ∧
      (specialised false).IsVarFree ∧ c.HasClosedCode) ∧
    (∃ c, LosesFunction definedLiteral c ∧ definedLiteral.IsLocallyClosed ∧
      definedLiteral.IsVarFree ∧ c.HasClosedCode) ∧
    (∃ c, LosesFunction returnedErased c ∧ returnedErased.IsLocallyClosed ∧
      returnedErased.IsVarFree ∧ ReducesCoherently returnedErased "main") ∧
    (∃ c, LosesFunction openType c ∧ openType.IsLocallyClosed ∧ c.HasClosedCode ∧
      ReducesCoherently openType "main") ∧
    ∃ c, LosesFunction danglingType c ∧ danglingType.IsVarFree ∧ c.HasClosedCode ∧
      ReducesCoherently danglingType "main" := by
  have hreturned : ReducesCoherently returnedErased "main" := by
    refine ⟨_, .lam "y'" false (.bound 0), rfl, ?_⟩
    exact .beta (.unfold (by decide) rfl (.lam ..)) (.unfold (by decide) rfl (.lam ..))
  have hdangling : ReducesCoherently danglingType "main" := by
    refine ⟨_, .lam "q" false (.bound 0), rfl, ?_⟩
    -- the two functions that are passed are applied in turn
    refine .beta (.beta (.beta (.unfold (by decide) rfl (.lam ..)) (.lam ..)) (.lam ..)) ?_
    exact .beta (.beta (.beta (.lam ..) (.lam ..)) (.lam ..))
      (.beta (.beta (.lam ..) (.lam ..)) (.lam ..))
  have hopen : ReducesCoherently openType "main" := by
    refine ⟨_, .lam "q" false (.bound 0), rfl, ?_⟩
    -- the isomorphism is used twice, and then its two directions are
    refine .beta (.beta (.beta (.unfold (by decide) rfl (.lam ..)) (.lam ..)) (.lam ..)) ?_
    refine .beta (.beta (.lam ..) (.lam ..)) ?_
    refine .beta (.beta (.beta (.unfold (by decide) rfl (.lam ..)) (.lam ..)) (.lam ..)) ?_
    refine .beta (.beta (.lam ..) (.lam ..)) ?_
    exact .beta (.lam ..) (.beta (.lam ..) (.lam ..))
  -- each build lacks one condition and has the others that are listed with it
  exact ⟨⟨_, losesFunction_specialised, by decide, by decide, by decide⟩,
    ⟨_, losesFunction_definedLiteral, by decide, by decide, by decide⟩,
    ⟨_, losesFunction_returnedErased, by decide, by decide, hreturned⟩,
    ⟨_, losesFunction_openType, by decide, by decide, hopen⟩,
    ⟨_, losesFunction_danglingType, by decide, by decide, hdangling⟩⟩

end Examples

end Build

end SelfTypes
