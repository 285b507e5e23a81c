import SelfTypes.Proofs.Build.Closure
import SelfTypes.Proofs.Elaboration.Overlooked

/-!
# Undefined references

The dependency sorter passes over names without definition, and leaves them for the elaborator to
report. A build in which the sorter goes to a reference to such a name does not succeed, unless the
elaborator overlooks the reference: it stands in a literal or in the place of a type. The places
that the sorter goes to are the ends of paths, see `Term.mem_dependencies_iff`. Main statement:
`undefined_reference_fails`.
-/

namespace SelfTypes.Build

section Compile

variable {arrival : Arrival} {table : Table} {settings : Settings} {depth : Nat}
  {entry : DefName} {trace t : Trace} {c : Compiled}

/-- A build that succeeds has accepted each definition, with the group of variables of its place. -/
theorem accepts_of_listed (harrival : ∀ outcomes, (arrival outcomes).Perm outcomes)
    (h : compileArriving arrival table settings depth entry trace = .ok c t) {i : Nat}
    {name : DefName} (hname : (table.order entry ++ [entry])[i]? = some name) :
    ∃ code, Job.Accepts table settings ⟨name, ⟨i, 0⟩⟩ code := by
  cases hentry : table.contains entry with
  | false =>
    rw [compileArriving_of_not_contains hentry] at h
    cases h
  | true =>
    rw [compileArriving_of_contains hentry] at h
    obtain ⟨codes, t₁, hjobs, -⟩ := EStateM.ok_of_bind_ok h
    -- there are as many codes as names
    have hi : i < codes.length :=
      length_of_runJobs harrival hjobs ▸ (List.getElem?_eq_some_iff.1 hname).1
    exact ⟨codes[i], accepts_of_runJobs harrival hjobs hname (List.getElem?_eq_getElem hi)⟩

/-- The body of an accepted definition refers to unknown names only where it is overlooked. -/
theorem overlooked_of_accepts {name : DefName} {supply : Supply} {code : Code}
    (h : Job.Accepts table settings ⟨name, supply⟩ code) {d : Definition}
    (hd : table.find? name = some d) {p : List Branch} {n : DefName}
    (hp : d.body.follow p = some (.ref n)) (hn : table.find? n = none) :
    Overlooked (environment table settings) .empty d.body.unlocate (.analysis d.ty.unlocate)
      (.start supply settings.fuel) p := by
  obtain ⟨e, hreturns⟩ := h
  obtain ⟨depth, hdepth⟩ := hreturns.exists_depth
  obtain ⟨d', ty, hd', hderives⟩ := Elaborator.derives_of_definition hdepth
  cases hd.symm.trans hd'
  exact hderives.overlooked (Term.follow_unlocate hp) hn

/-- A build does not succeed if the body of a definition that it comes to refers to an unknown name
at a place that the sorter goes to and that the elaborator does not overlook. -/
theorem undefined_reference_fails (harrival : ∀ outcomes, (arrival outcomes).Perm outcomes)
    {i : Nat} {name n : DefName} {d : Definition} {p : List Branch}
    (hname : (table.order entry ++ [entry])[i]? = some name) (hd : table.find? name = some d)
    (hp : d.body.follow p = some (.ref n)) (hn : table.find? n = none)
    (hseen : ¬ Overlooked (environment table settings) .empty d.body.unlocate
      (.analysis d.ty.unlocate) (.start ⟨i, 0⟩ settings.fuel) p) :
    ∀ c t, compileArriving arrival table settings depth entry trace ≠ .ok c t := by
  intro c t h
  obtain ⟨code, haccepts⟩ := accepts_of_listed harrival h hname
  exact hseen (overlooked_of_accepts haccepts hd hp hn)

end Compile

/-- A function on truth values, and its application to a name that is not defined. -/
def misspelt : Table :=
  .ofList
    [⟨"not", .pi "x" (.ref "Bool") (.ref "Bool"), .ref "not"⟩,
     ⟨"main", .ref "Bool", .app (.ref "not") (.ref "maybe") false⟩]

theorem order_misspelt : misspelt.order "main" = ["not"] := by
  cbv

/-- Truth values are no types. -/
theorem not_weakHead_bool_typ : ¬ WeakHead misspelt (.ref "Bool") .typ := by
  intro h
  cases h with
  | unfold hname _ => cases hname

/-- The argument is not overlooked: it is no literal, and it is checked against the type of truth
values. -/
theorem not_overlooked_misspelt (k : Kernel) :
    ¬ Overlooked (environment misspelt {}) .empty (.app (.ref "not") (.ref "maybe") false)
      (.analysis (.ref "Bool")) k [.arg] := by
  intro h
  cases h with
  | literal hq hu hr =>
    -- the path begins in two ways, and neither leads to a literal
    obtain rfl | ⟨q, rfl, hrest⟩ := List.prefix_cons_iff.1 hq
    · cases hu
      cases hr
    · cases List.prefix_nil.1 hrest
      cases hu
      cases hr
  | type hq hgoal hty =>
    obtain rfl | ⟨q, rfl, hrest⟩ := List.prefix_cons_iff.1 hq
    · rw [hgoal.ty_of_nil] at hty
      exact not_weakHead_bool_typ hty
    · cases List.prefix_nil.1 hrest
      -- the function has the type that it is declared with, a self type already
      obtain ⟨s, n, bind, body, func, k₀, k₁, hfunc, hall, hgoal⟩ := hgoal.exists_of_arg
      obtain ⟨d, hd, hfuncTy⟩ := hfunc.ty_of_ref
      cases hd
      rw [hfuncTy] at hall
      cases hall
      rw [hgoal.ty_of_nil] at hty
      exact not_weakHead_bool_typ hty

/-- A build that applies a function to an undefined name does not succeed. -/
theorem misspelt_fails :
    misspelt.find? "maybe" = none ∧
      ∀ depth c t, compile misspelt {} depth "main" [] ≠ .ok c t := by
  refine ⟨rfl, fun depth => ?_⟩
  have hname : (misspelt.order "main" ++ ["main"])[1]? = some "main" := by
    rw [order_misspelt]
    rfl
  exact undefined_reference_fails .refl hname rfl rfl rfl (not_overlooked_misspelt _)

/-- The identity function applied to an undefined type, as an erased argument, and to a value of
that type. -/
def opaqueArgument : Table :=
  .ofList
    [⟨"a", .ref "A", .ref "a"⟩,
     ⟨"id", .pi "A" .typ (.pi "x" (.bound 0) (.bound 2)),
       .lam "A" true (.lam "x" false (.bound 0))⟩,
     ⟨"main", .ref "A", .app (.app (.ref "id") (.ref "A") true) (.ref "a") false⟩]

theorem order_opaqueArgument : opaqueArgument.order "main" = ["id", "a"] := by
  cbv

/-- The type is not defined, no part of the body around it is a literal, and the build succeeds. -/
theorem opaqueArgument_compiles :
    opaqueArgument.find? "A" = none ∧
      ∃ d, opaqueArgument.find? "main" = some d ∧
        d.body.follow [.func, .arg] = some (.ref "A") ∧
        (∀ q ∈ [[], [.func], [.func, .arg]], (d.body.follow q).bind Elaborator.literal? = none) ∧
        ∃ t, compile opaqueArgument {} 8 "main" [] =
          .ok (.collect ["id", "a", "main"]
            [.lam "x" (.var "x"), .ref "a", .app (.ref "id") (.ref "a")]) t := by
  refine ⟨rfl, _, rfl, rfl, by decide +kernel, ?_⟩
  rw [compile, compileArriving_of_contains (by decide), order_opaqueArgument]
  exact EStateM.Result.exists_ok_of_value? (by decide +kernel)

end SelfTypes.Build
