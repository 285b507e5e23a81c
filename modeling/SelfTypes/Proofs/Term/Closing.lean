import Mathlib.Data.List.Nodup
import SelfTypes.Proofs.Term.Substitution
import SelfTypes.Term.Index

/-!
# Closing a scope and opening it again

`abstractOver` puts indices in the place of free variables, and `instantiate` puts values in the
place of those indices. Main statements: `instantiate_abstractOver`, by which the one after the
other is the substitution of the values for the variables; `abstractOver_instantiate`, by which a
scope that is opened with variables of its own is the same again when it is closed over them; and
`closing_and_opening_inverse`, both for indices that are words.
-/

namespace SelfTypes.Term

/-! ## Closing at a depth -/

/-- Closes a scope over the variables `ids` in a term that stands below `depth` inner binders. -/
def closeAt (ids : List VarId) (depth : Nat) (t : Term) : Term :=
  mapLeaves (closeIndex ids.length) (closeVar ids) depth t

theorem abstractOver_eq_closeAt (ids : List VarId) (body : Term) :
    body.abstractOver ids = body.closeAt ids 0 := rfl

section CloseAt

variable (ids : List VarId) (depth : Nat)

@[simp] theorem closeAt_bound (i : Nat) :
    (bound i).closeAt ids depth = closeIndex ids.length depth i := rfl

@[simp] theorem closeAt_var (x : Var) : (var x).closeAt ids depth = closeVar ids depth x := rfl

@[simp] theorem closeAt_ref (n : DefName) : (ref n).closeAt ids depth = ref n := rfl

@[simp] theorem closeAt_typ : typ.closeAt ids depth = typ := rfl

@[simp] theorem closeAt_all (s n : BinderName) (a b : Term) :
    (all s n a b).closeAt ids depth =
      all s n (a.closeAt ids depth) (b.closeAt ids (depth + 2)) := rfl

@[simp] theorem closeAt_lam (n : BinderName) (er : Bool) (b : Term) :
    (lam n er b).closeAt ids depth = lam n er (b.closeAt ids (depth + 1)) := rfl

@[simp] theorem closeAt_app (f a : Term) (er : Bool) :
    (app f a er).closeAt ids depth =
      app (f.closeAt ids depth) (a.closeAt ids depth) er := rfl

@[simp] theorem closeAt_letIn (n : BinderName) (d : Bool) (e b : Term) :
    (letIn n d e b).closeAt ids depth =
      letIn n d (e.closeAt ids depth) (b.closeAt ids (depth + 1)) := rfl

@[simp] theorem closeAt_ann (d : Bool) (e t : Term) :
    (ann d e t).closeAt ids depth =
      ann d (e.closeAt ids depth) (t.closeAt ids depth) := rfl

@[simp] theorem closeAt_loc (s : Span) (e : Term) :
    (loc s e).closeAt ids depth = loc s (e.closeAt ids depth) := rfl

end CloseAt

/-! ## Opening what was closed -/

/-- An index that a new scope has passed is the same again after the scope is opened. -/
theorem openAt_closeIndex (values : List Term) (depth i : Nat) :
    (closeIndex values.length depth i).openAt values depth = bound i := by
  unfold closeIndex
  split
  · rename_i hi
    rw [openAt_bound, openIndex, if_pos hi]
  · have hi : ¬ i + values.length < depth := by omega
    have hout : values.length ≤ i + values.length - depth := by omega
    rw [openAt_bound, openIndex, if_neg hi, List.getElem?_eq_none hout, Nat.add_sub_cancel]

section

variable {xs : List Var} {values : List Term}

/-- A variable is assigned the value at its first place among the variables. -/
theorem assign_of_idxOf? {σ : Var → Term} {y : Var} {pos : Nat}
    (hlength : xs.length = values.length) (hpos : (xs.map Var.id).idxOf? y.id = some pos) :
    values[pos]? = some (assign σ xs values y) := by
  induction xs generalizing values pos with
  | nil => cases hpos
  | cons x xs ih =>
    cases values with
    | nil => cases hlength
    | cons v values =>
      rw [List.map_cons, List.idxOf?_cons] at hpos
      -- either the first variable is meant, or it is passed over and the rest is searched
      by_cases hx : x.id = y.id
      · simp only [hx, beq_self_eq_true, if_true] at hpos
        cases hpos
        simp only [assign, hx, if_true, List.getElem?_cons_zero]
      · simp only [beq_iff_eq, hx, if_false, Option.map_eq_some_iff] at hpos
        obtain ⟨pos, hpos, rfl⟩ := hpos
        simp only [assign, Ne.symm hx, if_false, List.getElem?_cons_succ]
        exact ih (Nat.succ.inj hlength) hpos

/-- A variable that a scope has closed over is its value after the scope is opened. -/
theorem openAt_closeVar (hlength : xs.length = values.length) (depth : Nat) (y : Var) :
    (closeVar (xs.map Var.id) depth y).openAt values.reverse depth = assign var xs values y := by
  unfold closeVar
  cases hpos : (xs.map Var.id).idxOf? y.id with
  | none =>
    -- a variable that is not closed over is not assigned anything either
    have hy := List.idxOf?_eq_none_iff.1 hpos
    refine (assign_of_notMem fun x hx heq => hy ?_).symm
    rw [heq]
    exact List.mem_map_of_mem hx
  | some pos =>
    -- the first of the variables has the last of the indices
    have hvalue := assign_of_idxOf? (σ := var) hlength hpos
    have hlt := (List.getElem?_eq_some_iff.1 hvalue).1
    have hin : ¬ depth + values.length - 1 - pos < depth := by omega
    have hplace : depth + values.length - 1 - pos - depth = values.length - 1 - pos := by omega
    have hlt' : values.length - 1 - pos < values.length := by omega
    have hback : values.length - 1 - (values.length - 1 - pos) = pos := by omega
    simp only [List.length_map, hlength, openAt_bound, openIndex, hin, if_false, hplace,
      List.getElem?_reverse hlt', hback, hvalue]

theorem openAt_closeAt (hlength : xs.length = values.length) (t : Term) (depth : Nat) :
    (t.closeAt (xs.map Var.id) depth).openAt values.reverse depth =
      t.subst (assign var xs values) := by
  induction t generalizing depth with
  | bound i =>
    -- as many indices as are made room for are opened again
    have hids : (xs.map Var.id).length = values.reverse.length := by
      rw [List.length_map, List.length_reverse, hlength]
    rw [closeAt_bound, hids, openAt_closeIndex]
    rfl
  | var y => exact openAt_closeVar hlength depth y
  | ref | typ => rfl
  | lam _ _ _ ih => rw [closeAt_lam, openAt_lam, ih, subst]
  | loc _ _ ih => rw [closeAt_loc, openAt_loc, ih, subst]
  | all _ _ _ _ ih₁ ih₂ => rw [closeAt_all, openAt_all, ih₁, ih₂, subst]
  | app _ _ _ ih₁ ih₂ => rw [closeAt_app, openAt_app, ih₁, ih₂, subst]
  | letIn _ _ _ _ ih₁ ih₂ => rw [closeAt_letIn, openAt_letIn, ih₁, ih₂, subst]
  | ann _ _ _ ih₁ ih₂ => rw [closeAt_ann, openAt_ann, ih₁, ih₂, subst]

/-- Closing a scope over variables and opening it with as many values is substituting the values for
the variables; of variables that are listed twice, the first counts. -/
theorem instantiate_abstractOver (hlength : xs.length = values.length) (t : Term) :
    (t.abstractOver (xs.map Var.id)).instantiate values = t.subst (assign var xs values) := by
  rw [abstractOver_eq_closeAt, instantiate_eq_openAt, openAt_closeAt hlength]

end

/-- The substitution puts each value in the place of the variable that stands at the same place in
the list, and leaves other variables alone. -/
structure Assigns (ids : List VarId) (values : List Term) (σ : Var → Term) : Prop where
  value : ∀ (i : Nat) (x : Var), ids[i]? = some x.id → values[i]? = some (σ x)
  other : ∀ x : Var, x.id ∉ ids → σ x = var x

/-- Of different variables, each one is found at its own place. -/
theorem idxOf?_of_nodup {ids : List VarId} (hnodup : ids.Nodup) {i : Nat} {id : VarId}
    (hi : ids[i]? = some id) : ids.idxOf? id = some i := by
  obtain ⟨hlt, hid⟩ := List.getElem?_eq_some_iff.1 hi
  refine List.idxOf?_eq_some_iff.2 ⟨hlt, hid, fun j hj heq => ?_⟩
  exact Nat.ne_of_lt hj (hnodup.getElem_inj_iff.1 (heq.trans hid.symm))

/-- Closing a scope over different variables and opening it with as many values puts each value in
the place of its variable. -/
theorem exists_instantiate_abstractOver {ids : List VarId} {values : List Term}
    (hnodup : ids.Nodup) (hlength : values.length = ids.length) (t : Term) :
    ∃ σ, Assigns ids values σ ∧ (t.abstractOver ids).instantiate values = t.subst σ := by
  -- how the variables are displayed does not matter
  let xs : List Var := ids.map fun id => ⟨id, ""⟩
  have hids : xs.map Var.id = ids := List.map_map.trans (List.map_id ids)
  have hlength' : xs.length = values.length := by rw [hlength, List.length_map]
  refine ⟨assign var xs values, ⟨fun i x hi => ?_, fun x hx => ?_⟩, ?_⟩
  · have hplace := idxOf?_of_nodup hnodup hi
    rw [← hids] at hplace
    exact assign_of_idxOf? hlength' hplace
  · refine assign_of_notMem fun y hy heq => hx ?_
    rw [← hids, heq]
    exact List.mem_map_of_mem hy
  · have hsubst := instantiate_abstractOver hlength' t
    rwa [hids] at hsubst

/-! ## Closing what was opened -/

section

variable {xs : List Var}

/-- An index that gave way to a variable, or lost the binders of the scope, is the same again after
the scope is closed. -/
theorem closeAt_openIndex (hnodup : (xs.map Var.id).Nodup) (depth i : Nat) :
    (openIndex (xs.map var).reverse depth i).closeAt (xs.map Var.id) depth = bound i := by
  unfold openIndex
  split
  · rename_i hi
    rw [closeAt_bound, closeIndex, if_pos hi]
  · rename_i hi
    rcases Nat.lt_or_ge (i - depth) xs.length with hin | hout
    · -- the last of the indices belongs to the first of the variables
      have hlt : xs.length - 1 - (i - depth) < xs.length := by omega
      have hplace : (xs.map Var.id).idxOf? xs[xs.length - 1 - (i - depth)].id =
          some (xs.length - 1 - (i - depth)) := by
        refine idxOf?_of_nodup hnodup ?_
        rw [List.getElem?_map, List.getElem?_eq_getElem hlt, Option.map_some]
      have hback : depth + xs.length - 1 - (xs.length - 1 - (i - depth)) = i := by omega
      rw [List.getElem?_reverse (by rwa [List.length_map]), List.getElem?_map, List.length_map,
        List.getElem?_eq_getElem hlt, Option.map_some, closeAt_var, closeVar, hplace]
      simp only [List.length_map, hback]
    -- the index leads out of the scope, and loses as much in the one step as it gains in the other
    · have hlow : ¬ i - xs.length < depth := by omega
      have hback : i - xs.length + xs.length = i := by omega
      rw [List.getElem?_eq_none (by simpa using hout)]
      simp only [List.length_reverse, List.length_map, closeAt_bound, closeIndex, hlow, if_false,
        hback]

theorem closeAt_openAt (hnodup : (xs.map Var.id).Nodup) {t : Term}
    (ht : ∀ x ∈ xs, x.id ∉ t.freeIds) (depth : Nat) :
    (t.openAt (xs.map var).reverse depth).closeAt (xs.map Var.id) depth = t := by
  -- a term with two parts has the variables of both
  have hsides : ∀ {a b : List VarId}, (∀ x ∈ xs, x.id ∉ a ++ b) →
      (∀ x ∈ xs, x.id ∉ a) ∧ ∀ x ∈ xs, x.id ∉ b := by
    intro a b h
    simp only [List.mem_append, not_or] at h
    exact ⟨fun x hx => (h x hx).1, fun x hx => (h x hx).2⟩
  induction t generalizing depth with
  | bound i => exact closeAt_openIndex hnodup depth i
  | var y =>
    -- no variable of the body is closed over but those that were just put in
    have hy : y.id ∉ xs.map Var.id := by
      intro hmem
      obtain ⟨x, hx, heq⟩ := List.mem_map.1 hmem
      exact ht x hx (List.mem_singleton.2 heq)
    rw [openAt_var, closeAt_var, closeVar, List.idxOf?_eq_none_iff.2 hy]
  | ref | typ => rfl
  | lam _ _ _ ih => rw [openAt_lam, closeAt_lam, ih ht]
  | loc _ _ ih => rw [openAt_loc, closeAt_loc, ih ht]
  | all _ _ _ _ ih₁ ih₂ => rw [openAt_all, closeAt_all, ih₁ (hsides ht).1, ih₂ (hsides ht).2]
  | app _ _ _ ih₁ ih₂ => rw [openAt_app, closeAt_app, ih₁ (hsides ht).1, ih₂ (hsides ht).2]
  | letIn _ _ _ _ ih₁ ih₂ => rw [openAt_letIn, closeAt_letIn, ih₁ (hsides ht).1, ih₂ (hsides ht).2]
  | ann _ _ _ ih₁ ih₂ => rw [openAt_ann, closeAt_ann, ih₁ (hsides ht).1, ih₂ (hsides ht).2]

/-- A scope that is opened with different variables, none of which it has, is the same again when it
is closed over them. -/
theorem abstractOver_instantiate (hnodup : (xs.map Var.id).Nodup) {t : Term}
    (ht : ∀ x ∈ xs, x.id ∉ t.freeIds) :
    (t.instantiate (xs.map var)).abstractOver (xs.map Var.id) = t := by
  rw [abstractOver_eq_closeAt, instantiate_eq_openAt, closeAt_openAt hnodup ht]

end

/-! ## Indices in range -/

/-- The greatest number of binders of a term around a place in it. -/
def nesting : Term → Nat
  | bound _ | var _ | ref _ | typ => 0
  | all _ _ a b => max a.nesting (b.nesting + 2)
  | lam _ _ b => b.nesting + 1
  | app f a _ => max f.nesting a.nesting
  | letIn _ _ e b => max e.nesting (b.nesting + 1)
  | ann _ e t => max e.nesting t.nesting
  | loc _ e => e.nesting

/-- An index of the term, or the number of binders around a place in it, stays in range if `arity`
is added. -/
def HasRoom (arity : Nat) (t : Term) : Prop :=
  t.indexBound + arity ≤ indexCount ∧ t.nesting + arity < indexCount

instance (arity : Nat) (t : Term) : Decidable (t.HasRoom arity) :=
  inferInstanceAs (Decidable (_ ∧ _))

/-- Closing raises an index by the arity of the scope at most, or brings in one that is below the
number of binders around it. -/
theorem indexBound_closeAt_le (ids : List VarId) (t : Term) (depth : Nat) :
    (t.closeAt ids depth).indexBound ≤
      max (t.indexBound + ids.length) (depth + t.nesting + ids.length) := by
  induction t generalizing depth with
  | bound i =>
    simp only [closeAt_bound, closeIndex]
    -- an index that is moved grows by the number of variables
    split <;> simp only [indexBound] <;> omega
  | var x =>
    simp only [closeAt_var, closeVar]
    cases hplace : ids.idxOf? x.id with
    | none => exact Nat.zero_le _
    | some pos =>
      -- the place of a variable is below their number
      obtain ⟨hlt, -⟩ := List.idxOf?_eq_some_iff.1 hplace
      simp only [indexBound, nesting]
      omega
  | ref | typ => exact Nat.zero_le _
  | lam _ _ b ih =>
    have hb := ih (depth + 1)
    simp only [closeAt_lam, indexBound, nesting] at hb ⊢
    omega
  | loc _ _ ih => exact ih depth
  | app f a _ ih₁ ih₂ | ann _ f a ih₁ ih₂ =>
    have hf := ih₁ depth
    have ha := ih₂ depth
    simp only [closeAt_app, closeAt_ann, indexBound, nesting] at hf ha ⊢
    omega
  | all _ _ a b ih₁ ih₂ =>
    have ha := ih₁ depth
    have hb := ih₂ (depth + 2)
    simp only [closeAt_all, indexBound, nesting] at ha hb ⊢
    omega
  | letIn _ _ e b ih₁ ih₂ =>
    have he := ih₁ depth
    have hb := ih₂ (depth + 1)
    simp only [closeAt_letIn, indexBound, nesting] at he hb ⊢
    omega

theorem abstractOver?_of_hasRoom {ids : List VarId} {t : Term} (h : t.HasRoom ids.length) :
    t.abstractOver? ids = some (t.abstractOver ids) := by
  obtain ⟨hindex, hnesting⟩ := h
  have hle := indexBound_closeAt_le ids t 0
  refine if_pos (decide_eq_true ?_)
  rw [abstractOver_eq_closeAt]
  omega

theorem abstractOver?_of_eq {ids : List VarId} {t b : Term} (h : t.abstractOver ids = b)
    (hb : b.isInRange = true) : t.abstractOver? ids = some b := by
  simp only [abstractOver?, h, hb, if_true]

/-- Closing and opening are inverse to each other. A term that is closed over different variables
and opened with as many values has these values in the places of the variables, and is otherwise the
same; its indices and the values may point out of it. A scope that is opened with different
variables, none of which it has, and closed over them is the same scope. No index leaves the range
on the way. -/
theorem closing_and_opening_inverse :
    (∀ (ids : List VarId) (values : List Term) (t : Term), ids.Nodup →
      values.length = ids.length → t.HasRoom ids.length →
      ∃ b σ, t.abstractOver? ids = some b ∧ Assigns ids values σ ∧
        b.instantiate values = t.subst σ) ∧
    ∀ (xs : List Var) (b : Term), (xs.map Var.id).Nodup → (∀ x ∈ xs, x.id ∉ b.freeIds) →
      b.isInRange = true →
      (b.instantiate (xs.map var)).abstractOver? (xs.map Var.id) = some b := by
  refine ⟨fun ids values t hnodup hlength hroom => ?_, fun xs b hnodup hb hrange => ?_⟩
  -- the range was checked beforehand, so the closing with a check succeeds
  · obtain ⟨σ, hσ, hsubst⟩ := exists_instantiate_abstractOver hnodup hlength t
    exact ⟨t.abstractOver ids, σ, abstractOver?_of_hasRoom hroom, hσ, hsubst⟩
  · exact abstractOver?_of_eq (abstractOver_instantiate hnodup hb) hrange

/-- `%s(n: y) -> ^5(x)`, with the variables `x` and `y`. -/
def outwardTerm (x y : Var) : Term :=
  .all "s" "n" (.var y) (.app (.bound 5) (.var x) false)

/-- An index and a global take the places of two variables, one of them below two binders; and the
scope over the variables is found again from the term. -/
theorem outwardTerm_inverse :
    let x : Var := ⟨⟨0, 4⟩, "x"⟩
    let y : Var := ⟨⟨0, 7⟩, "y"⟩
    (∃ b, (outwardTerm x y).abstractOver? [x.id, y.id] = some b ∧
      b.instantiate [.bound 3, .ref "v"] =
        .all "s" "n" (.ref "v") (.app (.bound 5) (.bound 3) false)) ∧
    ((Term.all "s" "n" (.bound 0) (.app (.bound 7) (.bound 3) false)).instantiate
      [.var x, .var y]).abstractOver? [x.id, y.id] =
        some (.all "s" "n" (.bound 0) (.app (.bound 7) (.bound 3) false)) := by
  intro x y
  obtain ⟨hclose, hopen⟩ := closing_and_opening_inverse
  obtain ⟨b, σ, hb, hσ, heq⟩ := hclose [x.id, y.id] [.bound 3, .ref "v"] (outwardTerm x y)
    (by decide) rfl (by decide)
  have hx : σ x = .bound 3 := (Option.some.inj (hσ.value 0 x rfl)).symm
  have hy : σ y = .ref "v" := (Option.some.inj (hσ.value 1 y rfl)).symm
  refine ⟨⟨b, hb, ?_⟩, hopen [x, y] _ (by decide) (by decide) (by decide)⟩
  rw [heq, outwardTerm]
  simp only [subst, hx, hy]

end SelfTypes.Term
