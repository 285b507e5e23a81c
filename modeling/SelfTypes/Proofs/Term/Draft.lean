import Mathlib.Data.List.Induction
import Mathlib.Data.List.Nodup
import SelfTypes.Proofs.Term.Closing
import SelfTypes.Term.Draft

/-!
# The indices of a draft

`Draft.build` works indices out with placeholders: each named binder closes its finished body, in
which the binders further in have been closed already. `Draft.indexed?` says what comes out, without
placeholders and in one walk: it keeps a list of the slots that the binders around a place bind, and
reads each index off that list. `getElem?_paramIndex?`, `getElem?_rawIndex` and `rawIndex_of_le` say
what is read off. Main statement: `Draft.named_binders_give_indices`.

The two are the same since a slot may give way to a variable from the outside in:
`Draft.indexed?_append` closes over the variable and has the slot again, however many slots there
are further in.
-/

namespace SelfTypes

/-! ## Slots -/

/-- What a binder binds, as it can be referred to. -/
inductive Slot where
  /-- The slot of a binder that is written with indices. -/
  | raw
  /-- The parameter of a named binder. -/
  | param (name : BinderName)
  /-- A parameter of a named binder that its body has no name for. -/
  | hidden
  deriving DecidableEq

/-- The place of a parameter in the slots around, innermost first: the one of that name that is left
after `skip` are passed over. -/
def paramIndex? (slots : List Slot) (name : BinderName) (skip : Nat) : Option Nat :=
  (slots.idxsOf (.param name))[skip]?

/-- What an index is with named binders around. It counts the binders that are written with indices,
so it is at the place of that one of them; an index that points out of all of these is raised by the
number of other slots. -/
def rawIndex (slots : List Slot) (i : Nat) : Nat :=
  (slots.idxsOf .raw)[i]?.getD (i + slots.countP (· ≠ .raw))

/-- The term with its indices raised to what they are between the given slots. -/
def Term.indexed (slots : List Slot) : Term → Term
  | bound i => bound (rawIndex slots i)
  | var x => var x
  | ref n => ref n
  | typ => typ
  | all s n a b => all s n (a.indexed slots) (b.indexed (.raw :: .raw :: slots))
  | lam n er b => lam n er (b.indexed (.raw :: slots))
  | app f a er => app (f.indexed slots) (a.indexed slots) er
  | letIn n d e b => letIn n d (e.indexed slots) (b.indexed (.raw :: slots))
  | ann d e t => ann d (e.indexed slots) (t.indexed slots)
  | loc s e => loc s (e.indexed slots)

namespace Draft

/-- The term of a draft, if its parameters are in reach: each index is read off the slots around. A
parameter that has no slot may be one of `scope`, the parameters further out that still are
variables. -/
def indexed? (scope : Scope) (slots : List Slot) : Draft → Option Term
  | done t => return t.indexed slots
  | param name skip =>
    match paramIndex? slots name skip with
    | some i => return .bound i
    -- a parameter that no binder of the draft has is looked up in the scope around it
    | none => do
      let id ← scope.parameter? name (skip - slots.count (.param name))
      return .var ⟨id, name⟩
  | all s n a b =>
    return .all s n (← a.indexed? scope slots) (← b.indexed? scope (.raw :: .raw :: slots))
  | lam n er b => return .lam n er (← b.indexed? scope (.raw :: slots))
  | app f a er => return .app (← f.indexed? scope slots) (← a.indexed? scope slots) er
  | letIn n d e b =>
    return .letIn n d (← e.indexed? scope slots) (← b.indexed? scope (.raw :: slots))
  | ann d e t => return .ann d (← e.indexed? scope slots) (← t.indexed? scope slots)
  | loc s e => return .loc s (← e.indexed? scope slots)
  -- a self type that is named binds itself first, and then its parameter
  | allNamed s n a b =>
    return .all s n (← a.indexed? scope slots) (← b.indexed? scope (.param n :: .param s :: slots))
  | piNamed n a b =>
    -- the self of a type without a name for it cannot be referred to
    return .pi n (← a.indexed? scope slots) (← b.indexed? scope (.param n :: .hidden :: slots))
  | lamNamed n er b => return .lam n er (← b.indexed? scope (.param n :: slots))
  | letNamed n d e b =>
    return .letIn n d (← e.indexed? scope slots) (← b.indexed? scope (.param n :: slots))

/-- Every parameter is used within the body of its binder: each reference finds its binder among
those around it, whose names are listed innermost first. -/
def IsScoped (names : List BinderName) : Draft → Prop
  | done _ => True
  | param name skip => skip < names.count name
  | all _ _ a b | letIn _ _ a b | app a b _ | ann _ a b => a.IsScoped names ∧ b.IsScoped names
  | lam _ _ b | loc _ b => b.IsScoped names
  | allNamed s n a b => a.IsScoped names ∧ b.IsScoped (n :: s :: names)
  | piNamed n a b | letNamed n _ a b => a.IsScoped names ∧ b.IsScoped (n :: names)
  | lamNamed n _ b => b.IsScoped (n :: names)

/-- The free variables of the finished terms in a draft. -/
def freeIds : Draft → List VarId
  | done t => t.freeIds
  | param .. => []
  | all _ _ a b | letIn _ _ a b | app a b _ | ann _ a b => a.freeIds ++ b.freeIds
  | allNamed _ _ a b | piNamed _ a b | letNamed _ _ a b => a.freeIds ++ b.freeIds
  | lam _ _ b | loc _ b | lamNamed _ _ b => b.freeIds

end Draft

/-! ## Places of slots -/

section

variable (slots : List Slot)

theorem idxsOf_append_self (slot : Slot) :
    (slots ++ [slot]).idxsOf slot = slots.idxsOf slot ++ [slots.length] := by
  simp

theorem idxsOf_append_of_ne {slot slot' : Slot} (h : slot' ≠ slot) :
    (slots ++ [slot']).idxsOf slot = slots.idxsOf slot := by
  simp [h]

/-- The place of a slot is where it is, and the equal slots that were passed over are further in. -/
theorem getElem?_of_getElem?_idxsOf {slot : Slot} {k i : Nat}
    (h : (slots.idxsOf slot)[k]? = some i) :
    slots[i]? = some slot ∧ (slots.take i).count slot = k := by
  -- the induction goes from the innermost slot outwards, as `k` counts from the inside
  induction slots using List.reverseRecOn generalizing k i with
  | nil => cases h
  | append_singleton slots outer ih =>
    -- a slot further out does not change what the slots inside it come to
    have hinner : (slots.idxsOf slot)[k]? = some i →
        (slots ++ [outer])[i]? = some slot ∧ ((slots ++ [outer]).take i).count slot = k := by
      intro h
      obtain ⟨hi, hcount⟩ := ih h
      have hlt := (List.getElem?_eq_some_iff.1 hi).1
      rw [List.getElem?_append_left hlt, List.take_append_of_le_length (Nat.le_of_lt hlt)]
      exact ⟨hi, hcount⟩
    by_cases houter : outer = slot
    · subst houter
      rw [idxsOf_append_self] at h
      rcases Nat.lt_or_ge k (slots.idxsOf outer).length with hlt | hge
      -- the outermost slot is not the one meant, as there are enough inside it
      · rw [List.getElem?_append_left hlt] at h
        exact hinner h
      -- the outermost slot is the one meant, and all the others of its kind are inside it
      · rw [List.getElem?_append_right hge, List.getElem?_singleton] at h
        split at h
        · cases h
          rw [List.length_idxsOf] at *
          simp
          omega
        · cases h
    · rw [idxsOf_append_of_ne slots houter] at h
      exact hinner h

theorem count_raw_add_countP : slots.count .raw + slots.countP (· ≠ .raw) = slots.length := by
  rw [List.length_eq_countP_add_countP (· == Slot.raw)]
  simp [List.count]

/-- An index of an expression that one of its own binders binds still is the index of that
binder. -/
theorem getElem?_rawIndex {i : Nat} (h : i < slots.count .raw) :
    slots[rawIndex slots i]? = some .raw ∧ (slots.take (rawIndex slots i)).count .raw = i := by
  have hlt : i < (slots.idxsOf .raw).length := by rwa [List.length_idxsOf]
  have hplace := List.getElem?_eq_getElem hlt
  rw [rawIndex, hplace, Option.getD_some]
  exact getElem?_of_getElem?_idxsOf slots hplace

/-- An index that points out of an expression is raised by the named binders around. -/
theorem rawIndex_of_le {i : Nat} (h : slots.count .raw ≤ i) :
    rawIndex slots i = i + slots.countP (· ≠ .raw) := by
  have hnone : (slots.idxsOf .raw)[i]? = none :=
    List.getElem?_eq_none (by rwa [List.length_idxsOf])
  rw [rawIndex, hnone, Option.getD_none]

end

/-! ## One more slot around -/

section

variable (slots : List Slot)

theorem rawIndex_append_of_lt {i : Nat} (h : i < slots.count .raw) (slots' : List Slot) :
    rawIndex (slots ++ slots') i = rawIndex slots i := by
  have hlt : i < (slots.idxsOf .raw).length := by rwa [List.length_idxsOf]
  rw [rawIndex, rawIndex, List.idxsOf_append, List.getElem?_append_left hlt,
    List.getElem?_eq_getElem hlt, Option.getD_some, Option.getD_some]

/-- The indices of an expression are the same with one more binder of its kind around. -/
theorem rawIndex_append_raw (i : Nat) : rawIndex (slots ++ [.raw]) i = rawIndex slots i := by
  have hcount : (slots ++ [Slot.raw]).count .raw = slots.count .raw + 1 := by simp
  have hother : (slots ++ [Slot.raw]).countP (· ≠ .raw) = slots.countP (· ≠ .raw) := by
    simp [List.countP_append]
  rcases Nat.lt_trichotomy i (slots.count .raw) with hlt | rfl | hgt
  · exact rawIndex_append_of_lt slots hlt _
  · -- the index of the new binder is the one that first pointed out of the others
    have hlength : (slots.idxsOf .raw).length = slots.count .raw := List.length_idxsOf
    rw [rawIndex_of_le slots (Nat.le_refl _), count_raw_add_countP, rawIndex, idxsOf_append_self,
      ← hlength, List.getElem?_concat_length, Option.getD_some]
  · rw [rawIndex_of_le slots (Nat.le_of_lt hgt), rawIndex_of_le _ (by omega), hother]

/-- An index passes one more slot of another kind if it points out of the slots that were there. -/
theorem closeIndex_rawIndex {slot : Slot} (hslot : slot ≠ .raw) (i : Nat) :
    Term.closeIndex 1 slots.length (rawIndex slots i) = .bound (rawIndex (slots ++ [slot]) i) := by
  have hlength := count_raw_add_countP slots
  have hcount : (slots ++ [slot]).count .raw = slots.count .raw := by simp [hslot]
  have hother : (slots ++ [slot]).countP (· ≠ .raw) = slots.countP (· ≠ .raw) + 1 := by
    simp [List.countP_append, hslot]
  rcases Nat.lt_or_ge i (slots.count .raw) with hlt | hge
  · have hin := (List.getElem?_eq_some_iff.1 (getElem?_rawIndex slots hlt).1).1
    -- the index has a binder in the draft, which stands inside the slots
    rw [rawIndex_append_of_lt slots hlt, Term.closeIndex, if_pos hin]
  · have hout : ¬ i + slots.countP (· ≠ .raw) < slots.length := by omega
    -- the index leads out of the draft and past the slots, of which there is one more now
    rw [rawIndex_of_le slots hge, rawIndex_of_le _ (hcount ▸ hge), Term.closeIndex, if_neg hout,
      hother, Nat.add_assoc]

section

variable {slots} {name : BinderName} {skip i : Nat}

theorem paramIndex?_eq_none_iff :
    paramIndex? slots name skip = none ↔ slots.count (.param name) ≤ skip := by
  rw [paramIndex?, List.getElem?_eq_none_iff, List.length_idxsOf]

/-- The index of a parameter is the place of a slot of that name, with `skip` more of the name
further in. -/
theorem getElem?_paramIndex? (h : paramIndex? slots name skip = some i) :
    slots[i]? = some (.param name) ∧ (slots.take i).count (.param name) = skip :=
  getElem?_of_getElem?_idxsOf slots h

theorem lt_length_of_paramIndex? (h : paramIndex? slots name skip = some i) : i < slots.length :=
  (List.getElem?_eq_some_iff.1 (getElem?_paramIndex? h).1).1

theorem paramIndex?_append (h : paramIndex? slots name skip = some i) (slots' : List Slot) :
    paramIndex? (slots ++ slots') name skip = some i := by
  have hlt := (List.getElem?_eq_some_iff.1 h).1
  rw [paramIndex?, List.idxsOf_append, List.getElem?_append_left hlt]
  exact h

theorem paramIndex?_append_of_ne {slot : Slot} (h : slot ≠ .param name) :
    paramIndex? (slots ++ [slot]) name skip = paramIndex? slots name skip := by
  rw [paramIndex?, paramIndex?, idxsOf_append_of_ne slots h]

/-- If all of the name further in are passed over, the outermost slot is meant. -/
theorem paramIndex?_append_self :
    paramIndex? (slots ++ [.param name]) name (slots.count (.param name)) = some slots.length := by
  have hlength : (slots.idxsOf (.param name)).length = slots.count (.param name) :=
    List.length_idxsOf
  rw [paramIndex?, idxsOf_append_self, ← hlength, List.getElem?_concat_length]

end

end

/-! ## Variables in the place of slots -/

namespace Draft

section Parameter

variable {scope : Scope} {name name' : BinderName} {id : VarId} {skip : Nat}

theorem parameter?_cons_zero : Scope.parameter? ((name, id) :: scope) name 0 = some id := by
  simp [Scope.parameter?]

theorem parameter?_cons_succ :
    Scope.parameter? ((name, id) :: scope) name (skip + 1) = scope.parameter? name skip := by
  simp [Scope.parameter?]

theorem parameter?_cons_of_ne (h : name' ≠ name) :
    Scope.parameter? ((name', id) :: scope) name skip = scope.parameter? name skip := by
  simp [Scope.parameter?, h]

theorem mem_of_parameter? (h : scope.parameter? name skip = some id) : id ∈ scope.map Prod.snd := by
  obtain ⟨p, hp, rfl⟩ := Option.map_eq_some_iff.1 h
  exact List.mem_map_of_mem (List.mem_filter.1 (List.mem_of_getElem? hp)).1

end Parameter

end Draft

/-- What is in reach of the body of a binder that has the slot, while a variable stands for the
slot. -/
def Slot.enter (id : VarId) (scope : Draft.Scope) : Slot → Draft.Scope
  | param name => (name, id) :: scope
  | raw | hidden => scope

section

variable {slot : Slot} {id : VarId}

/-- Closing over a variable that a term does not have raises the indices that point past the
slot. -/
theorem Term.closeAt_indexed (hslot : slot ≠ .raw) {t : Term} (ht : id ∉ t.freeIds)
    (slots : List Slot) :
    (t.indexed slots).closeAt [id] slots.length = t.indexed (slots ++ [slot]) := by
  induction t generalizing slots with
  | bound i => exact closeIndex_rawIndex slots hslot i
  | var x =>
    -- the placeholder does not occur, so closing over it leaves all variables as they are
    have hx : x.id ∉ [id] := fun h => ht (List.mem_singleton.2 (List.mem_singleton.1 h).symm)
    rw [indexed, indexed, closeAt_var, closeVar, List.idxOf?_eq_none_iff.2 hx]
  | ref | typ => rfl
  | lam _ _ _ ih => exact congrArg _ (ih ht (_ :: slots))
  | loc _ _ ih => exact congrArg _ (ih ht slots)
  | app _ _ _ ih₁ ih₂ | ann _ _ _ ih₁ ih₂ =>
    obtain ⟨h₁, h₂⟩ := not_or.1 (mt List.mem_append.2 ht)
    simp only [indexed, closeAt_app, closeAt_ann, ih₁ h₁, ih₂ h₂]
  -- below a binder there are more slots in front, and the depth counts them
  | all _ _ _ _ ih₁ ih₂ =>
    obtain ⟨h₁, h₂⟩ := not_or.1 (mt List.mem_append.2 ht)
    have hbody := ih₂ h₂ (.raw :: .raw :: slots)
    simp only [List.length_cons, List.cons_append] at hbody
    rw [indexed, indexed, closeAt_all, ih₁ h₁, hbody]
  | letIn _ _ _ _ ih₁ ih₂ =>
    obtain ⟨h₁, h₂⟩ := not_or.1 (mt List.mem_append.2 ht)
    have hbody := ih₂ h₂ (.raw :: slots)
    simp only [List.length_cons, List.cons_append] at hbody
    rw [indexed, indexed, closeAt_letIn, ih₁ h₁, hbody]

theorem Term.indexed_append_raw (t : Term) (slots : List Slot) :
    t.indexed (slots ++ [.raw]) = t.indexed slots := by
  induction t generalizing slots with
  | bound i => rw [indexed, indexed, rawIndex_append_raw]
  | var | ref | typ => rfl
  | lam _ _ _ ih => exact congrArg _ (ih (_ :: slots))
  | loc _ _ ih => exact congrArg _ (ih slots)
  | app _ _ _ ih₁ ih₂ | ann _ _ _ ih₁ ih₂ => rw [indexed, indexed, ih₁, ih₂]
  | all _ _ _ _ ih₁ ih₂ | letIn _ _ _ _ ih₁ ih₂ =>
    simp only [indexed, ← List.cons_append, ih₁, ih₂]

theorem Term.indexed_nil (t : Term) : t.indexed [] = t := by
  have hraw : ∀ b : Term, b.indexed [.raw] = b.indexed [] := fun b => b.indexed_append_raw []
  have hraw₂ : ∀ b : Term, b.indexed [.raw, .raw] = b.indexed [] :=
    fun b => (b.indexed_append_raw [.raw]).trans (hraw b)
  induction t with
  | bound | var | ref | typ => rfl
  | lam _ _ _ ih => rw [indexed, hraw, ih]
  | loc _ _ ih => rw [indexed, ih]
  | app _ _ _ ih₁ ih₂ | ann _ _ _ ih₁ ih₂ => rw [indexed, ih₁, ih₂]
  | all _ _ _ _ ih₁ ih₂ => rw [indexed, hraw₂, ih₁, ih₂]
  | letIn _ _ _ _ ih₁ ih₂ => rw [indexed, hraw, ih₁, ih₂]

theorem Term.freeIds_indexed (t : Term) (slots : List Slot) :
    (t.indexed slots).freeIds = t.freeIds := by
  induction t generalizing slots with
  | bound | var | ref | typ => rfl
  | lam _ _ _ ih | loc _ _ ih => exact ih _
  | app _ _ _ ih₁ ih₂ | ann _ _ _ ih₁ ih₂ | all _ _ _ _ ih₁ ih₂ | letIn _ _ _ _ ih₁ ih₂ =>
    simp only [indexed, freeIds, ih₁, ih₂]

namespace Draft

theorem indexed?_append_raw (d : Draft) (scope : Scope) (slots : List Slot) :
    d.indexed? scope (slots ++ [.raw]) = d.indexed? scope slots := by
  induction d generalizing slots with
  | done t => rw [indexed?, indexed?, Term.indexed_append_raw]
  | param name skip =>
    -- a binder without a name is not counted for any name
    have hcount : (slots ++ [Slot.raw]).count (.param name) = slots.count (.param name) := by simp
    rw [indexed?, indexed?, paramIndex?_append_of_ne (by simp), hcount]
  | lam _ _ _ ih | loc _ _ ih | lamNamed _ _ _ ih =>
    simp only [indexed?, ← List.cons_append, ih]
  | all _ _ _ _ ih₁ ih₂ | app _ _ _ ih₁ ih₂ | letIn _ _ _ _ ih₁ ih₂ | ann _ _ _ ih₁ ih₂
  | allNamed _ _ _ _ ih₁ ih₂ | piNamed _ _ _ ih₁ ih₂ | letNamed _ _ _ _ ih₁ ih₂ =>
    simp only [indexed?, ← List.cons_append, ih₁, ih₂]

section Param

variable {scope : Scope} {slots : List Slot} {name : BinderName} {skip i : Nat}

theorem indexed?_param_of_some (h : paramIndex? slots name skip = some i) :
    (param name skip).indexed? scope slots = some (.bound i) := by
  rw [indexed?, h]
  rfl

theorem indexed?_param_of_none (h : paramIndex? slots name skip = none) :
    (param name skip).indexed? scope slots =
      (scope.parameter? name (skip - slots.count (.param name))).map (.var ⟨·, name⟩) := by
  rw [indexed?, h]
  exact bind_pure_comp _ _

/-- Closing over a variable leaves the parameters alone that are other variables. -/
theorem closeAt_parameter? (hid : id ∉ scope.map Prod.snd) (depth : Nat) :
    ((scope.parameter? name skip).map fun id' => Term.var ⟨id', name⟩).map
      (·.closeAt [id] depth) = (scope.parameter? name skip).map (.var ⟨·, name⟩) := by
  cases hfound : scope.parameter? name skip with
  | none => rfl
  | some id' =>
    have hne : id' ∉ [id] := fun h => hid (List.mem_singleton.1 h ▸ mem_of_parameter? hfound)
    simp only [Option.map_some, Term.closeAt_var, Term.closeVar, List.idxOf?_eq_none_iff.2 hne]

theorem parameter?_enter_of_ne (h : slot ≠ .param name) :
    (slot.enter id scope).parameter? name skip = scope.parameter? name skip := by
  cases slot with
  | raw | hidden => rfl
  | param name' => exact parameter?_cons_of_ne fun hname => h (hname ▸ rfl)

/-- A reference to a parameter has the same index if a variable stands for the outermost slot and
the scope is closed over the variable. -/
theorem indexed?_param_append (hid : id ∉ scope.map Prod.snd) :
    (param name skip).indexed? scope (slots ++ [slot]) =
      ((param name skip).indexed? (slot.enter id scope) slots).map
        (·.closeAt [id] slots.length) := by
  cases hi : paramIndex? slots name skip with
  | some i =>
    -- the slot is further out than the one that is meant
    rw [indexed?_param_of_some (paramIndex?_append hi _), indexed?_param_of_some hi,
      Option.map_some, Term.closeAt_bound, Term.closeIndex, if_pos (lt_length_of_paramIndex? hi)]
  | none =>
    have hle := paramIndex?_eq_none_iff.1 hi
    rw [indexed?_param_of_none hi]
    by_cases hname : slot = .param name
    · subst hname
      obtain ⟨rest, rfl⟩ := Nat.exists_eq_add_of_le hle
      cases rest with
      | zero =>
        -- exactly the outermost slot is meant: on the right, its placeholder is closed over
        rw [Nat.add_zero, indexed?_param_of_some paramIndex?_append_self, Nat.sub_self,
          Slot.enter, parameter?_cons_zero]
        simp [Term.closeVar]
      | succ rest =>
        -- the parameter is meant that is further out than all slots of its name
        have hcount : (slots ++ [Slot.param name]).count (.param name) =
            slots.count (.param name) + 1 := by simp
        have hout : paramIndex? (slots ++ [.param name]) name
            (slots.count (.param name) + (rest + 1)) = none :=
          paramIndex?_eq_none_iff.2 (by omega)
        rw [indexed?_param_of_none hout, Slot.enter, Nat.add_sub_cancel_left,
          parameter?_cons_succ, closeAt_parameter? hid, hcount, Nat.add_sub_add_left]
        rfl
    · have hcount : (slots ++ [slot]).count (.param name) = slots.count (.param name) := by
        -- a slot of another name is skipped on both sides
        simp [hname]
      rw [indexed?_param_of_none ((paramIndex?_append_of_ne hname).trans hi), hcount,
        parameter?_enter_of_ne hname, closeAt_parameter? hid]

end Param

/-- The outermost slot may give way to a variable that is new to the draft: the term is the same
once it is closed over the variable. -/
theorem indexed?_append (hslot : slot ≠ .raw) {scope : Scope} (hid : id ∉ scope.map Prod.snd)
    {d : Draft} (hd : id ∉ d.freeIds) (slots : List Slot) :
    d.indexed? scope (slots ++ [slot]) =
      (d.indexed? (slot.enter id scope) slots).map (·.closeAt [id] slots.length) := by
  -- the binders of the draft put their slots in front, so the outermost one stays where it is
  induction d generalizing slots with
  | done t => exact congrArg some (Term.closeAt_indexed hslot hd slots).symm
  | param name skip => exact indexed?_param_append hid
  | lam _ _ _ ih | loc _ _ ih | lamNamed _ _ _ ih =>
    simp only [indexed?, ← List.cons_append, ih hd]
    simp [Option.bind_map, Option.map_bind, Function.comp_def]
  | all _ _ _ _ ih₁ ih₂ | app _ _ _ ih₁ ih₂ | letIn _ _ _ _ ih₁ ih₂ | ann _ _ _ ih₁ ih₂
  | allNamed _ _ _ _ ih₁ ih₂ | piNamed _ _ _ ih₁ ih₂ | letNamed _ _ _ _ ih₁ ih₂ =>
    obtain ⟨h₁, h₂⟩ := not_or.1 (mt List.mem_append.2 hd)
    simp only [indexed?, ← List.cons_append, ih₁ h₁, ih₂ h₂]
    simp [Option.bind_map, Option.map_bind, Function.comp_def, Term.pi]

end Draft

end

/-- Closing a scope of two is closing one scope in another. -/
theorem Term.closeAt_pair {outer inner : VarId} (hne : outer ≠ inner) (t : Term) (depth : Nat) :
    t.closeAt [outer, inner] depth = (t.closeAt [inner] depth).closeAt [outer] (depth + 1) := by
  induction t generalizing depth with
  | bound i =>
    simp only [closeAt_bound, closeIndex]
    split
    -- a bound index below the depth is kept by both passes
    · rename_i hi
      rw [closeAt_bound, closeIndex, if_pos (by omega)]
    · rw [closeAt_bound, closeIndex, List.length_singleton, if_neg (by omega)]
      -- an index above it makes room twice
      rfl
  | var x =>
    rcases x with ⟨id, name⟩
    by_cases hinner : inner = id
    -- the inner variable becomes the index of the inner binder, and the outer pass keeps it
    · subst hinner
      simp [closeVar, closeIndex, List.idxOf?_cons, hne]
    · by_cases houter : outer = id <;>
        simp [closeVar, List.idxOf?_cons, hinner, houter]
  | ref | typ => rfl
  | lam _ _ _ ih => rw [closeAt_lam, ih, closeAt_lam, closeAt_lam]
  | loc _ _ ih => rw [closeAt_loc, ih, closeAt_loc, closeAt_loc]
  | app _ _ _ ih₁ ih₂ => rw [closeAt_app, ih₁, ih₂, closeAt_app, closeAt_app]
  | ann _ _ _ ih₁ ih₂ => rw [closeAt_ann, ih₁, ih₂, closeAt_ann, closeAt_ann]
  | all _ _ _ _ ih₁ ih₂ => rw [closeAt_all, ih₁, ih₂, closeAt_all, closeAt_all]
  | letIn _ _ _ _ ih₁ ih₂ => rw [closeAt_letIn, ih₁, ih₂, closeAt_letIn, closeAt_letIn]

namespace Draft

/-! ## What comes out -/

section

variable {α β : Type} {next : Nat}

/-- With the placeholders from `next` on to issue, the computation comes to the given end. -/
def Builds (x : BuildM α) (next : Nat) (o : Option α) : Prop :=
  ∃ next', next ≤ next' ∧ x ⟨placeholderGroup, next⟩ = o.map (·, ⟨placeholderGroup, next'⟩)

namespace Builds

theorem pure (a : α) : Builds (Pure.pure a) next (some a) :=
  ⟨next, Nat.le_refl next, rfl⟩

theorem lift (o : Option α) : Builds (liftM o) next o := by
  refine ⟨next, Nat.le_refl next, ?_⟩
  cases o <;> rfl

theorem bind {x : BuildM α} {f : α → BuildM β} {o : Option α} {g : α → Option β}
    (hx : Builds x next o) (hf : ∀ a next', next ≤ next' → Builds (f a) next' (g a)) :
    Builds (x >>= f) next (o >>= g) := by
  obtain ⟨next', hnext, hx⟩ := hx
  cases o with
  | none => exact ⟨next', hnext, by simp [Bind.bind, StateT.bind, hx]⟩
  | some a =>
    obtain ⟨next'', hnext', hf⟩ := hf a next' hnext
    exact ⟨next'', Nat.le_trans hnext hnext', by simpa [Bind.bind, StateT.bind, hx] using hf⟩

theorem map {x : BuildM α} {o : Option α} (hx : Builds x next o) (f : α → β) :
    Builds (x >>= fun a => Pure.pure (f a)) next (o >>= fun a => Pure.pure (f a)) :=
  hx.bind fun a _ _ => .pure (f a)

theorem issue_bind {f : VarId → BuildM α} {o : Option α}
    (h : Builds (f ⟨placeholderGroup, next⟩) (next + 1) o) : Builds (issue >>= f) next o := by
  obtain ⟨next', hnext, h⟩ := h
  exact ⟨next', Nat.le_of_succ_le hnext, h⟩

end Builds

/-- The variables in the scope were issued before the placeholder of the number. -/
def Scope.Below (scope : Scope) (next : Nat) : Prop :=
  ∀ id ∈ scope.map Prod.snd, id.index < next

namespace Scope.Below

variable {scope : Scope}

theorem mono (h : scope.Below next) {next' : Nat} (hle : next ≤ next') : scope.Below next' :=
  fun id hid => Nat.lt_of_lt_of_le (h id hid) hle

theorem fresh (h : scope.Below next) : ⟨placeholderGroup, next⟩ ∉ scope.map Prod.snd :=
  fun hid => Nat.lt_irrefl next (h _ hid)

theorem enter (h : scope.Below next) (slot : Slot) :
    (slot.enter ⟨placeholderGroup, next⟩ scope).Below (next + 1) := by
  cases slot with
  | raw | hidden => exact h.mono (Nat.le_succ next)
  | param name =>
    intro id hid
    rcases List.mem_cons.1 hid with rfl | hid
    · exact Nat.lt_succ_self next
    · exact Nat.lt_succ_of_lt (h id hid)

end Scope.Below

variable {scope : Scope}

section Body

variable {d : Draft} (hd : ∀ id ∈ d.freeIds, id.group ≠ placeholderGroup)
  (ih : ∀ {scope : Scope} {next : Nat}, scope.Below next →
    Builds (build scope d) next (d.indexed? scope []))

include hd ih

/-- A body under a named binder of one slot. -/
theorem builds_body (hscope : scope.Below next) (n : BinderName) (f : Term → β) :
    Builds (do
      let arg ← issue
      let body ← build ((n, arg) :: scope) d
      return f (body.abstractOver [arg])) next (do return f (← d.indexed? scope [.param n])) := by
  have hfresh : ⟨placeholderGroup, next⟩ ∉ d.freeIds := fun h => hd _ h rfl
  have hparam : Slot.param n ≠ .raw := nofun
  have hbody : d.indexed? scope [.param n] = _ := indexed?_append hparam hscope.fresh hfresh []
  rw [hbody, Option.bind_eq_bind, Option.bind_map]
  exact .issue_bind ((ih (hscope.enter (.param n))).map _)

/-- A body under a named binder of two slots; it may have no name for the outer one. -/
theorem builds_body_pair (hscope : scope.Below next) (slot : Slot) (hslot : slot ≠ .raw)
    (n : BinderName) (f : Term → β) :
    Builds (do
      let self ← issue
      let arg ← issue
      let body ← build ((n, arg) :: slot.enter self scope) d
      return f (body.abstractOver [self, arg])) next
        (do return f (← d.indexed? scope [.param n, slot])) := by
  -- variables of drafts are not issued by placeholders, so the two that are issued now are new
  have hfresh : ∀ i, ⟨placeholderGroup, i⟩ ∉ d.freeIds := fun i h => hd _ h rfl
  have hparam : Slot.param n ≠ .raw := nofun
  have hself : d.indexed? scope [.param n, slot] = _ :=
    indexed?_append hslot hscope.fresh (hfresh next) [.param n]
  have harg : d.indexed? (slot.enter ⟨placeholderGroup, next⟩ scope) [.param n] = _ :=
    indexed?_append hparam (hscope.enter slot).fresh (hfresh (next + 1)) []
  -- the two placeholders are closed over one after the other
  have hclose : ∀ t : Term,
      t.abstractOver [⟨placeholderGroup, next⟩, ⟨placeholderGroup, next + 1⟩] =
        (t.closeAt [⟨placeholderGroup, next + 1⟩] 0).closeAt [⟨placeholderGroup, next⟩] 1 :=
    fun t => t.closeAt_pair (by simp) 0
  rw [hself, harg, Option.map_map, Option.bind_eq_bind, Option.bind_map]
  refine .issue_bind (.issue_bind ?_)
  -- both placeholders are gone when the body is closed, in the order in which they were issued
  simp only [hclose]
  exact (ih ((hscope.enter slot).enter (.param n))).map _

end Body

/-- The term of a draft is worked out with placeholders as it is read off the slots. -/
theorem builds_indexed? {d : Draft} (hscope : scope.Below next)
    (hd : ∀ id ∈ d.freeIds, id.group ≠ placeholderGroup) :
    Builds (build scope d) next (d.indexed? scope []) := by
  -- binders without a name shift nothing that a draft can refer to by name
  have hraw : ∀ (b : Draft) (scope : Scope), b.indexed? scope [.raw] = b.indexed? scope [] :=
    fun b scope => indexed?_append_raw b scope []
  have hraw₂ : ∀ (b : Draft) (scope : Scope), b.indexed? scope [.raw, .raw] = b.indexed? scope [] :=
    fun b scope => (indexed?_append_raw b scope [.raw]).trans (hraw b scope)
  -- the body of a named binder is built in a larger scope, and a second part after the placeholders
  -- of the first were issued
  induction d generalizing scope next with
  | done t =>
    rw [indexed?, t.indexed_nil]
    exact .pure t
  | param name skip => exact (Builds.lift _).map _
  | lam n er b ih =>
    rw [indexed?, hraw]
    exact (ih hscope hd).map _
  | loc s b ih => exact (ih hscope hd).map _
  | app f a er ih₁ ih₂ | ann done f a ih₁ ih₂ =>
    -- the second part is built with the supply that the first one left
    obtain ⟨h₁, h₂⟩ := List.forall_mem_append.1 hd
    exact (ih₁ hscope h₁).bind fun _ _ hle => (ih₂ (hscope.mono hle) h₂).map _
  | all s n a b ih₁ ih₂ =>
    obtain ⟨h₁, h₂⟩ := List.forall_mem_append.1 hd
    rw [indexed?, hraw₂]
    exact (ih₁ hscope h₁).bind fun _ _ hle => (ih₂ (hscope.mono hle) h₂).map _
  | letIn n dup e b ih₁ ih₂ =>
    obtain ⟨h₁, h₂⟩ := List.forall_mem_append.1 hd
    rw [indexed?, hraw]
    exact (ih₁ hscope h₁).bind fun _ _ hle => (ih₂ (hscope.mono hle) h₂).map _
  | allNamed s n a b ih₁ ih₂ =>
    obtain ⟨h₁, h₂⟩ := List.forall_mem_append.1 hd
    exact (ih₁ hscope h₁).bind fun bind _ hle =>
      builds_body_pair h₂ (ih₂ · h₂) (hscope.mono hle) (.param s) nofun n (Term.all s n bind)
  | piNamed n a b ih₁ ih₂ =>
    obtain ⟨h₁, h₂⟩ := List.forall_mem_append.1 hd
    exact (ih₁ hscope h₁).bind fun bind _ hle =>
      builds_body_pair h₂ (ih₂ · h₂) (hscope.mono hle) .hidden nofun n (Term.pi n bind)
  | lamNamed n er b ih =>
    have hb : ∀ id ∈ b.freeIds, id.group ≠ placeholderGroup := hd
    exact builds_body hb (ih · hb) hscope n (Term.lam n er)
  | letNamed n dup e b ih₁ ih₂ =>
    obtain ⟨h₁, h₂⟩ := List.forall_mem_append.1 hd
    exact (ih₁ hscope h₁).bind fun expr _ hle =>
      builds_body h₂ (ih₂ · h₂) (hscope.mono hle) n (Term.letIn n dup expr)

end

/-! ## Scoped drafts -/

/-- Each name is that of at least as many slots. -/
def Covers (slots : List Slot) (names : List BinderName) : Prop :=
  ∀ name, names.count name ≤ slots.count (.param name)

namespace Covers

variable {slots : List Slot} {names : List BinderName}

theorem cons (h : Covers slots names) (slot : Slot) : Covers (slot :: slots) names :=
  fun name => Nat.le_trans (h name) List.count_le_count_cons

theorem named (h : Covers slots names) (n : BinderName) :
    Covers (.param n :: slots) (n :: names) := by
  intro name
  have hname := h name
  simp only [List.count_cons, beq_iff_eq, Slot.param.injEq]
  split <;> omega

end Covers

/-- A node of two parts has the variables of both. -/
theorem exists_pair {x y : Option Term} {ids ids' : List VarId}
    (hx : ∃ t, x = some t ∧ t.freeIds = ids) (hy : ∃ t, y = some t ∧ t.freeIds = ids')
    (f : Term → Term → Term) (hf : ∀ a b, (f a b).freeIds = a.freeIds ++ b.freeIds) :
    ∃ t, (do return f (← x) (← y)) = some t ∧ t.freeIds = ids ++ ids' := by
  obtain ⟨a, rfl, rfl⟩ := hx
  obtain ⟨b, rfl, rfl⟩ := hy
  exact ⟨f a b, rfl, hf a b⟩

/-- A draft has a term if its parameters are used where they are in reach. The term has the
variables of the draft, and no others. -/
theorem exists_indexed? {d : Draft} {names : List BinderName} {slots : List Slot}
    (hscope : d.IsScoped names) (hcovers : Covers slots names) :
    ∃ t, d.indexed? [] slots = some t ∧ t.freeIds = d.freeIds := by
  induction d generalizing names slots with
  | done t => exact ⟨_, rfl, t.freeIds_indexed slots⟩
  | param name skip =>
    cases hi : paramIndex? slots name skip with
    | some i => exact ⟨_, indexed?_param_of_some hi, rfl⟩
    | none =>
      have hout := paramIndex?_eq_none_iff.1 hi
      -- a parameter in scope cannot be out of reach of the slots
      have hin := Nat.lt_of_lt_of_le hscope (hcovers name)
      omega
  | loc s b ih =>
    obtain ⟨t, ht, hids⟩ := ih hscope hcovers
    exact ⟨.loc s t, by simp [indexed?, ht], hids⟩
  | lam n er b ih =>
    obtain ⟨t, ht, hids⟩ := ih hscope (hcovers.cons .raw)
    exact ⟨.lam n er t, by simp [indexed?, ht], hids⟩
  | lamNamed n er b ih =>
    obtain ⟨t, ht, hids⟩ := ih hscope (hcovers.named n)
    exact ⟨.lam n er t, by simp [indexed?, ht], hids⟩
  | app f a er ih₁ ih₂ =>
    exact exists_pair (ih₁ hscope.1 hcovers) (ih₂ hscope.2 hcovers) (.app · · er) fun _ _ => rfl
  | ann done e t ih₁ ih₂ =>
    exact exists_pair (ih₁ hscope.1 hcovers) (ih₂ hscope.2 hcovers) (.ann done) fun _ _ => rfl
  | all s n a b ih₁ ih₂ =>
    exact exists_pair (ih₁ hscope.1 hcovers) (ih₂ hscope.2 ((hcovers.cons .raw).cons .raw))
      (.all s n) fun _ _ => rfl
  | letIn n dup e b ih₁ ih₂ =>
    exact exists_pair (ih₁ hscope.1 hcovers) (ih₂ hscope.2 (hcovers.cons .raw))
      (.letIn n dup) fun _ _ => rfl
  | allNamed s n a b ih₁ ih₂ =>
    exact exists_pair (ih₁ hscope.1 hcovers) (ih₂ hscope.2 ((hcovers.named s).named n))
      (.all s n) fun _ _ => rfl
  | piNamed n a b ih₁ ih₂ =>
    exact exists_pair (ih₁ hscope.1 hcovers) (ih₂ hscope.2 ((hcovers.cons .hidden).named n))
      (.pi n) fun _ _ => rfl
  | letNamed n dup e b ih₁ ih₂ =>
    exact exists_pair (ih₁ hscope.1 hcovers) (ih₂ hscope.2 (hcovers.named n))
      (.letIn n dup) fun _ _ => rfl

/-- Named binders give the indices that their places call for. A draft whose parameters are used
within their binders' bodies has the term in which each parameter is the index of its slot, and each
index is raised by the slots of named binders that it passes; and no placeholder is left in it,
whichever ones were issued before. -/
theorem named_binders_give_indices {d : Draft} (hscope : d.IsScoped [])
    (hfree : ∀ id ∈ d.freeIds, id.group ≠ placeholderGroup) :
    ∃ t, d.indexed? [] [] = some t ∧ (∀ id ∈ t.freeIds, id.group ≠ placeholderGroup) ∧
      (∀ next, ∃ next', d.build [] ⟨placeholderGroup, next⟩ = some (t, ⟨placeholderGroup, next'⟩)) ∧
      d.toTerm = if t.isInRange then .ok t else .error .indexOverflow := by
  have hcovers : Covers [] [] := fun name => Nat.le_refl 0
  obtain ⟨t, ht, hids⟩ := exists_indexed? hscope hcovers
  have hbuild : ∀ next, ∃ next',
      d.build [] ⟨placeholderGroup, next⟩ = some (t, ⟨placeholderGroup, next'⟩) := by
    intro next
    have hbelow : Scope.Below [] next := nofun
    obtain ⟨next', -, hbuild⟩ := builds_indexed? hbelow hfree
    exact ⟨next', by rw [hbuild, ht]; rfl⟩
  refine ⟨t, ht, hids ▸ hfree, hbuild, ?_⟩
  obtain ⟨next', hzero⟩ := hbuild 0
  rw [toTerm, hzero]

/-- Binders of every kind around each other, three of them of one name: between a raw function and a
local definition stand `%x(x: Type)` and `(x: ^1) ->`. The last indices are those of the raw
function and of nothing. -/
def nestedDraft (free : Var) : Draft :=
  .lam "y" false <| .allNamed "x" "x" (.done .typ) <| .piNamed "x" (.param "x" 1) <|
    .letNamed "v" false (.lamNamed "w" true (.param "x" 2)) <|
      .app (.app (.param "v") (.param "x" 1) false)
        (.done (.app (.var free) (.app (.bound 0) (.bound 1) false) false)) false

/-- The variable of the draft stays, and there is no other in its term. -/
theorem nestedDraft_toTerm :
    let free : Var := ⟨⟨0, 0⟩, "f"⟩
    (nestedDraft free).toTerm = .ok
      (.lam "y" false <| .all "x" "x" .typ <| .pi "x" (.bound 1) <|
        .letIn "v" false (.lam "w" true (.bound 4)) <|
          .app (.app (.bound 0) (.bound 3) false)
            (.app (.var free) (.app (.bound 5) (.bound 6) false) false) false) := by
  intro free
  have hscope : (nestedDraft free).IsScoped [] := by simp [nestedDraft, IsScoped]
  have hfree : ∀ id ∈ (nestedDraft free).freeIds, id.group ≠ placeholderGroup := by
    decide
  obtain ⟨t, ht, -, -, hterm⟩ := named_binders_give_indices hscope hfree
  cases ht
  exact hterm

end Draft

end SelfTypes
