/-!
# Variable identifiers

A free variable is identified by the group that issued it and by its index within that group;
its display name plays no part in what it refers to. This module holds identifiers, variables
and the two kinds of supply that issue them: a `Supply` numbers the variables of one group, a
`GroupSupply` hands out supplies of consecutive groups.

Main statements: an issued identifier carries the supply's group and next index, and the supply
then stands one index further.
-/

namespace SelfTypes

/-- The name under which a binder is displayed. -/
abbrev BinderName := String

/-- The name of a global definition. -/
abbrev DefName := String

/-! ## Identifiers and variables -/

/-- What a free variable is known by: the group it was issued in and its number there. -/
structure VarId where
  group : Nat
  index : Nat
  deriving DecidableEq, Inhabited

namespace VarId

/-- Identifiers are ordered by group first and by index within a group. -/
protected def compare (a b : VarId) : Ordering :=
  (Ord.compare a.group b.group).then (Ord.compare a.index b.index)

/-- The diagnostic spelling of an identifier. -/
def text (id : VarId) : String :=
  s!"VarId({id.group}, {id.index})"

end VarId

/-- A free variable: its identity and the name it is displayed under. -/
structure Var where
  id : VarId
  name : BinderName
  deriving DecidableEq, Inhabited

/-- A variable is displayed with its index, which tells apart variables of one name. -/
def Var.text (x : Var) : String :=
  s!"{x.name}#{x.id.index}"

/-! ## Supplies -/

/-- A supply of the variables of one group, in order of their indices. -/
structure Supply where
  group : Nat
  next : Nat := 0
  deriving DecidableEq, Inhabited

namespace Supply

/-- The next identifier of the group, and the supply without it. -/
def issue (s : Supply) : VarId × Supply :=
  (⟨s.group, s.next⟩, { s with next := s.next + 1 })

@[simp] theorem issue_fst (s : Supply) : s.issue.1 = ⟨s.group, s.next⟩ := rfl

@[simp] theorem issue_snd (s : Supply) : s.issue.2 = ⟨s.group, s.next + 1⟩ := rfl

end Supply

/-- A supply of groups, in order of their numbers. -/
structure GroupSupply where
  next : Nat := 0
  deriving DecidableEq, Inhabited

namespace GroupSupply

/-- A fresh supply over the next group, and the groups without it. -/
def issue (g : GroupSupply) : Supply × GroupSupply :=
  ({ group := g.next }, { next := g.next + 1 })

@[simp] theorem issue_fst (g : GroupSupply) : g.issue.1 = ⟨g.next, 0⟩ := rfl

@[simp] theorem issue_snd (g : GroupSupply) : g.issue.2 = ⟨g.next + 1⟩ := rfl

end GroupSupply

end SelfTypes
